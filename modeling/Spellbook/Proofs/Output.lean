import Spellbook.Proofs.Forms
import Spellbook.Proofs.Turns
import Spellbook.Session

/-!
# Output is only added to

No spell looks at what has been revealed: run from a machine that has revealed something else
before, a tree does the same and reveals the same (`Tree.meaning_blind`). So a run adds a text to
the output, and the text does not depend on what stood there (`Spell.Blind.exists_revealed`).

Of the plain forms this is inherited from their parts. Left are the statements on runes, the cycles
and the incantations, which change runes and incantations, and look at the endings of their parts.
-/

namespace Spellbook

/-- The machine with a text in front of all that it has revealed. -/
def Machine.preceded (o : String) (m : Machine) : Machine := { m with output := o ++ m.output }

/-- A machine that has revealed something is one that has revealed nothing, with a text in front. -/
theorem Machine.preceded_silenced (m : Machine) (o : String) :
    m.silenced.preceded o = { m with output := o } := by
  rw [Machine.silenced, Machine.preceded, String.append_empty]

namespace Spell

variable {α β : Type}

/-- What was revealed before makes no difference to the spell. -/
def Blind (x : Spell α) : Prop := ∀ o m, x (m.preceded o) = ((x m).1, (x m).2.preceded o)

namespace Blind

variable {x : Spell α}

/-- **A blind spell adds a text to the output**, whatever stands there. -/
theorem exists_revealed (hx : x.Blind) {m m' : Machine} {e : Ending α} (h : x m = (e, m')) :
    ∃ s, m'.output = m.output ++ s ∧
    ∀ o, x { m with output := o } = (e, { m' with output := o ++ s }) := by
  have hrun (o : String) : x { m with output := o } =
      ((x m.silenced).1, (x m.silenced).2.preceded o) := by
    rw [← Machine.preceded_silenced, hx]
  have hm := hrun m.output
  rw [h] at hm
  obtain ⟨he, hm'⟩ := Prod.mk.inj hm
  refine ⟨(x m.silenced).2.output, by rw [hm']; rfl, fun o => ?_⟩
  rw [hrun, he, hm']
  rfl

/-- A blind spell that reveals nothing does so whatever was revealed before. -/
theorem of_silent (hx : x.Blind) {m m' : Machine} {e : Ending α} (h : x m = (e, m'))
    (hsilent : m'.output = m.output) (o : String) :
    x { m with output := o } = (e, { m' with output := o }) := by
  obtain ⟨s, hs, hrun⟩ := hx.exists_revealed h
  have hempty : s = "" :=
    String.append_right_inj m.output |>.mp (by rw [← hs, hsilent, String.append_empty])
  rw [hrun, hempty, String.append_empty]

/-! ## Rules -/

theorem finish (e : Ending α) : (Spell.finish e).Blind := fun _ _ => rfl

/-- What is blind to the earlier output and goes on with something blind is blind. -/
theorem bind {f : α → Spell β} (hx : x.Blind) (hf : ∀ a, (f a).Blind) : (x >>= f).Blind := by
  intro o m
  rw [bind_apply, Spell.bind, hx, bind_apply, Spell.bind]
  rcases x m with ⟨e, m'⟩
  cases e with
  | done a => exact hf a o m'
  | proclaimed | shattered | persisted | failed | exhausted => rfl

/-- A look at the machine is blind if what it looks at does not depend on the output. -/
theorem look {g : Machine → α} (hg : ∀ o m, g (m.preceded o) = g m) : (Spell.look g).Blind :=
  fun o m => congrArg (fun a => (Ending.done a, m.preceded o)) (hg o m)

/-- A change of the machine is blind if it passes the earlier output on. -/
theorem change {g : Machine → Machine} (hg : ∀ o m, g (m.preceded o) = (g m).preceded o) :
    (Spell.change g).Blind :=
  fun o m => congrArg (fun m' => (Ending.done (), m')) (hg o m)

/-- An attempt is blind if what is attempted is. -/
theorem attempt (hx : x.Blind) : (Spell.attempt x).Blind := by
  intro o m
  rw [Spell.attempt, hx]
  rfl

theorem write (name : String) (e : Entry) : (Spell.write name e).Blind := change fun _ _ => rfl

theorem modify (name : String) (f : Entry → Entry) : (Spell.modify name f).Blind :=
  change fun _ _ => rfl

theorem dispel (name : String) : (Spell.dispel name).Blind := change fun _ _ => rfl

theorem reveal (s : String) : (Spell.reveal s).Blind :=
  change fun _ m => congrArg (fun output => { m with output }) String.append_assoc

theorem listen : Spell.listen.Blind := by
  refine bind (look fun _ _ => rfl) fun cs => ?_
  cases cs with
  | nil => exact finish _
  | cons c cs => exact bind (change fun _ _ => rfl) fun _ => finish _

theorem draw : Spell.draw.Blind := by
  refine bind (look fun _ _ => rfl) fun ds => ?_
  cases ds with
  | nil => exact finish _
  | cons d ds => exact bind (change fun _ _ => rfl) fun _ => finish _

end Blind

/-- To be blind is inherited. -/
theorem blind_inherited : Inherited fun _ x => x.Blind where
  pure _ := .finish _
  fail _ := .finish _
  outOfFuel := .finish _
  bind := .bind
  find? _ := .look fun _ _ => rfl
  reveal := .reveal
  listen := .listen
  draw := .draw

theorem Blind.lift (x : Fallible α) : (liftM x : Spell α).Blind := blind_inherited.lift x

end Spell

open Spell (Blind blind_inherited)

section Forms

variable {run : Run} (h : ∀ t, (run t).Blind) {parts : List Tree}
include h

theorem runPart_blind (n : Nat) : (runPart run parts n).Blind :=
  runPart_inherits blind_inherited (fun t _ => h t) n

theorem runKey_blind (n : Nat) : (runKey run parts n).Blind :=
  runKey_inherits blind_inherited (fun t _ => h t) n

theorem runAll_blind : (runAll run parts).Blind := runAll_inherits blind_inherited fun t _ => h t

/-! ## Statements on runes -/

theorem declareMeaning_blind (isSealed : Bool) (n : Nat) :
    (declareMeaning isSealed n run parts).Blind := by
  refine (runKey_blind h n).bind fun name => (blind_inherited.find? name).bind fun found => ?_
  refine blind_inherited.check ?_
  split
  · exact (Blind.write _ _).bind fun _ => .finish _
  · exact (Blind.write _ _).bind fun _ => .finish _
  · refine (h _).bind fun d => (Blind.lift _).bind fun v => ?_
    exact (Blind.write _ _).bind fun _ => .finish _

theorem assignMeaning_blind : (assignMeaning run parts).Blind := by
  refine (runPart_blind h 0).bind fun name => (runPart_blind h 1).bind fun d => ?_
  refine (Blind.lift _).bind fun name => (blind_inherited.changeable name).bind fun _ => ?_
  exact (Blind.lift _).bind fun v => (Blind.modify _ _).bind fun _ => .finish _

theorem dispelMeaning_blind : (dispelMeaning run parts).Blind :=
  (runKey_blind h 1).bind fun name => (blind_inherited.written name).bind fun _ =>
    (Blind.dispel name).bind fun _ => .finish _

theorem sealMeaning_blind : (sealMeaning run parts).Blind :=
  (runKey_blind h 1).bind fun name => (blind_inherited.changeable name).bind fun _ =>
    (Blind.modify _ _).bind fun _ => .finish _

theorem stepMeaning_blind : (stepMeaning run parts).Blind := by
  refine (runKey_blind h 0).bind fun name => (blind_inherited.changeable name).bind fun _ => ?_
  refine (runPart_blind h 1).bind fun op => (blind_inherited.known name).bind fun e => ?_
  refine (Blind.lift _).bind fun isNumber => ?_
  split
  · exact (Blind.lift _).bind fun _ => .finish _
  · refine (Blind.lift _).bind fun op => ?_
    split
    · exact .finish _
    · refine (Blind.lift _).bind fun r => (Blind.lift _).bind fun v => ?_
      exact (Blind.modify _ _).bind fun _ => .finish _

theorem compoundMeaning_blind : (compoundMeaning run parts).Blind := by
  refine (runKey_blind h 0).bind fun name => (blind_inherited.changeable name).bind fun _ => ?_
  refine (runPart_blind h 1).bind fun op => (runPart_blind h 2).bind fun other => ?_
  refine (blind_inherited.known name).bind fun e => (Blind.lift _).bind fun isNumber => ?_
  refine (Blind.lift _).bind fun kind => ?_
  split
  · exact (Blind.lift _).bind fun _ => .finish _
  · refine (Blind.lift _).bind fun op => ?_
    split
    · exact .finish _
    · refine (Blind.lift _).bind fun a => (Blind.lift _).bind fun b =>
        (Blind.lift _).bind fun v => ?_
      exact (Blind.modify _ _).bind fun _ => .finish _

/-! ## Incantations -/

omit h in
theorem members_blind (t : Tree) : (members t).Blind := by
  unfold members
  split
  · exact .finish _
  · exact .finish _
  · split
    · exact .finish _
    · exact .finish _

theorem runKeys_blind (ts : List Tree) : (runKeys run ts).Blind := by
  induction ts with
  | nil => exact .finish _
  | cons t ts ih =>
    exact (h t).bind fun d => (Blind.lift _).bind fun name => ih.bind fun _ => .finish _

theorem incantationMeaning_blind : (incantationMeaning run parts).Blind := by
  refine (runPart_blind h 1).bind fun name => (members_blind _).bind fun ts => ?_
  refine (runKeys_blind h ts).bind fun parameters => (Blind.lift _).bind fun name => ?_
  refine (Blind.look fun _ _ => rfl).bind fun found => blind_inherited.check ?_
  exact (Blind.change fun _ _ => rfl).bind fun _ => .finish _

omit h in
theorem bindArguments_blind (names : List String) (ds : List Datum) :
    (bindArguments names ds).Blind := by
  fun_induction bindArguments names ds with
  | case1 name names d ds ih =>
    exact (Blind.lift _).bind fun v => (Blind.write _ _).bind fun _ => ih
  | case2 => exact .finish _

omit h in
/-- A cast is blind if its body is. -/
theorem castBody_blind {body : Spell Datum} (hbody : body.Blind) (depth : Nat) :
    (castBody body depth).Blind := by
  refine hbody.attempt.bind fun ending => (Blind.change fun _ _ => rfl).bind fun _ => ?_
  cases ending <;> exact .finish _

theorem castMeaning_blind : (castMeaning run parts).Blind := by
  refine (runKey_blind h 1).bind fun name => (Blind.look fun _ _ => rfl).bind fun found => ?_
  cases found with
  | none => exact .finish _
  | some i =>
    refine (members_blind _).bind fun ts => (runAll_blind h).bind fun arguments => ?_
    refine blind_inherited.check ?_
    refine (Blind.look fun _ _ => rfl).bind fun depth =>
      (Blind.change fun _ _ => rfl).bind fun _ => ?_
    exact (bindArguments_blind _ _).bind fun _ => castBody_blind (h i.body) depth

theorem proclaimMeaning_blind : (proclaimMeaning run parts).Blind := by
  unfold proclaimMeaning
  split
  · exact .finish _
  · exact (h _).bind fun d => .finish _

end Forms

/-! ## Cycles -/

section Cycles

variable {body : Spell Datum} (hbody : body.Blind)
include hbody

theorem goesOn_blind : (goesOn body).Blind := by
  refine hbody.attempt.bind fun ending => ?_
  cases ending <;> exact .finish _

/-- A cycle is blind if its body, its questions and what stands between the turns are. -/
theorem turns_blind {between last : Spell Unit} (hbetween : between.Blind) (hlast : last.Blind)
    {asks : List (Spell Bool)} (hasks : ∀ ask ∈ asks, ask.Blind) :
    (turns body between last asks).Blind := by
  induction asks with
  | nil => exact hlast
  | cons ask asks ih =>
    obtain ⟨hask, hasks⟩ := List.forall_mem_cons.mp hasks
    refine hask.bind fun asked => ?_
    split
    · refine (goesOn_blind hbody).bind fun goes => ?_
      split
      · exact hbetween.bind fun _ => ih hasks
      · exact .finish _
    · exact .finish _

/-- Cycles that ask the same before each turn, as long as there is fuel. -/
theorem fuelledTurns_blind {between : Spell Unit} (hbetween : between.Blind) {ask : Spell Bool}
    (hask : ask.Blind) (fuel : Nat) :
    (turns body between (Spell.finish .exhausted) (List.replicate fuel ask)).Blind :=
  turns_blind hbody hbetween (.finish _) fun _ h => by rwa [List.eq_of_mem_replicate h]

omit hbody

theorem stepRange_blind (name : String) (step : Value) : (stepRange name step).Blind :=
  (blind_inherited.known name).bind fun _ => (Blind.modify _ _).bind fun _ =>
    (Blind.lift _).bind fun _ => Blind.modify _ _

theorem askRange_blind (name : String) (stop : Value) : (askRange name stop).Blind :=
  (blind_inherited.known name).bind fun _ => Blind.lift _

theorem askEach_blind (name : String) (c : Char) : (askEach name c).Blind :=
  (blind_inherited.known name).bind fun _ => (Blind.modify _ _).bind fun _ => .finish _

theorem askLest_blind {condition : Spell Datum} (h : condition.Blind) : (askLest condition).Blind :=
  h.bind fun _ => (Blind.lift _).bind fun _ => .finish _

variable {run : Run} (h : ∀ t, (run t).Blind) {parts : List Tree} (fuel : Nat)
include h

theorem rangeCycleMeaning_blind : (rangeCycleMeaning fuel run parts).Blind := by
  refine (runPart_blind h 1).bind fun d => (Blind.lift _).bind fun r =>
    (Blind.write _ _).bind fun _ => ?_
  refine part_bind_inherits blind_inherited fun block _ => ?_
  have hturns : (rangeTurns (run block) r.name r.stop r.step fuel).Blind := by
    rw [rangeTurns_eq_turns]
    exact fuelledTurns_blind (h block) (stepRange_blind _ _) (askRange_blind _ _) fuel
  refine hturns.bind fun _ => (blind_inherited.known r.name).bind fun _ => ?_
  exact (Blind.dispel _).bind fun _ => .finish _

theorem eachCycleMeaning_blind : (eachCycleMeaning run parts).Blind := by
  refine (runPart_blind h 1).bind fun name => (runPart_blind h 3).bind fun d => ?_
  refine part_bind_inherits blind_inherited fun block _ => (Blind.lift _).bind fun name => ?_
  refine (blind_inherited.find? name).bind fun found => blind_inherited.check ?_
  refine (Blind.lift _).bind fun length => ?_
  split
  · exact .finish _
  · refine (Blind.lift _).bind fun first => (Blind.lift _).bind fun kind =>
      (Blind.write _ _).bind fun _ => ?_
    split
    · rename_i s
      have hturns : (eachTurn (run block) name s.toList).Blind := by
        rw [eachTurn_eq_turns]
        refine turns_blind (h block) (.finish _) (.finish _) fun ask hask => ?_
        obtain ⟨c, -, rfl⟩ := List.mem_map.mp hask
        exact askEach_blind name c
      exact hturns.bind fun _ => .finish _
    · exact .finish _

theorem lestCycleMeaning_blind : (lestCycleMeaning fuel run parts).Blind := by
  refine part_bind_inherits blind_inherited fun block _ => ?_
  have hturns : (lestTurns (runPart run parts 2) (run block) fuel).Blind := by
    rw [lestTurns_eq_turns]
    exact fuelledTurns_blind (h block) (.finish _) (askLest_blind (runPart_blind h 2)) fuel
  exact hturns.bind fun _ => .finish _

theorem endlessCycleMeaning_blind : (endlessCycleMeaning fuel run parts).Blind := by
  refine part_bind_inherits blind_inherited fun block _ => ?_
  have hturns : (endlessTurns (run block) fuel).Blind := by
    rw [endlessTurns_eq_turns]
    exact fuelledTurns_blind (h block) (.finish _) (.finish _) fuel
  exact hturns.bind fun _ => .finish _

end Cycles

/-! ## All trees -/

/-- Each form is blind if the run of its parts is. -/
theorem Form.meaning_blind {run : Run} (h : ∀ t, (run t).Blind) (f : Form) (fuel : Nat)
    (parts : List Tree) :
    (f.meaning fuel run parts).Blind := by
  by_cases hf : f.isPlain = true
  · exact Form.meaning_inherits_of_isPlain blind_inherited (fun t _ => h t) fuel hf
  · cases f with
    | declare => exact declareMeaning_blind h false 1
    | declareSealed => exact declareMeaning_blind h true 2
    | assign => exact assignMeaning_blind h
    | dispel => exact dispelMeaning_blind h
    | sealRune => exact sealMeaning_blind h
    | step => exact stepMeaning_blind h
    | compound => exact compoundMeaning_blind h
    | incantation => exact incantationMeaning_blind h
    | cast => exact castMeaning_blind h
    | proclaim => exact proclaimMeaning_blind h
    | rangeCycle => exact rangeCycleMeaning_blind h fuel
    | endlessCycle => exact endlessCycleMeaning_blind h fuel
    | lestCycle => exact lestCycleMeaning_blind h fuel
    | eachCycle => exact eachCycleMeaning_blind h
    | _ => exact absurd rfl hf

/-- **What was revealed before makes no difference to a run.** -/
theorem Tree.meaning_blind (n : Nat) (t : Tree) : (t.meaning n).Blind :=
  Tree.meaning_inherits_of_forms (fun (_ : Unit) _ x => x.Blind) (fun _ _ => True)
    (fun _ => blind_inherited) (fun _ _ => ⟨fun _ => .finish _, fun _ => .finish _⟩)
    (fun fuel h {_ f parts} _ => Form.meaning_blind (fun _ => h (s := ()) trivial) f fuel parts) n
      (s := ()) trivial

end Spellbook
