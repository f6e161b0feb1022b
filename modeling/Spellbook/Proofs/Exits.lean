import Spellbook.Proofs.Forms
import Spellbook.Proofs.Turns

/-!
# Ways out

A spell that proclaims something, fails or runs out of fuel leaves all that is around it: no node
looks at such an ending of a part, except that cycles pass it on and a cast gives a proclamation to
its caller. This is said by comparing two runs of the same node. If each part of one does what it
does in the other, unless it leaves by one of some given ways out, then so does the node
(`Form.meaning_agrees`).

Two things follow. With more fuel a run does the same, unless it ran out of fuel. And a proclamation
of a part, if the part is run at all, is the ending of the node (`Form.meaning_of_proclaimed`).
-/

namespace Spellbook

/-- Ways out of a run, with the machines that are left behind. -/
structure Exits where
  proclaimed : Datum → Machine → Prop
  failed : Fault → Machine → Prop
  exhausted : Machine → Prop

namespace Exits

/-- A run leaves by one of the ways out. -/
def Holds (S : Exits) {α : Type} : Ending α × Machine → Prop
  | (.proclaimed d, m) => S.proclaimed d m
  | (.failed f, m) => S.failed f m
  | (.exhausted, m) => S.exhausted m
  | (.done _, _) | (.shattered, _) | (.persisted, _) => False

/-- A sequence leaves if its first spell does. -/
theorem holds_bind {S : Exits} {α β : Type} {x : Spell α} {m : Machine} (h : S.Holds (x m))
    (f : α → Spell β) :
    S.Holds ((x >>= f) m) := by
  rw [Spell.bind_apply, Spell.bind]
  rcases hx : x m with ⟨e, m'⟩
  rw [hx] at h
  cases e with
  | proclaimed | failed | exhausted => exact h
  | done | shattered | persisted => exact h.elim

/-- The fuel of two cycles: the same, or more if a run may leave by being out of it. -/
def Fuels (S : Exits) (fuel fuel' : Nat) : Prop := fuel = fuel' ∨ fuel ≤ fuel' ∧ ∀ m, S.exhausted m

/-- A cast passes the ways out of a body on. -/
def ThroughCasts (S : Exits) : Prop :=
  ∀ (body : Spell Datum) (depth : Nat) (m : Machine), S.Holds (body m) →
    S.Holds (castBody body depth m)

end Exits

namespace Spell

variable {α β : Type} {x y : Spell α} {S : Exits}

/-- Unless `x` leaves by one of the ways out, `y` does the same. -/
def AgreesUnless (y : Spell α) (S : Exits) (x : Spell α) : Prop := ∀ m, ¬S.Holds (x m) → y m = x m

namespace AgreesUnless

/-- Each spell agrees with itself. -/
theorem refl (x : Spell α) : x.AgreesUnless S x := fun _ _ => rfl

/-- Nothing is asked of a spell if the other is out of fuel and that is a way out. -/
theorem outOfFuel (hout : ∀ m, S.exhausted m) (y : Spell α) :
    y.AgreesUnless S (finish .exhausted) :=
  fun m h => absurd (hout m) h

/-- Spells that agree and go on with spells that agree agree. -/
theorem bind {f g : α → Spell β} (h : y.AgreesUnless S x) (hg : ∀ a, (g a).AgreesUnless S (f a)) :
    (y >>= g).AgreesUnless S (x >>= f) := by
  intro m hm
  have hx := h m
  rw [bind_apply, Spell.bind] at hm ⊢
  rw [bind_apply, Spell.bind]
  rcases hending : x m with ⟨e, m'⟩
  rw [hending] at hm hx
  cases e with
  | done a =>
    rw [hx id]
    exact hg a m' hm
  | proclaimed | failed | exhausted => rw [hx hm]
  | shattered | persisted => rw [hx id]

/-- What follows need not be looked at if it is the same. -/
theorem andThen (h : y.AgreesUnless S x) (f : α → Spell β) : (y >>= f).AgreesUnless S (x >>= f) :=
  h.bind fun a => refl (f a)

/-- An ending may be looked at if the ways out are passed on. -/
theorem attempt_bind (h : y.AgreesUnless S x) {k : Ending α → Spell β}
    (hk : ∀ m, S.Holds (x m) → S.Holds ((attempt x >>= k) m)) :
    (attempt y >>= k).AgreesUnless S (attempt x >>= k) := by
  intro m hm
  show k (y m).1 (y m).2 = k (x m).1 (x m).2
  rw [h m fun hx => hm (hk m hx)]

end AgreesUnless

end Spell

open Spell (AgreesUnless)

variable {S : Exits}

section Parts

variable {run run' : Run} (h : ∀ t, (run' t).AgreesUnless S (run t)) (parts : List Tree)
include h

/-! ### Running parts -/

theorem runPart_agrees (n : Nat) : (runPart run' parts n).AgreesUnless S (runPart run parts n) :=
  (AgreesUnless.refl _).bind h

theorem runKey_agrees (n : Nat) : (runKey run' parts n).AgreesUnless S (runKey run parts n) :=
  (runPart_agrees h parts n).andThen _

theorem runValue_agrees (n : Nat) : (runValue run' parts n).AgreesUnless S (runValue run parts n) :=
  (runPart_agrees h parts n).andThen _

/-- A list of trees agrees if each of its trees does. -/
theorem runAll_agrees : (runAll run' parts).AgreesUnless S (runAll run parts) := by
  induction parts with
  | nil => exact .refl _
  | cons t ts ih => exact (h t).bind fun d => ih.andThen _

theorem runThree_agrees : (runThree run' parts).AgreesUnless S (runThree run parts) :=
  (runAll_agrees h parts).andThen _

theorem runKeys_agrees : (runKeys run' parts).AgreesUnless S (runKeys run parts) := by
  induction parts with
  | nil => exact .refl _
  | cons t ts ih => exact (h t).bind fun d => (AgreesUnless.refl _).bind fun name => ih.andThen _

theorem runEach_agrees : (runEach run' parts).AgreesUnless S (runEach run parts) := by
  induction parts with
  | nil => exact .refl _
  | cons t ts ih => exact (h t).bind fun _ => ih

theorem runWhere_agrees (declarations : Bool) :
    (runWhere declarations run' parts).AgreesUnless S (runWhere declarations run parts) := by
  induction parts with
  | nil => exact .refl _
  | cons t ts ih =>
    refine (AgreesUnless.refl _).bind fun isOne => ?_
    dsimp only
    split
    · exact (h t).bind fun _ => ih
    · exact ih

theorem branches_agrees : (branches run' parts).AgreesUnless S (branches run parts) := by
  fun_induction branches run parts with
  | case1 => exact .refl _
  | case2 => exact .refl _
  | case3 t hne =>
    rw [branches]
    · exact (h t).andThen _
    · exact hne
  | case4 t block hne =>
    rw [branches]
    · exact (h t).bind fun d => (AgreesUnless.refl _).bind fun last => (h block).andThen _
    · exact hne
  | case5 t condition block rest hne ih =>
    rw [branches]
    · refine (h t).bind fun d => (AgreesUnless.refl _).bind fun last => ?_
      cases last with
      -- Behind `resolve` the second part is its block.
      | true => exact (h condition).andThen _
      | false =>
        refine (h condition).bind fun d => (AgreesUnless.refl _).bind fun isTrue => ?_
        cases isTrue with
        | true => exact (h block).andThen _
        | false => exact ih
    · exact hne

/-- A part that may be left out is only run if it is there. -/
theorem optional_agrees {t : Tree} {d : Datum} {k k' : Datum → Spell Datum}
    (hk : ∀ d, (k' d).AgreesUnless S (k d)) : AgreesUnless
      (match t with
        | .absent => (pure d : Spell Datum) >>= k'
        | t => run' t >>= k') S
      (match t with
        | .absent => (pure d : Spell Datum) >>= k
        | t => run t >>= k) := by
  split
  · exact (AgreesUnless.refl _).bind hk
  · exact (h _).bind hk

theorem mayhapsMeaning_agrees :
    (mayhapsMeaning run' parts).AgreesUnless S (mayhapsMeaning run parts) := by
  refine (AgreesUnless.refl _).bind fun t => optional_agrees h fun ratio => ?_
  refine (AgreesUnless.refl _).bind fun block => (AgreesUnless.refl _).bind fun drawn => ?_
  refine (AgreesUnless.refl _).bind fun isLess => ?_
  dsimp only
  split
  · exact (h block).andThen _
  · exact .refl _

theorem rangeMeaning_agrees :
    (rangeMeaning run' parts).AgreesUnless S (rangeMeaning run parts) := by
  refine (runPart_agrees h parts 0).bind fun name => (runPart_agrees h parts 1).bind fun start => ?_
  refine (runPart_agrees h parts 2).bind fun stop => (AgreesUnless.refl _).bind fun t => ?_
  exact optional_agrees h fun step => .refl _

/-! ### Statements -/

theorem declareMeaning_agrees (isSealed : Bool) (n : Nat) :
    (declareMeaning isSealed n run' parts).AgreesUnless S
      (declareMeaning isSealed n run parts) := by
  refine (runKey_agrees h parts n).bind fun name => (AgreesUnless.refl _).bind fun found => ?_
  dsimp only
  split
  · exact .refl _
  · split
    · exact .refl _
    · exact .refl _
    · exact (h _).andThen _

theorem assignMeaning_agrees :
    (assignMeaning run' parts).AgreesUnless S (assignMeaning run parts) :=
  (runPart_agrees h parts 0).bind fun _ => (runPart_agrees h parts 1).andThen _

theorem stepMeaning_agrees : (stepMeaning run' parts).AgreesUnless S (stepMeaning run parts) :=
  (runKey_agrees h parts 0).bind fun _ => (AgreesUnless.refl _).bind fun _ =>
    (runPart_agrees h parts 1).andThen _

theorem compoundMeaning_agrees :
    (compoundMeaning run' parts).AgreesUnless S (compoundMeaning run parts) :=
  (runKey_agrees h parts 0).bind fun _ => (AgreesUnless.refl _).bind fun _ =>
    (runPart_agrees h parts 1).bind fun _ => (runPart_agrees h parts 2).andThen _

/-! ### Incantations -/

theorem incantationMeaning_agrees :
    (incantationMeaning run' parts).AgreesUnless S (incantationMeaning run parts) :=
  (runPart_agrees h parts 1).bind fun _ => (AgreesUnless.refl _).bind fun names =>
    (runKeys_agrees h names).andThen _

/-- A cast agrees if the exits go through casts. -/
theorem castMeaning_agrees (hS : S.ThroughCasts) :
    (castMeaning run' parts).AgreesUnless S (castMeaning run parts) := by
  refine (runKey_agrees h parts 1).bind fun name => (AgreesUnless.refl _).bind fun found => ?_
  cases found with
  | none => exact .refl _
  | some i =>
    refine (AgreesUnless.refl _).bind fun arguments => (runAll_agrees h arguments).bind fun ds => ?_
    dsimp only
    split
    · exact .refl _
    · refine (AgreesUnless.refl _).bind fun depth => (AgreesUnless.refl _).bind fun _ => ?_
      exact (AgreesUnless.refl _).bind fun _ => (h i.body).attempt_bind (hS (run i.body) depth)

theorem proclaimMeaning_agrees :
    (proclaimMeaning run' parts).AgreesUnless S (proclaimMeaning run parts) := by
  rw [proclaimMeaning, proclaimMeaning]
  split
  · exact .refl _
  · exact (h _).andThen _

end Parts

/-! ### Cycles -/

section Cycles

/-- An exit of the body is one of the turn. -/
theorem goesOn_holds {body : Spell Datum} {m : Machine} (h : S.Holds (body m)) :
    S.Holds (goesOn body m) := by
  rw [goesOn, Spell.bind_apply, Spell.bind, Spell.attempt]
  rcases hbody : body m with ⟨e, m'⟩
  rw [hbody] at h
  cases e with
  | proclaimed | failed | exhausted => exact h
  | done | shattered | persisted => exact h.elim

variable {body body' : Spell Datum} (hbody : body'.AgreesUnless S body)
include hbody

theorem goesOn_agrees : (goesOn body').AgreesUnless S (goesOn body) :=
  hbody.attempt_bind fun _ => goesOn_holds

/-- Cycles agree as long as both have turns. It is enough if the second then does what the first
does at last. -/
theorem turns_agrees {ι : Type} {ask ask' : ι → Spell Bool}
    (hask : ∀ i, (ask' i).AgreesUnless S (ask i)) {between last last' : Spell Unit}
    {more : List (Spell Bool)} (hlast : (turns body' between last' more).AgreesUnless S last)
    (is : List ι) :
    (turns body' between last' (is.map ask' ++ more)).AgreesUnless S
      (turns body between last (is.map ask)) := by
  induction is with
  | nil => exact hlast
  | cons i is ih =>
    refine (hask i).bind fun asked => ?_
    cases asked with
    | false => exact .refl _
    | true =>
      refine (goesOn_agrees hbody).bind fun goes => ?_
      cases goes with
      | false => exact .refl _
      | true => exact (AgreesUnless.refl _).bind fun _ => ih

theorem eachTurn_agrees (name : String) (cs : List Char) :
    (eachTurn body' name cs).AgreesUnless S (eachTurn body name cs) := by
  have h :=
    turns_agrees hbody (fun c => .refl (askEach name c))
      (.refl (turns body' (pure ()) (pure ()) [])) cs
  rw [List.append_nil] at h
  rw [eachTurn_eq_turns, eachTurn_eq_turns]
  exact h

variable {fuel fuel' : Nat} (hfuel : S.Fuels fuel fuel')
include hfuel

/-- The turns that the second cycle has more matter only if the first is out of fuel. -/
theorem fuelledTurns_agrees {ask ask' : Spell Bool} (hask : ask'.AgreesUnless S ask)
    (between : Spell Unit) :
    (turns body' between (Spell.finish .exhausted) (List.replicate fuel' ask')).AgreesUnless S
      (turns body between (Spell.finish .exhausted) (List.replicate fuel ask)) := by
  obtain ⟨more, rfl, hmore⟩ : ∃ more, fuel' = fuel + more ∧ (more = 0 ∨ ∀ m, S.exhausted m) := by
    obtain rfl | ⟨hle, hout⟩ := hfuel
    · exact ⟨0, rfl, .inl rfl⟩
    · exact ⟨fuel' - fuel, by omega, .inr hout⟩
  have hlast : (turns body' between (Spell.finish .exhausted)
      (List.replicate more ask')).AgreesUnless S (Spell.finish .exhausted) := by
    obtain rfl | hout := hmore
    · exact .refl _
    · exact .outOfFuel hout _
  have h := turns_agrees hbody (fun _ : Unit => hask) hlast (List.replicate fuel ())
  rw [List.map_replicate, List.map_replicate, List.replicate_append_replicate] at h
  exact h

/-- The turns of a range agree, by induction on the fuel. -/
theorem rangeTurns_agrees (name : String) (stop step : Value) :
    (rangeTurns body' name stop step fuel').AgreesUnless S
      (rangeTurns body name stop step fuel) := by
  rw [rangeTurns_eq_turns, rangeTurns_eq_turns]
  exact fuelledTurns_agrees hbody hfuel (.refl _) _

theorem endlessTurns_agrees :
    (endlessTurns body' fuel').AgreesUnless S (endlessTurns body fuel) := by
  rw [endlessTurns_eq_turns, endlessTurns_eq_turns]
  exact fuelledTurns_agrees hbody hfuel (.refl _) _

/-- The turns of a cycle with a condition agree, by induction on the fuel. -/
theorem lestTurns_agrees {condition condition' : Spell Datum}
    (hcondition : condition'.AgreesUnless S condition) :
    (lestTurns condition' body' fuel').AgreesUnless S (lestTurns condition body fuel) := by
  rw [lestTurns_eq_turns, lestTurns_eq_turns]
  exact fuelledTurns_agrees hbody hfuel (hcondition.andThen _) _

omit hbody hfuel

variable {run run' : Run} (h : ∀ t, (run' t).AgreesUnless S (run t)) (parts : List Tree)
include h

theorem eachCycleMeaning_agrees :
    (eachCycleMeaning run' parts).AgreesUnless S (eachCycleMeaning run parts) := by
  refine (runPart_agrees h parts 1).bind fun name => (runPart_agrees h parts 3).bind fun d => ?_
  refine (AgreesUnless.refl _).bind fun block => (AgreesUnless.refl _).bind fun name => ?_
  refine (AgreesUnless.refl _).bind fun found => ?_
  dsimp only
  split
  · exact .refl _
  · refine (AgreesUnless.refl _).bind fun length => ?_
    split
    · exact .refl _
    · refine (AgreesUnless.refl _).bind fun first => (AgreesUnless.refl _).bind fun kind => ?_
      refine (AgreesUnless.refl _).bind fun _ => ?_
      split
      · exact (eachTurn_agrees (h block) name _).andThen _
      · exact .refl _

include hfuel

theorem rangeCycleMeaning_agrees :
    (rangeCycleMeaning fuel' run' parts).AgreesUnless S (rangeCycleMeaning fuel run parts) := by
  refine (runPart_agrees h parts 1).bind fun d => (AgreesUnless.refl _).bind fun r => ?_
  refine (AgreesUnless.refl _).bind fun _ => (AgreesUnless.refl _).bind fun block => ?_
  exact (rangeTurns_agrees (h block) hfuel r.name r.stop r.step).andThen _

theorem lestCycleMeaning_agrees :
    (lestCycleMeaning fuel' run' parts).AgreesUnless S (lestCycleMeaning fuel run parts) :=
  (AgreesUnless.refl _).bind fun block =>
    (lestTurns_agrees (h block) hfuel (runPart_agrees h parts 2)).andThen _

theorem endlessCycleMeaning_agrees :
    (endlessCycleMeaning fuel' run' parts).AgreesUnless S (endlessCycleMeaning fuel run parts) :=
  (AgreesUnless.refl _).bind fun block => (endlessTurns_agrees (h block) hfuel).andThen _

end Cycles

/-! ### Nodes -/

/-- **A node does what another like it does, unless that leaves by one of the ways out**, if this is
so of their parts. Of casts it is so if they pass the ways out on. -/
theorem Form.meaning_agrees {run run' : Run} (h : ∀ t, (run' t).AgreesUnless S (run t))
    {fuel fuel' : Nat} (hfuel : S.Fuels fuel fuel') {f : Form} (hcast : f = .cast → S.ThroughCasts)
    (parts : List Tree) :
    (f.meaning fuel' run' parts).AgreesUnless S (f.meaning fuel run parts) := by
  cases f with
  | start => exact (runWhere_agrees h parts true).bind fun _ => runWhere_agrees h parts false
  | declarations => exact runWhere_agrees h parts true
  | declare => exact declareMeaning_agrees h parts false 1
  | declareSealed => exact declareMeaning_agrees h parts true 2
  | assign => exact assignMeaning_agrees h parts
  | dispel | sealRune => exact (runKey_agrees h parts 1).andThen _
  | step => exact stepMeaning_agrees h parts
  | compound => exact compoundMeaning_agrees h parts
  | incantation => exact incantationMeaning_agrees h parts
  | cast => exact castMeaning_agrees h parts (hcast rfl)
  | proclaim => exact proclaimMeaning_agrees h parts
  | block => exact runEach_agrees h parts
  | foretell => exact branches_agrees h parts
  | mayhaps => exact mayhapsMeaning_agrees h parts
  | range => exact rangeMeaning_agrees h parts
  | rangeCycle => exact rangeCycleMeaning_agrees hfuel h parts
  | endlessCycle => exact endlessCycleMeaning_agrees hfuel h parts
  | lestCycle => exact lestCycleMeaning_agrees hfuel h parts
  | eachCycle => exact eachCycleMeaning_agrees h parts
  | either | both =>
    exact (runPart_agrees h parts 0).bind fun _ => (runPart_agrees h parts 2).andThen _
  | power | rounding | index =>
    exact (runPart_agrees h parts 0).bind fun _ => (runPart_agrees h parts 1).andThen _
  | sum | product | comparison => exact (runThree_agrees h parts).andThen _
  | group | negative => exact (runValue_agrees h parts 0).andThen _
  | denial => exact (runValue_agrees h parts 1).andThen _
  | transmute =>
    exact (runValue_agrees h parts 1).bind fun _ => (runPart_agrees h parts 3).andThen _
  | interrupt | name | past | rune => exact (runPart_agrees h parts 0).andThen _
  | measure | reveal | promptedListen => exact (runPart_agrees h parts 1).andThen _
  | interpolation | part => exact (runAll_agrees h _).andThen _
  | ratio | listen | yore | parameters | arguments | collection | tome | tomeContents =>
    exact .refl _

/-! ### Proclamations -/

/-- The one way out by which a given run leaves. -/
def Exits.only (r : Ending Datum × Machine) : Exits where
  proclaimed d m := r = (.proclaimed d, m)
  failed f m := r = (.failed f, m)
  exhausted m := r = (.exhausted, m)

/-- The only exit is the given one. -/
theorem Exits.eq_of_only {r r' : Ending Datum × Machine} (h : (Exits.only r).Holds r') :
    r' = r := by
  obtain ⟨e, m⟩ := r'
  cases e with
  | proclaimed | failed | exhausted => exact h.symm
  | done | shattered | persisted => exact h.elim

/-- **No node but a cast stops a proclamation.** If a part proclaims something when it is run in
some machine, then that is what the node ends with, or else what the part would do in that machine
does not matter to the node at all. -/
theorem Form.meaning_of_proclaimed {f : Form} (hf : f ≠ .cast) {run : Run} {t : Tree}
    {m₁ m₂ : Machine} {d : Datum} (ht : run t m₁ = (.proclaimed d, m₂)) (fuel : Nat)
    (parts : List Tree) (m : Machine) :
    f.meaning fuel run parts m = (.proclaimed d, m₂) ∨
      ∀ run' : Run, (∀ u m', u ≠ t ∨ m' ≠ m₁ → run' u m' = run u m') →
        f.meaning fuel run' parts m = f.meaning fuel run parts m := by
  -- The proclamation is taken for the only way out. A node that does not leave by it does the same
  -- whatever the part does instead.
  by_cases hout : (Exits.only (.proclaimed d, m₂)).Holds (f.meaning fuel run parts m)
  · exact .inl (Exits.eq_of_only hout)
  · refine .inr fun run' hrun' =>
      Form.meaning_agrees (fun u m' hu => hrun' u m' ?_) (.inl rfl) (fun h => absurd h hf)
      parts m hout
    refine Classical.byContradiction fun hsame => ?_
    obtain ⟨hu', hm'⟩ := not_or.mp hsame
    rw [Classical.not_not.mp hu', Classical.not_not.mp hm', ht] at hu
    exact hu rfl

end Spellbook
