import Spellbook.Proofs.Forms

/-!
# Statements and cycles

Statements on runes ask before they act: a declaration finds the name free and an assignment finds
the rune open, but between the question and the act other parts of the statement may run. A law is
therefore asked to allow the act at the end of a run that began with the question (`Law.Runic`).

The rune of a cycle is stepped without any question, so a law has to let the cycle have it
beforehand (`Law.LetsCycle`). A law that does not mind what happens in the running frame
(`Law.Local`) lets every cycle have any rune, and is kept by dispelling too.
-/

namespace Spellbook

/-! ## Questions about runes -/

namespace Spell

variable {α : Type} {P : Outcome → Machine → Prop} {m : Machine} {name : String}

/-- A name is known if the scope finds it. -/
theorem known_apply (name : String) (m : Machine) :
    known name m = match m.scope.find? name with
      | some e => (.done e, m)
      | none => (.failed (.noSuchKey name), m) := by
  rw [known, bind_apply, Spell.bind, find?, look]
  cases m.scope.find? name with
  | none => rfl
  | some e => rfl

theorem known_of_find? {e : Entry} (h : m.scope.find? name = some e) :
    known name m = (.done e, m) := by
  rw [known_apply, h]

/-- A rune may be changed if it is known and not sealed. -/
theorem changeable_apply (name : String) (m : Machine) :
    changeable name m = match m.scope.find? name with
      | some e => if e.isSealed then (.failed (.sealedRune name), m) else (.done e, m)
      | none => (.failed (.notWritten name), m) := by
  rw [changeable, bind_apply, Spell.bind, written, bind_apply, Spell.bind, find?, look]
  cases m.scope.find? name with
  | none => rfl
  | some e =>
      show (if e.isSealed then fail _ else Pure.pure e : Spell Entry) m =
        if e.isSealed then _ else _
      split
      · rfl
      · rfl

/-- What goes on with a known rune ends as it does for the entry that is found, or fails. -/
theorem Ends.known_bind {k : Entry → Spell α} (hfail : P .failed m)
    (hk : ∀ e, m.scope.find? name = some e → (k e).Ends P m) : (known name >>= k).Ends P m := by
  unfold Ends
  rw [bind_apply, Spell.bind, known_apply]
  cases hfind : m.scope.find? name with
  | none => exact hfail
  | some e => exact hk e hfind

/-- A rune that may be changed is written and open. -/
theorem Ends.changeable_bind {k : Entry → Spell α} (hfail : P .failed m)
    (hk : ∀ e, m.scope.find? name = some e → e.isSealed = false → (k e).Ends P m) :
    (changeable name >>= k).Ends P m := by
  unfold Ends
  rw [bind_apply, Spell.bind, changeable_apply]
  cases hfind : m.scope.find? name with
  | none => exact hfail
  | some e =>
      dsimp only
      by_cases he : e.isSealed = true
      · rw [if_pos he]
        exact hfail
      · rw [if_neg he]
        exact hk e hfind (Bool.not_eq_true _ ▸ he)

end Spell

/-! ## Laws about runes -/

/-- A law that allows a free name to be written and an open rune to be changed, also if other spells
that keep the law come between the question and the act. -/
structure Law.Runic (L : Law) : Prop extends Law.Sequential L where
  write : ∀ {m₀ m : Machine} {name : String} (e : Entry), L m₀ .done m →
    m₀.scope.find? name = none → L m₀ .done (m.mapScope (·.write name e))
  modify : ∀ {m₀ m : Machine} {name : String} {e : Entry} (g : Entry → Entry), L m₀ .done m →
    m₀.scope.find? name = some e → e.isSealed = false →
    L m₀ .done (m.mapScope (·.modify g name))

/-- The forms that are plain, or that write or change a rune behind a check. -/
def Form.Tame (f : Form) : Prop :=
  f.isPlain = true ∨ f ∈ [declare, declareSealed, assign, sealRune, step, compound]

instance (f : Form) : Decidable f.Tame := inferInstanceAs (Decidable (_ ∨ _))

section Tame

variable {L : Law} (hL : L.Runic) {run : Run} {parts : List Tree}
  (h : ∀ t ∈ parts, (run t).Keeps L)
include hL h

theorem declareMeaning_keeps (isSealed : Bool) (n : Nat) :
    (declareMeaning isSealed n run parts).Keeps L := by
  have hS := hL.toSequential
  refine hS.bind (runKey_keeps hS h n) fun name m => ?_
  -- the name is asked about in `m` and written after the value has been evaluated
  refine Spell.Ends.look_bind ?_
  refine Spell.Ends.check (hS.failed m) fun hfree => ?_
  have hfind : m.scope.find? name = none := Option.not_isSome_iff_eq_none.mp hfree
  dsimp only
  split
  · exact hL.write _ (hS.done m) hfind
  · exact hL.write _ (hS.done m) hfind
  · rename_i t _ ht
    refine Spell.Ends.bind (h t (List.mem_of_getElem? ht) m) fun d m₁ _ hm₁ => ?_
    refine Spell.Ends.lift_bind (hS.trans hm₁ (hS.failed m₁)) fun v _ => ?_
    exact hL.write _ hm₁ hfind

theorem assignMeaning_keeps : (assignMeaning run parts).Keeps L := by
  have hS := hL.toSequential
  refine hS.bind (runPart_keeps hS h 0) fun name => ?_
  refine hS.bind (runPart_keeps hS h 1) fun d => ?_
  refine hS.bind (hS.lift _) fun name m => ?_
  refine Spell.Ends.changeable_bind (hS.failed m) fun e hfind hopen => ?_
  refine Spell.Ends.lift_bind (hS.failed m) fun v _ => ?_
  exact hL.modify _ (hS.done m) hfind hopen

theorem sealMeaning_keeps : (sealMeaning run parts).Keeps L := by
  have hS := hL.toSequential
  refine hS.bind (runKey_keeps hS h 1) fun name m => ?_
  refine Spell.Ends.changeable_bind (hS.failed m) fun e hfind hopen => ?_
  exact hL.modify _ (hS.done m) hfind hopen

theorem stepMeaning_keeps : (stepMeaning run parts).Keeps L := by
  have hS := hL.toSequential
  refine hS.bind (runKey_keeps hS h 0) fun name m => ?_
  -- the rune is open in `m`, and changed after the operator has been evaluated
  refine Spell.Ends.changeable_bind (hS.failed m) fun e hfind hopen => ?_
  refine Spell.Ends.bind (runPart_keeps hS h 1 m) fun op m₁ _ hm₁ => ?_
  have hfail : L m .failed m₁ := hS.trans hm₁ (hS.failed m₁)
  refine Spell.Ends.known_bind hfail fun e₁ _ => ?_
  refine Spell.Ends.lift_bind hfail fun isNumber _ => ?_
  dsimp only
  split
  · exact Spell.Ends.lift_bind hfail fun s _ => hfail
  · refine Spell.Ends.lift_bind hfail fun op _ => ?_
    split
    · exact hfail
    · refine Spell.Ends.lift_bind hfail fun d _ => ?_
      refine Spell.Ends.lift_bind hfail fun v _ => ?_
      exact hL.modify _ hm₁ hfind hopen

theorem compoundMeaning_keeps : (compoundMeaning run parts).Keeps L := by
  have hS := hL.toSequential
  refine hS.bind (runKey_keeps hS h 0) fun name m => ?_
  -- the rune is open in `m`, and changed after the other operand has been evaluated
  refine Spell.Ends.changeable_bind (hS.failed m) fun e hfind hopen => ?_
  refine Spell.Ends.bind (runPart_keeps hS h 1 m) fun op m₁ _ hm₁ => ?_
  refine Spell.Ends.bind (hS.ends hm₁ (runPart_keeps hS h 2)) fun other m₂ _ hm₂ => ?_
  have hfail : L m .failed m₂ := hS.trans hm₂ (hS.failed m₂)
  refine Spell.Ends.known_bind hfail fun e₂ _ => ?_
  refine Spell.Ends.lift_bind hfail fun isNumber _ => ?_
  refine Spell.Ends.lift_bind hfail fun kind _ => ?_
  dsimp only
  split
  · exact Spell.Ends.lift_bind hfail fun s _ => hfail
  · refine Spell.Ends.lift_bind hfail fun op _ => ?_
    split
    · exact hfail
    · refine Spell.Ends.lift_bind hfail fun a _ => ?_
      refine Spell.Ends.lift_bind hfail fun b _ => ?_
      refine Spell.Ends.lift_bind hfail fun v _ => ?_
      exact hL.modify _ hm₂ hfind hopen

/-- **A tame form keeps whatever its parts keep**, if the law allows for runes to be written. -/
theorem Form.Tame.meaning_keeps {f : Form} (hf : f.Tame) (fuel : Nat) :
    (f.meaning fuel run parts).Keeps L := by
  rcases hf with hplain | hrune
  · exact Form.meaning_keeps_of_isPlain hL.toSequential h fuel hplain
  · simp only [List.mem_cons, List.not_mem_nil, or_false] at hrune
    rcases hrune with rfl | rfl | rfl | rfl | rfl | rfl
    · exact declareMeaning_keeps hL h false 1
    · exact declareMeaning_keeps hL h true 2
    · exact assignMeaning_keeps hL h
    · exact sealMeaning_keeps hL h
    · exact stepMeaning_keeps hL h
    · exact compoundMeaning_keeps hL h

end Tame

/-! ## Turns of a cycle -/

/-- What a cycle makes of the way in which its body ended. -/
def Outcome.caught : Outcome → Outcome
  | shattered | persisted => done
  | o => o

/-- An outcome that is caught as no failure was none. -/
theorem Outcome.ne_failed_of_caught {o : Outcome} (h : o.caught ≠ .failed) : o ≠ .failed := by
  rintro rfl
  exact h rfl

/-- A turn ends as its body does, with the ways to leave a cycle caught. -/
theorem goesOn_ends {P : Outcome → Machine → Prop} {body : Spell Datum} {m : Machine}
    (h : body.Ends (fun o m => P o.caught m) m) : (goesOn body).Ends P m := by
  unfold Spell.Ends at h ⊢
  rw [goesOn, Spell.bind_apply, Spell.bind, Spell.attempt]
  rcases hbody : body m with ⟨e, m'⟩
  rw [hbody] at h
  cases e with
  | done d => exact h
  | proclaimed d => exact h
  | shattered => exact h
  | persisted => exact h
  | failed f => exact h
  | exhausted => exact h

/-- The body of a cycle may keep a law of its own, as long as it is the cycle's law once the cycle
has caught what concerns it. -/
theorem goesOn_keeps {L L' : Law} {body : Spell Datum}
    (hcatch : ∀ {m o m'}, L' m o m' → L m o.caught m') (hbody : body.Keeps L') :
    (goesOn body).Keeps L :=
  fun m => goesOn_ends (hcatch (hbody m))

section Turns

variable {L : Law} (hL : L.Sequential) {body : Spell Datum} (hbody : (goesOn body).Keeps L)
include hL hbody

theorem endlessTurns_keeps (fuel : Nat) : (endlessTurns body fuel).Keeps L := by
  induction fuel with
  | zero => exact hL.outOfFuel
  | succ fuel ih =>
      refine hL.bind hbody fun again => ?_
      split
      · exact ih
      · exact hL.pure _

/-- A cycle with a condition keeps the law if its condition and its body do, by induction on the
fuel. -/
theorem lestTurns_keeps {condition : Spell Datum} (hcondition : condition.Keeps L) (fuel : Nat) :
    (lestTurns condition body fuel).Keeps L := by
  induction fuel with
  | zero => exact hL.outOfFuel
  | succ fuel ih =>
      refine hL.bind hcondition fun d => ?_
      refine hL.bind (hL.lift _) fun isOver => ?_
      split
      · refine hL.bind hbody fun again => ?_
        split
        · exact ih
        · exact hL.pure _
      · exact hL.pure _

variable {m₀ : Machine} {name : String}
  (hturn : ∀ m g, L m₀ .done m → L m₀ .done (m.mapScope (·.modify g name)))
include hturn

/-- The turns of a range, at the end of a run from `m₀` that allows the rune to be stepped. -/
theorem rangeTurns_ends (stop step : Value) (fuel : Nat) :
    ∀ m, L m₀ .done m → (rangeTurns body name stop step fuel).Ends (L m₀) m := by
  induction fuel with
  | zero => exact fun m hm => hL.ends hm hL.outOfFuel
  | succ fuel ih =>
      intro m hm
      have hfail : ∀ m, L m₀ .done m → L m₀ .failed m := fun m hm => hL.trans hm (hL.failed m)
      refine Spell.Ends.known_bind (hfail m hm) fun e _ => ?_
      refine Spell.Ends.lift_bind (hfail m hm) fun isWithin _ => ?_
      split
      · refine Spell.Ends.bind (hL.ends hm hbody) fun again m₁ _ hm₁ => ?_
        split
        · refine Spell.Ends.bind ?_ fun _ m₂ _ hm₂ => ih m₂ hm₂
          -- the past is noted, and the step may then still fail
          refine Spell.Ends.known_bind (hfail m₁ hm₁) fun e₁ _ => ?_
          have hpast := hturn m₁ (fun e => { e with past := e.value }) hm₁
          refine Spell.Ends.change_bind ?_
          refine Spell.Ends.lift_bind (hfail _ hpast) fun v _ => ?_
          exact hturn _ _ hpast
        · exact hm₁
      · exact hm

/-- A cycle over a text keeps the law from the machine where it began, by induction on the
characters. -/
theorem eachTurn_ends (cs : List Char) :
    ∀ m, L m₀ .done m → (eachTurn body name cs).Ends (L m₀) m := by
  induction cs with
  | nil => exact fun m hm => hm
  | cons c cs ih =>
      intro m hm
      refine Spell.Ends.known_bind (hL.trans hm (hL.failed m)) fun e _ => ?_
      refine Spell.Ends.change_bind ?_
      refine Spell.Ends.bind (hL.ends (hturn m _ hm) hbody) fun again m₁ _ hm₁ => ?_
      split
      · exact ih m₁ hm₁
      · exact hm₁

end Turns

/-! ## Cycles -/

/-- The number of the part that is the body of a cycle. -/
def Form.bodyIndex? : Form → Option Nat
  | .rangeCycle => some 2
  | .lestCycle | .endlessCycle => some 3
  | .eachCycle => some 4
  | _ => none

theorem Form.Tame.bodyIndex?_eq {f : Form} (h : f.Tame) : f.bodyIndex? = none := by
  cases f with
  | rangeCycle | lestCycle | endlessCycle | eachCycle => exact absurd h (by decide)
  | _ => rfl

/-- The forms fall into the tame ones, the cycles and four that every law treats by itself. -/
theorem Form.tame_or (f : Form) : f.Tame ∨ (∃ n, f.bodyIndex? = some n) ∨ f = .dispel ∨
    f = .incantation ∨ f = .proclaim ∨ f = .cast := by
  cases f with
  | rangeCycle | lestCycle | endlessCycle | eachCycle => exact .inr (.inl ⟨_, rfl⟩)
  | dispel | incantation | proclaim | cast => exact .inr (.inr (by decide))
  | _ => exact .inl (by decide)

/-- The law lets a cycle that starts from `m` have a rune of this name: the rune is written, stepped
any number of times and perhaps dispelled, and nothing of this asks whether it is sealed. -/
structure Law.LetsCycle (L : Law) (m : Machine) (name : String) (e : Entry) : Prop where
  write : L m .done (m.mapScope (·.write name e))
  turn : ∀ m' g, L (m.mapScope (·.write name e)) .done m' →
    L (m.mapScope (·.write name e)) .done (m'.mapScope (·.modify g name))
  dispel : ∀ m', L (m.mapScope (·.write name e)) .done m' →
    L (m.mapScope (·.write name e)) .done (m'.mapScope (·.dispel name))

section Cycles

variable {L : Law} (hL : L.Sequential) {run : Run} {parts : List Tree} (fuel n : Nat)
  (hheader : ∀ i ≠ n, ∀ t, parts[i]? = some t → (run t).Keeps L)
  (hbody : ∀ t, parts[n]? = some t → (goesOn (run t)).Keeps L)
include hL hheader hbody

/-- A cycle over a range keeps the law if the law lets its rune cycle. -/
theorem rangeCycleMeaning_keeps (hn : n = 2)
    (hrune : ∀ m₀ d m r, runPart run parts 1 m₀ = (.done d, m) → Range.ofDatum d = .ok r →
      ∀ e, e.isSealed = false → L.LetsCycle m r.name e) :
    (rangeCycleMeaning fuel run parts).Keeps L := by
  subst hn
  intro m₀
  refine Spell.Ends.bind (runPart_keeps_at hL (hheader 1 (by decide)) m₀) fun d m hd hm => ?_
  refine Spell.Ends.lift_bind (hL.trans hm (hL.failed m)) fun r hr => ?_
  have hcycle := hrune m₀ d m r hd hr ⟨some r.start, some r.kind, false, none⟩ rfl
  refine Spell.Ends.change_bind ?_
  -- the turns are judged from where the rune of the cycle was written
  refine hL.trans (hL.trans hm hcycle.write) ?_
  refine part_bind_ends (hL.failed _) fun block hblock => ?_
  refine Spell.Ends.bind (rangeTurns_ends hL (hbody block hblock) hcycle.turn r.stop r.step fuel _
    (hL.done _)) fun _ m₁ _ hm₁ => ?_
  refine Spell.Ends.known_bind (hL.trans hm₁ (hL.failed m₁)) fun _ _ => ?_
  exact hcycle.dispel m₁ hm₁

/-- A cycle over a text keeps the law if the law lets its rune cycle. -/
theorem eachCycleMeaning_keeps (hn : n = 4)
    (hrune : ∀ m name, m.scope.find? name = none →
      ∀ e, e.isSealed = false → L.LetsCycle m name e) :
    (eachCycleMeaning run parts).Keeps L := by
  subst hn
  refine hL.bind (runPart_keeps_at hL (hheader 1 (by decide))) fun name => ?_
  refine hL.bind (runPart_keeps_at hL (hheader 3 (by decide))) fun d => ?_
  refine part_bind_keeps hL fun block hblock => ?_
  refine hL.bind (hL.lift _) fun name m => ?_
  refine Spell.Ends.look_bind ?_
  refine Spell.Ends.check (hL.failed m) fun hfree => ?_
  have hrune := hrune m name (Option.not_isSome_iff_eq_none.mp hfree)
  refine Spell.Ends.lift_bind (hL.failed m) fun length _ => ?_
  dsimp only
  split
  · exact hL.done m
  · refine Spell.Ends.lift_bind (hL.failed m) fun first _ => ?_
    refine Spell.Ends.lift_bind (hL.failed m) fun kind _ => ?_
    have hcycle := hrune ⟨none, some kind, false, none⟩ rfl
    refine Spell.Ends.change_bind ?_
    refine hL.trans hcycle.write ?_
    split
    · exact Spell.Ends.bind (eachTurn_ends hL (hbody block hblock) hcycle.turn _ _ (hL.done _))
        fun _ m₁ _ hm₁ => hm₁
    · exact hL.done _

theorem lestCycleMeaning_keeps (hn : n = 3) : (lestCycleMeaning fuel run parts).Keeps L := by
  subst hn
  refine part_bind_keeps hL fun block hblock => ?_
  have hcondition : (runPart run parts 2).Keeps L :=
    runPart_keeps_at hL (hheader 2 (by decide))
  exact hL.bind (lestTurns_keeps hL (hbody block hblock) hcondition fuel) fun _ => hL.pure _

omit hheader in
theorem endlessCycleMeaning_keeps (hn : n = 3) :
    (endlessCycleMeaning fuel run parts).Keeps L := by
  subst hn
  refine part_bind_keeps hL fun block hblock => ?_
  exact hL.bind (endlessTurns_keeps hL (hbody block hblock) fuel) fun _ => hL.pure _

/-- **A cycle keeps what its header keeps and what its body keeps once the cycle has caught what
concerns it**, if the law lets it have its rune. -/
theorem Form.meaning_keeps_of_cycle {f : Form} (hf : f.bodyIndex? = some n)
    (hrange : f = .rangeCycle → ∀ m₀ d m r, runPart run parts 1 m₀ = (.done d, m) →
      Range.ofDatum d = .ok r → ∀ e, e.isSealed = false → L.LetsCycle m r.name e)
    (heach : ∀ m name, m.scope.find? name = none →
      ∀ e, e.isSealed = false → L.LetsCycle m name e) :
    (f.meaning fuel run parts).Keeps L := by
  cases f with
  | rangeCycle =>
      have hn : n = 2 := (Option.some.inj hf).symm
      exact rangeCycleMeaning_keeps hL fuel n hheader hbody hn (hrange rfl)
  | eachCycle =>
      have hn : n = 4 := (Option.some.inj hf).symm
      exact eachCycleMeaning_keeps hL n hheader hbody hn heach
  | lestCycle =>
      have hn : n = 3 := (Option.some.inj hf).symm
      exact lestCycleMeaning_keeps hL fuel n hheader hbody hn
  | endlessCycle =>
      have hn : n = 3 := (Option.some.inj hf).symm
      exact endlessCycleMeaning_keeps hL fuel n hbody hn
  | _ => cases hf

end Cycles

/-! ## Laws that do not mind the running frame -/

/-- A law that lets a spell write and dispel in the running frame as it likes. -/
structure Law.Local (L : Law) : Prop extends Law.Sequential L where
  write : ∀ (m : Machine) (name : String) (e : Entry), L m .done (m.mapScope (·.write name e))
  dispel : ∀ (m : Machine) (name : String), L m .done (m.mapScope (·.dispel name))
  modify : ∀ {m₀ m : Machine} {name : String} {e : Entry} (g : Entry → Entry), L m₀ .done m →
    m₀.scope.find? name = some e → e.isSealed = false → L m₀ .done (m.mapScope (·.modify g name))
  turn : ∀ {m₀ m : Machine} {name : String} {e : Entry} (g : Entry → Entry),
    L (m₀.mapScope (·.write name e)) .done m →
    L (m₀.mapScope (·.write name e)) .done (m.mapScope (·.modify g name))

namespace Law.Local

variable {L : Law} (hL : L.Local)
include hL

theorem runic : L.Runic where
  toSequential := hL.toSequential
  write := fun {_ m name} e hm _ => hL.trans hm (hL.write m name e)
  modify := fun g hm hfind hopen => hL.modify g hm hfind hopen

/-- A law that lets runes be written and dispelled lets each rune cycle. -/
theorem letsCycle (m : Machine) (name : String) (e : Entry) : L.LetsCycle m name e where
  write := hL.write m name e
  turn _ g hm := hL.turn g hm
  dispel m' hm := hL.trans hm (hL.dispel m' name)

theorem dispelMeaning_keeps {run : Run} {parts : List Tree} (h : ∀ t ∈ parts, (run t).Keeps L) :
    (dispelMeaning run parts).Keeps L := by
  have hS := hL.toSequential
  refine hS.bind (runKey_keeps hS h 1) fun name => ?_
  refine hS.bind (hS.written name) fun _ => ?_
  exact hS.bind (fun m => hL.dispel m name) fun _ => hS.pure _

/-- Each cycle keeps the law if its header and its body do. -/
theorem cycle_keeps {run : Run} {parts : List Tree} {f : Form} {n : Nat} (fuel : Nat)
    (hf : f.bodyIndex? = some n) (hheader : ∀ i ≠ n, ∀ t, parts[i]? = some t → (run t).Keeps L)
    (hbody : ∀ t, parts[n]? = some t → (goesOn (run t)).Keeps L) :
    (f.meaning fuel run parts).Keeps L :=
  Form.meaning_keeps_of_cycle hL.toSequential fuel n hheader hbody hf
    (fun _ _ _ m r _ _ e _ => hL.letsCycle m r.name e) (fun m name _ e _ => hL.letsCycle m name e)

end Law.Local

end Spellbook
