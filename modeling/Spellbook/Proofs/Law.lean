import Spellbook.Meaning

/-!
# Laws that spells keep

A `Law` relates the machine that a spell starts from, the way in which the spell ends and the
machine that it leaves behind. Most of the language only passes on what its parts do: if the parts
of a node keep a law, so does the node. What a law has to satisfy for this is `Law.Sequential`; it
says nothing of runes, incantations or cycles, so that every theorem about whole runs only has to
look at the handful of spells that concern its own law.

`Spell.Ends` is the same with the starting machine left open. It is the form in which a step in the
middle of a run is judged by where the run began.
-/

namespace Spellbook

/-- The way in which a spell ended, without what it ended with. -/
inductive Outcome where
  | done
  | proclaimed
  | shattered
  | persisted
  | failed
  | exhausted
  deriving DecidableEq, Repr

def Ending.outcome {α : Type} : Ending α → Outcome
  | done _ => .done
  | proclaimed _ => .proclaimed
  | shattered => .shattered
  | persisted => .persisted
  | failed _ => .failed
  | exhausted => .exhausted

/-- Which machines may be left behind, by the machine at the start and the way of the ending. -/
abbrev Law := Machine → Outcome → Machine → Prop

/-- The machine with its runes changed. -/
def Machine.mapScope (f : Scope → Scope) (m : Machine) : Machine := { m with scope := f m.scope }

@[simp] theorem Machine.mapScope_scope (f : Scope → Scope) (m : Machine) :
    (m.mapScope f).scope = f m.scope := rfl

@[simp] theorem Machine.mapScope_book (f : Scope → Scope) (m : Machine) :
    (m.mapScope f).book = m.book := rfl

/-! ## Endings of a spell -/

namespace Spell

variable {α β : Type} {P : Outcome → Machine → Prop}

/-- Started from `m`, the spell ends as `P` says. -/
def Ends (P : Outcome → Machine → Prop) (x : Spell α) (m : Machine) : Prop :=
  P (x m).1.outcome (x m).2

/-- A spell keeps a law if it obeys it from every machine. -/
def Keeps (L : Law) (x : Spell α) : Prop := ∀ m, x.Ends (L m) m

theorem bind_apply (x : Spell α) (f : α → Spell β) (m : Machine) :
    (x >>= f) m = Spell.bind x f m := rfl

theorem look_bind_apply (g : Machine → α) (f : α → Spell β) (m : Machine) :
    (look g >>= f) m = f (g m) m := rfl

/-- A sequence that got past its first spell goes on from there. -/
theorem bind_of_done {x : Spell α} {f : α → Spell β} {m m' : Machine} {a : α}
    (h : x m = (.done a, m')) : (x >>= f) m = f a m' := by
  rw [bind_apply, Spell.bind, h]

/-- A sequence whose first spell fails goes no further. -/
theorem bind_of_failed {x : Spell α} {f : α → Spell β} {m m' : Machine} {e : Fault}
    (h : x m = (.failed e, m')) : (x >>= f) m = (.failed e, m') := by
  rw [bind_apply, Spell.bind, h]

/-- A sequence that came to a result got past its first spell. -/
theorem exists_of_bind_done {x : Spell α} {f : α → Spell β} {m m' : Machine} {b : β}
    (h : (x >>= f) m = (.done b, m')) :
    ∃ a m₁, x m = (.done a, m₁) ∧ f a m₁ = (.done b, m') := by
  rw [bind_apply, Spell.bind] at h
  rcases hx : x m with ⟨e, m₁⟩
  rw [hx] at h
  cases e with
  | done a => exact ⟨a, m₁, rfl, h⟩
  | proclaimed d | shattered | persisted | failed f | exhausted => cases h

/-- A computation that gives a result leaves the machine as it was. -/
theorem eq_of_lift_done {x : Fallible α} {m m' : Machine} {a : α}
    (h : (liftM x : Spell α) m = (.done a, m')) : x = .ok a ∧ m' = m := by
  cases x with
  | error e => cases h
  | ok b =>
      cases h
      exact ⟨rfl, rfl⟩

/-- Chains of spells may be grouped in any way. -/
theorem bind_assoc {γ : Type} (x : Spell α) (f : α → Spell β) (g : β → Spell γ) (m : Machine) :
    ((x >>= f) >>= g) m = (x >>= fun a => f a >>= g) m := by
  rw [bind_apply, Spell.bind, bind_apply, Spell.bind, bind_apply, Spell.bind]
  rcases x m with ⟨e, m'⟩
  cases e with
  | done a => rfl
  | proclaimed d => rfl
  | shattered => rfl
  | persisted => rfl
  | failed f => rfl
  | exhausted => rfl

/-- A sequence does what another does if its first spell does what the other's does. -/
theorem bind_of_eq {x y : Spell α} {f : α → Spell β} {m m' : Machine} (h : x m = y m') :
    (x >>= f) m = (y >>= f) m' := by
  rw [bind_apply, Spell.bind, h]
  rfl

/-- What follows a spell matters only where the spell comes to a result. -/
theorem bind_congr {x : Spell α} {f g : α → Spell β} {m : Machine}
    (h : ∀ a m', x m = (.done a, m') → f a m' = g a m') : (x >>= f) m = (x >>= g) m := by
  rw [bind_apply, Spell.bind, bind_apply, Spell.bind]
  rcases hx : x m with ⟨e, m'⟩
  cases e with
  | done a => exact h a m' hx
  | proclaimed d => rfl
  | shattered => rfl
  | persisted => rfl
  | failed f => rfl
  | exhausted => rfl

/-- The rule for sequences: what follows is only asked about after a result. -/
theorem Ends.bind {x : Spell α} {f : α → Spell β} {m : Machine} (hx : x.Ends P m)
    (hf : ∀ a m', x m = (.done a, m') → P .done m' → (f a).Ends P m') :
    (x >>= f).Ends P m := by
  unfold Ends at hx ⊢
  rw [bind_apply, Spell.bind]
  rcases hxm : x m with ⟨e, m'⟩
  rw [hxm] at hx
  cases e with
  | done a => exact hf a m' hxm hx
  | proclaimed d => exact hx
  | shattered => exact hx
  | persisted => exact hx
  | failed f => exact hx
  | exhausted => exact hx

/-- Looking at the machine neither ends a run nor changes what it has done. -/
theorem Ends.look_bind {g : Machine → α} {f : α → Spell β} {m : Machine}
    (h : (f (g m)).Ends P m) : (look g >>= f).Ends P m := h

/-- After a change, the spell ends as it does from the changed machine. -/
theorem Ends.change_bind {g : Machine → Machine} {f : Unit → Spell β} {m : Machine}
    (h : (f ()).Ends P (g m)) : (change g >>= f).Ends P m := h

/-- A check that fails goes no further. -/
theorem Ends.check {c : Prop} [Decidable c] {e : Fault} {k : α → Spell β} {k' : Spell β}
    {m : Machine} (hfail : P .failed m) (hk : ¬ c → k'.Ends P m) :
    (if c then (fail e : Spell α) >>= k else k').Ends P m := by
  by_cases hc : c
  · rw [if_pos hc]
    exact hfail
  · rw [if_neg hc]
    exact hk hc

/-- What may fail without touching the machine either fails on the spot or goes on. -/
theorem Ends.lift_bind {x : Fallible α} {f : α → Spell β} {m : Machine} (hfail : P .failed m)
    (hf : ∀ a, x = .ok a → (f a).Ends P m) : ((liftM x : Spell α) >>= f).Ends P m := by
  cases x with
  | error e => exact hfail
  | ok a => exact hf a rfl

/-! ## Results of a spell -/

variable {Q : β → Machine → Prop}

/-- Started from `m`, the spell has no result but those that `Q` allows. -/
def Gives (Q : α → Machine → Prop) (x : Spell α) (m : Machine) : Prop :=
  ∀ a m', x m = (.done a, m') → Q a m'

/-- The result of a sequence is that of its last spell. -/
theorem Gives.bind {x : Spell α} {f : α → Spell β} {m : Machine}
    (hf : ∀ a m', x m = (.done a, m') → (f a).Gives Q m') : (x >>= f).Gives Q m := by
  intro b m' h
  obtain ⟨a, m₁, hx, hb⟩ := exists_of_bind_done h
  exact hf a m₁ hx b m' hb

/-- A check that fails the spell leaves the case where it passes. -/
theorem Gives.check {c : Prop} [Decidable c] {e : Fault} {k : α → Spell β} {k' : Spell β}
    {m : Machine} (hk : ¬ c → k'.Gives Q m) :
    (if c then (fail e : Spell α) >>= k else k').Gives Q m := by
  by_cases hc : c
  · rw [if_pos hc]
    exact nofun
  · rw [if_neg hc]
    exact hk hc

end Spell

/-! ## Properties that spells inherit -/

/-- A property of spells that a sequence has if its spells have it, and that all spells have which
do nothing but end, look at a rune, speak, listen or draw. -/
structure Spell.Inherited (P : (α : Type) → Spell α → Prop) : Prop where
  pure : ∀ {α : Type} (a : α), P α (Pure.pure a)
  fail : ∀ {α : Type} (e : Fault), P α (Spell.fail e)
  outOfFuel : ∀ {α : Type}, P α (Spell.finish .exhausted)
  bind : ∀ {α β : Type} {x : Spell α} {f : α → Spell β}, P α x → (∀ a, P β (f a)) → P β (x >>= f)
  find? : ∀ name, P _ (Spell.find? name)
  reveal : ∀ s, P _ (Spell.reveal s)
  listen : P _ Spell.listen
  draw : P _ Spell.draw

namespace Spell.Inherited

variable {α β : Type} {P : (α : Type) → Spell α → Prop} (hP : Spell.Inherited P)
include hP

/-- A computation has the property, as it is a result or a failure. -/
theorem lift (x : Fallible α) : P α (liftM x) := by
  cases x with
  | error e => exact hP.fail e
  | ok a => exact hP.pure a

/-- A check that fails the spell leaves the case where it passes. -/
theorem check {c : Prop} [Decidable c] {e : Fault} {k : α → Spell β} {k' : Spell β} (hk : P _ k') :
    P _ (if c then (Spell.fail e : Spell α) >>= k else k') := by
  split
  · exact hP.fail e
  · exact hk

theorem written (name : String) : P _ (Spell.written name) := by
  refine hP.bind (hP.find? name) fun found => ?_
  cases found with
  | none => exact hP.fail _
  | some e => exact hP.pure e

theorem known (name : String) : P _ (Spell.known name) := by
  refine hP.bind (hP.find? name) fun found => ?_
  cases found with
  | none => exact hP.fail _
  | some e => exact hP.pure e

theorem changeable (name : String) : P _ (Spell.changeable name) := by
  refine hP.bind (hP.written name) fun e => ?_
  split
  · exact hP.fail _
  · exact hP.pure e

end Spell.Inherited

/-! ## Sequential laws -/

/-- A law that may be checked one spell after the other. A spell that fails or runs out of fuel on
the spot obeys it, and so does one that touches neither the runes nor the incantations. -/
structure Law.Sequential (L : Law) : Prop where
  failed : ∀ m, L m .failed m
  exhausted : ∀ m, L m .exhausted m
  speech : ∀ m₀ m₁, m₁.scope = m₀.scope → m₁.book = m₀.book → L m₀ .done m₁
  trans : ∀ {m₀ m₁ m₂ o}, L m₀ .done m₁ → L m₁ o m₂ → L m₀ o m₂

namespace Law.Sequential

variable {α β : Type} {L : Law} (hL : L.Sequential)
include hL

/-- A spell that keeps the law may also end a run that has obeyed it so far. -/
theorem ends {x : Spell α} {m₀ m : Machine} (h : L m₀ .done m) (hx : x.Keeps L) :
    x.Ends (L m₀) m :=
  hL.trans h (hx m)

theorem done (m : Machine) : L m .done m := hL.speech m m rfl rfl

theorem pure (a : α) : (Pure.pure a : Spell α).Keeps L := fun m => hL.done m

theorem fail (e : Fault) : (Spell.fail e : Spell α).Keeps L := fun m => hL.failed m

theorem outOfFuel : (Spell.finish .exhausted : Spell α).Keeps L := fun m => hL.exhausted m

theorem look (g : Machine → α) : (Spell.look g).Keeps L := fun m => hL.done m

/-- Two spells that keep the law keep it one after the other. -/
theorem bind {x : Spell α} {f : α → Spell β} (hx : x.Keeps L) (hf : ∀ a, (f a).Keeps L) :
    (x >>= f).Keeps L := by
  intro m
  refine Spell.Ends.bind (hx m) fun a m' _ h => ?_
  exact hL.ends h (hf a)

/-- A change that touches neither the runes nor the incantations. -/
theorem quietly {g : Machine → Machine} (hs : ∀ m, (g m).scope = m.scope)
    (hb : ∀ m, (g m).book = m.book) : (Spell.change g).Keeps L :=
  fun m => hL.speech m (g m) (hs m) (hb m)

/-! ### Looking at runes -/

theorem find? (name : String) : (Spell.find? name).Keeps L := hL.look _

/-! ### Speech and chance -/

theorem reveal (s : String) : (Spell.reveal s).Keeps L :=
  hL.quietly (fun _ => rfl) (fun _ => rfl)

theorem listen : Spell.listen.Keeps L := by
  refine hL.bind (hL.look _) fun cs => ?_
  cases cs with
  | nil => exact hL.fail _
  | cons c cs =>
      refine hL.bind (hL.quietly (fun _ => rfl) (fun _ => rfl)) fun _ => ?_
      exact hL.pure _

theorem draw : Spell.draw.Keeps L := by
  refine hL.bind (hL.look _) fun ds => ?_
  cases ds with
  | nil => exact hL.pure _
  | cons d ds =>
      refine hL.bind (hL.quietly (fun _ => rfl) (fun _ => rfl)) fun _ => ?_
      exact hL.pure _

/-! ### What follows from these -/

/-- To keep the law is inherited. -/
theorem inherited : Spell.Inherited fun _ x => x.Keeps L where
  pure := hL.pure
  fail := hL.fail
  outOfFuel := hL.outOfFuel
  bind := hL.bind
  find? := hL.find?
  reveal := hL.reveal
  listen := hL.listen
  draw := hL.draw

theorem lift (x : Fallible α) : (liftM x : Spell α).Keeps L := hL.inherited.lift x

theorem written (name : String) : (Spell.written name).Keeps L := hL.inherited.written name

theorem known (name : String) : (Spell.known name).Keeps L := hL.inherited.known name

theorem changeable (name : String) : (Spell.changeable name).Keeps L := hL.inherited.changeable name

end Law.Sequential

end Spellbook
