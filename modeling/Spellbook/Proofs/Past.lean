import Spellbook.Proofs.Scope
import Spellbook.Proofs.Seals

/-!
# The past of a rune

A rune can be asked for its value before the last one. What it remembers depends on how its value
was replaced: an assignment remembers the old value if the kind that was noted for it is that of the
new value, a turn of a cycle over a range always remembers it, and a step by one or by a calculation
leaves the past as it was (`past_after_change`).
-/

namespace Spellbook

/-! ### Results of short spells -/

namespace Spell

variable {α β : Type} {Q : β → Machine → Prop} {m : Machine} {name : String}

theorem Gives.lift_bind {x : Fallible α} {f : α → Spell β} (hf : ∀ a, x = .ok a → (f a).Gives Q m) :
    ((liftM x : Spell α) >>= f).Gives Q m := by
  refine Gives.bind fun a m' h => ?_
  obtain ⟨ha, rfl⟩ := eq_of_lift_done h
  exact hf a ha

/-- What goes on with a known rune gives the property for the entry that is found. -/
theorem Gives.known_bind {k : Entry → Spell β}
    (hk : ∀ e, m.scope.find? name = some e → (k e).Gives Q m) : (known name >>= k).Gives Q m := by
  refine Gives.bind fun e m' h => ?_
  rw [known_apply] at h
  split at h
  · rename_i hfind
    cases h
    exact hk e hfind
  · cases h

theorem Gives.changeable_bind {k : Entry → Spell β}
    (hk : ∀ e, m.scope.find? name = some e →
      (k e).Gives Q m) : (changeable name >>= k).Gives Q m := by
  refine Gives.bind fun e m' h => ?_
  rw [changeable_apply] at h
  split at h
  · rename_i hfind
    split at h
    · cases h
    · cases h
      exact hk e hfind
  · cases h

end Spell

theorem Scope.find?_modify_of_some {s : Scope} {name : String} {e : Entry} (g : Entry → Entry)
    (h : s.find? name = some e) : (s.modify g name).find? name = some (g e) := by
  rw [Scope.find?_modify_self, h, Option.map_some]

/-- A name evaluates to itself and changes nothing. -/
theorem named_bind_gives {α : Type} {x : String} {n : Nat} {m : Machine} {k : Datum → Spell α}
    {Q : α → Machine → Prop} (hk : (k (.word x)).Gives Q m) :
    ((Tree.named x).meaning n >>= k).Gives Q m := by
  refine Spell.Gives.bind fun d m' h => ?_
  match n with
  | 0 => cases h
  | 1 => cases h
  | n + 2 =>
    have hword : (liftM (nameWord x) >>= fun d => liftM d.text >>= fun s =>
        pure (.word s) : Spell Datum) m =
      (.done d, m') := h
    obtain ⟨d₁, m₁, hword, h⟩ := Spell.exists_of_bind_done hword
    obtain ⟨hd₁, rfl⟩ := Spell.eq_of_lift_done hword
    obtain rfl := nameWord_eq hd₁
    cases h
    exact hk

/-- A name gives itself and leaves the machine alone. -/
theorem runKey_named_gives {x : String} {n : Nat} {m : Machine} (ts : List Tree) :
    (runKey (Tree.meaning n) (.named x :: ts) 0).Gives (fun name m₁ => name = x ∧ m₁ = m) m :=
  named_bind_gives fun name m₁ h => by cases h; exact ⟨rfl, rfl⟩

/-- An operator evaluates to itself and changes nothing. -/
theorem operator_bind_gives {t : Terminal} {op : String} {n : Nat} {m : Machine}
    {k : Datum → Spell Datum} {Q : Datum → Machine → Prop} (ht : t.use = .ownText)
    (hk : (k (.word op)).Gives Q m) :
    ((Tree.leaf t op).meaning n >>= k).Gives Q m := by
  refine Spell.Gives.bind fun d m' h => ?_
  cases n with
  | zero => cases h
  | succ n =>
    rw [Tree.meaning, Tree.meaningWith, tokenMeaning, ht] at h
    cases h
    exact hk

/-! ### The ways to replace a value -/

/-- The ways to replace the value of a rune: an assignment, a step by one, a step by a calculation,
and a turn of a cycle over a range. -/
inductive Change where
  | assign (value : Tree)
  | step (op : String)
  | compound (op : String) (value : Tree)
  | turn (stride : Value)

namespace Change

variable {x : String} {n : Nat} {m : Machine}

/-- What is done to the rune `x`. -/
def spell (n : Nat) (x : String) : Change → Spell Datum
  | assign value => (Tree.form .assign [.named x, value]).meaning (n + 1)
  | step op => (Tree.form .step [.named x, .leaf .stepOp op]).meaning (n + 1)
  | compound op value =>
    (Tree.form .compound [.named x, .leaf .compoundOp op, value]).meaning (n + 1)
  | turn stride => do
    stepRange x stride
    return .nothing

/-- What is evaluated before the value is replaced. -/
def operand (n : Nat) : Change → Spell Datum
  | assign value => value.meaning n
  | compound _ value => value.meaning n
  | step _ => pure .nothing
  | turn _ => pure .nothing

/-- The past of a rune whose entry `old` was replaced by `new`. -/
def past (old new : Entry) : Change → Option Value
  | assign _ => if old.kind = new.value.map Value.kind then old.value else none
  | step _ => old.past
  | compound _ _ => old.past
  | turn _ => old.value

/-- After the change the rune has a value, and the past that `past` says, seen from the machine `m₁`
in which the value was replaced. -/
def Noted (c : Change) (n : Nat) (x : String) (m m' : Machine) : Prop :=
  ∃ d m₁ old new, c.operand n m = (.done d, m₁) ∧ m₁.scope.find? x = some old ∧
    m'.scope.find? x = some new ∧ new.value.isSome = true ∧ new.past = c.past old new

/-- An assignment notes the value before. -/
theorem assign_gives (value : Tree) :
    ((assign value).spell n x).Gives (fun _ m' => (assign value).Noted n x m m') m := by
  refine named_bind_gives ?_
  refine Spell.Gives.bind fun d m₁ hd => ?_
  refine Spell.Gives.lift_bind fun name hname => ?_
  cases hname
  refine Spell.Gives.changeable_bind fun old hold => ?_
  refine Spell.Gives.lift_bind fun v _ => ?_
  intro b m' h
  cases h
  exact ⟨d, m₁, old, _, hd, hold, Scope.find?_modify_of_some _ hold, rfl, rfl⟩

/-- A step notes the value before. -/
theorem step_gives (op : String) :
    ((step op).spell n x).Gives (fun _ m' => (step op).Noted n x m m') m := by
  refine Spell.Gives.bind fun name m₁ hname => ?_
  obtain ⟨rfl, rfl⟩ := runKey_named_gives _ name m₁ hname
  refine Spell.Gives.changeable_bind fun _ _ => ?_
  refine operator_bind_gives rfl ?_
  refine Spell.Gives.known_bind fun old hold => ?_
  refine Spell.Gives.lift_bind fun isNumber _ => ?_
  dsimp only
  split
  · exact Spell.Gives.lift_bind fun _ _ => nofun
  refine Spell.Gives.lift_bind fun op _ => ?_
  split
  · exact nofun
  refine Spell.Gives.lift_bind fun d _ => ?_
  refine Spell.Gives.lift_bind fun v _ => ?_
  intro b m' h
  cases h
  exact ⟨_, m₁, old, _, rfl, hold, Scope.find?_modify_of_some _ hold, rfl, rfl⟩

/-- A compound assignment notes the value before. -/
theorem compound_gives (op : String) (value : Tree) :
    ((compound op value).spell n x).Gives (fun _ m' => (compound op value).Noted n x m m') m := by
  refine Spell.Gives.bind fun name m₁ hname => ?_
  obtain ⟨rfl, rfl⟩ := runKey_named_gives _ name m₁ hname
  refine Spell.Gives.changeable_bind fun _ _ => ?_
  refine operator_bind_gives rfl ?_
  -- the old value is looked at after the operand has been evaluated
  refine Spell.Gives.bind fun d m₂ hd => ?_
  refine Spell.Gives.known_bind fun old hold => ?_
  refine Spell.Gives.lift_bind fun isNumber _ => ?_
  refine Spell.Gives.lift_bind fun kind _ => ?_
  dsimp only
  split
  · exact Spell.Gives.lift_bind fun _ _ => nofun
  refine Spell.Gives.lift_bind fun op _ => ?_
  split
  · exact nofun
  refine Spell.Gives.lift_bind fun a _ => ?_
  refine Spell.Gives.lift_bind fun b _ => ?_
  refine Spell.Gives.lift_bind fun v _ => ?_
  intro b m' h
  cases h
  exact ⟨d, m₂, old, _, hd, hold, Scope.find?_modify_of_some _ hold, rfl, rfl⟩

/-- A turn of a cycle notes the value before. -/
theorem turn_gives (stride : Value) :
    ((turn stride).spell n x).Gives (fun _ m' => (turn stride).Noted n x m m') m := by
  have hstep : (stepRange x stride).Gives (fun _ m' => (turn stride).Noted n x m m') m := by
    refine Spell.Gives.known_bind fun old hold => ?_
    refine Spell.Gives.bind fun _ m₁ hm₁ => ?_
    cases hm₁
    refine Spell.Gives.lift_bind fun v _ => ?_
    intro b m' h
    cases h
    have hnoted := Scope.find?_modify_of_some (fun e => { e with past := e.value }) hold
    exact ⟨_, m, old, _, rfl, hold, Scope.find?_modify_of_some _ hnoted, rfl, rfl⟩
  refine Spell.Gives.bind fun _ m₁ hm₁ => ?_
  intro b m' h
  cases h
  exact hstep _ _ hm₁

end Change

/-- **What a rune remembers.** However the value of a rune is replaced, the past that it then has is
the one that `Change.past` says. -/
theorem past_after_change (c : Change) {x : String} {n : Nat} {m m' : Machine} {d : Datum}
    (h : c.spell n x m = (.done d, m')) : c.Noted n x m m' := by
  cases c with
  | assign value => exact Change.assign_gives value d m' h
  | step op => exact Change.step_gives op d m' h
  | compound op value => exact Change.compound_gives op value d m' h
  | turn stride => exact Change.turn_gives stride d m' h

/-- The machine with one rune, which has been changed from nought to one. -/
def changedOnce : Machine :=
  { scope := [{ own := [("x", ⟨some (.int 1), some .int, false, some (.int 0)⟩)] }] }

theorem past_after_change_compound :
    ∃ m', (Change.compound "+=" (.leaf .whole "2")).spell 2 "x" changedOnce = (.done .nothing, m') ∧
      (Change.compound "+=" (.leaf .whole "2")).Noted 2 "x" changedOnce m' :=
  ⟨_, rfl, past_after_change _ rfl⟩

/-- A step does not remember the value that it replaces, even though its kind stays the same. -/
theorem step_forgets_past :
    (Change.step "++").spell 2 "x" changedOnce = (.done .nothing,
      { changedOnce with
        scope := [{ own := [("x", ⟨some (.int 2), some .int, false, some (.int 0)⟩)] }] }) :=
  rfl

end Spellbook
