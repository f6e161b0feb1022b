import Spellbook.Proofs.Exits
import Spellbook.Proofs.Incantation

/-!
# More fuel

A run that comes to an ending within its fuel comes to the same ending, in the same machine, with
more fuel (`Tree.meaning_of_le`). Fuel is handed down to the parts of a node, so the induction is
over the fuel, and what it needs of nodes is what they do for any ways out: to be out of fuel is
one.
-/

namespace Spellbook

def Exits.outOfFuel : Exits where
  proclaimed _ _ := False
  failed _ _ := False
  exhausted _ := True

namespace Exits

theorem outOfFuel_holds {α : Type} {r : Ending α × Machine} :
    outOfFuel.Holds r ↔ r.1.outcome = .exhausted := by
  obtain ⟨e, m⟩ := r
  cases e with
  | exhausted => exact ⟨fun _ => rfl, fun _ => trivial⟩
  | done | proclaimed | shattered | persisted | failed => exact ⟨False.elim, nofun⟩

/-- A body that is out of fuel leaves none for its cast. -/
theorem outOfFuel_throughCasts : outOfFuel.ThroughCasts := by
  intro body depth m h
  rw [outOfFuel_holds] at h ⊢
  rw [castBody_apply, Ending.outcome_returned, h]
  rfl

end Exits

namespace Spell

variable {α β : Type} {x y : Spell α}

/-- Wherever `x` comes to an ending before it runs out of fuel, `y` comes to the same. -/
def Outlasts (y x : Spell α) : Prop := ∀ m, (x m).1.outcome ≠ .exhausted → y m = x m

theorem outlasts_iff : y.Outlasts x ↔ y.AgreesUnless .outOfFuel x :=
  forall_congr' fun _ => imp_congr (not_congr Exits.outOfFuel_holds.symm) Iff.rfl

namespace Outlasts

theorem refl (x : Spell α) : x.Outlasts x := fun _ _ => rfl

/-- What follows need not be looked at if it is the same. -/
theorem andThen (h : y.Outlasts x) (f : α → Spell β) : (y >>= f).Outlasts (x >>= f) :=
  outlasts_iff.mpr ((outlasts_iff.mp h).andThen f)

end Outlasts

end Spell

theorem lestTurns_outlasts {condition condition' body body' : Spell Datum}
    (hbody : body'.Outlasts body) {fuel fuel' : Nat} (hfuel : fuel ≤ fuel')
    (hcondition : condition'.Outlasts condition) :
    (lestTurns condition' body' fuel').Outlasts (lestTurns condition body fuel) :=
  Spell.outlasts_iff.mpr
    (lestTurns_agrees (Spell.outlasts_iff.mp hbody) (.inr ⟨hfuel, fun _ => trivial⟩)
    (Spell.outlasts_iff.mp hcondition))

/-! ### Whole runs -/

theorem Tree.meaning_agrees {n k : Nat} (hk : n ≤ k) (t : Tree) :
    (t.meaning k).AgreesUnless .outOfFuel (t.meaning n) := by
  induction n generalizing k t with
  | zero => exact .outOfFuel (fun _ => trivial) _
  | succ n ih =>
    obtain ⟨k, rfl⟩ : ∃ k', k = k' + 1 := ⟨k - 1, by omega⟩
    have hle : n ≤ k := Nat.le_of_succ_le_succ hk
    cases t with
    | absent => exact .refl _
    | token mark s => cases mark <;> exact .refl _
    | node label parts =>
      cases label with
      | form f =>
        exact Form.meaning_agrees (fun t => ih hle t) (.inr ⟨hle, fun _ => trivial⟩)
          (fun _ => Exits.outOfFuel_throughCasts) parts
      | other name => exact .refl _

theorem Tree.meaning_outlasts {n k : Nat} (hk : n ≤ k) (t : Tree) :
    (t.meaning k).Outlasts (t.meaning n) :=
  Spell.outlasts_iff.mpr (Tree.meaning_agrees hk t)

/-- **More fuel keeps an ending.** -/
theorem Tree.meaning_of_le {n k : Nat} {t : Tree} {m m' : Machine} {e : Ending Datum} (hk : n ≤ k)
    (he : e.outcome ≠ .exhausted) (h : t.meaning n m = (e, m')) : t.meaning k m = (e, m') := by
  rw [Tree.meaning_outlasts hk t m (by rw [h]; exact he), h]

end Spellbook
