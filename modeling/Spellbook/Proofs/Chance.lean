import Spellbook.Proofs.FirstTrue
import Spellbook.Proofs.NumberOrder

/-!
# What is left to chance

`mayhaps` weighs two whole numbers against each other, or takes even chances if none are given,
draws a number and runs its block if that is below the quotient. Chance is part of the machine: the
numbers that will be drawn are given, so what a program does with them is a function of them.

The quotient is the float nearest to it, so a number that is drawn is below it unless it is that
float itself (`IsRounded.lt_iff`). A block for `resolve` is read but never run
(`mayhaps_runs_or_ends`).
-/

namespace Spellbook

def Machine.drawn (m : Machine) : Float := m.draws.headD Spell.evenDraw

def Machine.afterDraw (m : Machine) : Machine := { m with draws := m.draws.tail }

theorem draw_apply (m : Machine) : Spell.draw m = (.done m.drawn, m.afterDraw) := by
  obtain ⟨_, _, _, _, draws⟩ := m
  cases draws <;> rfl

/-- `IsRatio t q`: the part of `mayhaps` in which a ratio can stand gives its block the chance
`q`. -/
inductive IsRatio : Tree → ℚ → Prop
  | even : IsRatio .absent (1 / 2)
  | against {left right : String} {l r : ℤ} (hl : Numeral.readInt left = .ok l)
      (hr : Numeral.readInt right = .ok r) (hleft : 0 ≤ l) (hright : 0 ≤ r) (hsum : 0 < l + r) :
      IsRatio (.form .ratio [.leaf .whole left, .leaf .whole right]) (l / (l + r))

theorem exists_chanceOf {l r : ℤ} (hleft : 0 ≤ l) (hright : 0 ≤ r) (hsum : 0 < l + r) :
    ∃ x c, chanceOf l r = .ok x ∧ Denotes x c ∧ IsRounded (l / (l + r)) c := by
  obtain ⟨a, rfl⟩ := Int.eq_ofNat_of_zero_le hleft
  obtain ⟨b, rfl⟩ := Int.eq_ofNat_of_zero_le hright
  have hpos : 0 < a + b := by omega
  -- The quotient is at most one, so however large the numbers are, it does not overflow.
  have hquotient : (a : ℚ) / (a + b : Nat) ≤ 1 := by
    rw [div_le_one (by exact_mod_cast hpos)]
    exact_mod_cast Nat.le_add_right a b
  have hsmall : (a : ℚ) / (a + b : Nat) < 2 ^ (1000 : ℤ) :=
    hquotient.trans_lt (one_lt_zpow₀ one_lt_two (by decide))
  obtain ⟨c, hdenotes, hrounded⟩ := denotes_nearestFloat false hpos hsmall
  refine ⟨_, c, ?_, hdenotes, by rwa [Nat.cast_add] at hrounded⟩
  have hfloat : floatOfQuotient? (a : ℤ) ((a : ℤ) + b) = some (nearestFloat false a (a + b)) := by
    have hsign : (decide ((a : ℤ) < 0) != decide ((a : ℤ) + b < 0)) = false := by
      rw [decide_eq_false (by omega), decide_eq_false (by omega)]
      rfl
    rw [floatOfQuotient?, hsign, ← Nat.cast_add, Int.natAbs_natCast, Int.natAbs_natCast,
      hdenotes.isInf_eq_false]
    rfl
  rw [chanceOf, if_neg (by omega), hfloat]

/-- What `mayhaps` makes of its ratio. -/
def chanceMeaning (run : Run) (ratio : Tree) : Spell Datum :=
  match ratio with
  | .absent => pure (.bare (.float 0.5))
  | t => run t

theorem IsRatio.exists_float {ratio : Tree} {q : ℚ} (h : IsRatio ratio q) (n : Nat) :
    ∃ x c, (∀ m, chanceMeaning (Tree.meaning (n + 1)) ratio m = (.done (.bare (.float x)), m)) ∧
    Denotes x c ∧
      IsRounded q c := by
  cases h with
  | even => exact ⟨0.5, 1 / 2, fun _ => rfl, denotes_half, (denotes_iff.mp denotes_half).isRounded⟩
  | @against left right l r hl hr hleft hright hsum =>
    obtain ⟨x, c, hchance, hdenotes, hrounded⟩ := exists_chanceOf hleft hright hsum
    refine ⟨x, c, fun m => ?_, hdenotes, hrounded⟩
    have hread {s : String} {k : ℤ}
        (hs : Numeral.readInt s = .ok k) : Value.readInt s (Text.quoted s) = .ok k := by
      rw [Value.readInt, hs]
    show (liftM (Value.readInt left (Text.quoted left)) >>= fun l =>
      liftM (Value.readInt right (Text.quoted right)) >>=
      fun r => liftM (chanceOf l r) >>= fun x => pure (.bare (.float x)) : Spell Datum) m = _
    rw [hread hl, hread hr]
    show (liftM (chanceOf l r) >>= fun x => pure (.bare (.float x)) : Spell Datum) m = _
    rw [hchance]
    rfl

/-- What `mayhaps` does: it looks at its ratio, draws a number, and runs its block if that is
below. -/
theorem meaning_mayhaps (n : Nat) (word ratio block : Tree) (rest : List Tree) (m : Machine) :
    (Tree.form .mayhaps (word :: ratio :: block :: rest)).meaning (n + 1) m =
      (chanceMeaning (Tree.meaning n) ratio >>= fun chance => Spell.draw >>= fun drawn =>
        liftM ((Datum.bare (.float drawn)).compare .less chance) >>= fun isBelow =>
          if isBelow then block.meaning n >>= fun _ =>
            pure .nothing else pure .nothing : Spell Datum) m := by
  cases ratio <;> rfl

theorem Denotes.compare_less {x y : Float} {p q : ℚ} (hx : Denotes x p) (hy : Denotes y q) :
    (Datum.bare (.float x)).compare .less (.bare (.float y)) = .ok (decide (p < q)) := by
  obtain ⟨o, ho, hcompares⟩ := hx.compareFloats hy
  show Except.ok (Comparison.holds .less (Spellbook.compareFloats x y)) = _
  rw [ho]
  congr 1
  cases o with
  | lt =>
    have hlt : p < q := hcompares
    exact (decide_eq_true hlt).symm
  | eq => exact (decide_eq_false (not_lt_of_ge (ge_of_eq hcompares))).symm
  | gt => exact (decide_eq_false (not_lt_of_gt hcompares)).symm

/-- **A block that is left to chance is run or it is not, and nothing is run in its place.** With
the chance `q`, one number is drawn. If it is below `q`, and is not the float that `q` is rounded
to, the block is run, and otherwise that is all, whether there is a block for `resolve` or not. -/
theorem mayhaps_runs_or_ends {ratio : Tree} {q p : ℚ} {m : Machine} (hratio : IsRatio ratio q)
    (hp : Denotes m.drawn p) (n : Nat) (word : Tree) (body rest : List Tree) :
    ∃ c, IsRounded q c ∧
      (Tree.form .mayhaps (word :: ratio :: .form .block body :: rest)).meaning (n + 2) m =
        if p < q ∧ p ≠ c then (Tree.form .block body).meaning (n + 1) m.afterDraw
        else (.done .nothing, m.afterDraw) := by
  obtain ⟨x, c, hchance, hx, hrounded⟩ := hratio.exists_float n
  refine ⟨c, hrounded, ?_⟩
  rw [meaning_mayhaps, Spell.bind_of_done (hchance m), Spell.bind_of_done (draw_apply m),
    hp.compare_less hx]
  -- Both are floats by now: to be below the rounded chance is to be below the chance and not to be
  -- what it is rounded to.
  simp only [← hrounded.lt_iff (denotes_iff.mp hp).isRounded]
  by_cases hlt : p < c
  · rw [decide_eq_true hlt, if_pos hlt]
    exact runEach_bind_nothing _ _ _
  · rw [decide_eq_false hlt, if_neg hlt]
    rfl

/-- The tree of `mayhaps (left:right) {body} resolve {resolve}`. -/
def mayhapsResolve (left right : String) (body resolve : List Tree) : Tree :=
  .form .mayhaps [.leaf .mayhaps "mayhaps", .form .ratio [.leaf .whole left, .leaf .whole right],
    .form .block body, .leaf .resolve "resolve", .form .block resolve]

/-- One half is not below a third. -/
theorem mayhaps_runs_or_ends_third :
    IsRatio (.form .ratio [.leaf .whole "1", .leaf .whole "2"]) ((1 : ℤ) / ((1 : ℤ) + (2 : ℤ))) ∧
    Denotes ({} : Machine).drawn (1 / 2) ∧
    ∃ c, IsRounded ((1 : ℤ) / ((1 : ℤ) + (2 : ℤ))) c ∧ (mayhapsResolve "1" "2" [] []).meaning 2 {} =
      if (1 / 2 : ℚ) < (1 : ℤ) / ((1 : ℤ) + (2 : ℤ)) ∧ 1 / 2 ≠ c then
        (Tree.form .block []).meaning 1 ({} : Machine).afterDraw
      else (.done .nothing, ({} : Machine).afterDraw) := by
  have hratio : IsRatio (.form .ratio [.leaf .whole "1", .leaf .whole "2"])
      ((1 : ℤ) / ((1 : ℤ) + (2 : ℤ))) :=
    .against rfl rfl (by decide) (by decide) (by decide)
  have hdrawn : Denotes ({} : Machine).drawn (1 / 2) := denotes_half
  exact ⟨hratio, hdrawn, mayhaps_runs_or_ends hratio hdrawn 0 _ _ _⟩

/-- With chances of nothing to one, the block for `resolve` would reveal something, but nothing is
revealed. And a third of a chance is not enough if the float nearest to a third is drawn, though
that is below a third. -/
theorem resolve_is_not_run :
    (mayhapsResolve "0" "1" [] [revelation (.leaf .truth "Truthsung")]).meaning 5 {} =
      (.done .nothing, {}) ∧
    (Tree.form .block [revelation (.leaf .truth "Truthsung")]).meaning 4 {} =
      (.done .nothing, { output := "Truthsung" }) ∧
    Denotes 0.3333333333333333 (6004799503160661 / 2 ^ 54) ∧
    (6004799503160661 / 2 ^ 54 : ℚ) < 1 / (1 + 2) ∧
    (mayhapsResolve "1" "2" [revelation (.leaf .truth "Truthsung")]
      []).meaning 5 { draws := [0.3333333333333333] } =
      (.done .nothing, {}) :=
  ⟨rfl, rfl, ⟨⟨false, 6004799503160661, -54⟩, rfl, by norm_num [Dyadic.toRat, Dyadic.signed]⟩, by
    norm_num, rfl⟩

end Spellbook
