import Mathlib.Data.Rat.Floor
import Mathlib.Algebra.Order.Field.Power
import Mathlib.Tactic.Linarith
import Mathlib.Tactic.Positivity
import Mathlib.Tactic.Ring
import Spellbook.Value.Arithmetic

/-!
# Rounding

What the whole numbers that a finite float is rounded to have to do with the number that the float
stands for: the ways to round are the floor, the ceiling and the nearest whole number with halves
going to the even neighbour (`Rounding.rounds_rule`), and a fractional part is cut off towards zero
(`Dyadic.cutsOff_truncate`).
-/

namespace Spellbook

/-- A fraction is scaled by a power of two exactly. -/
theorem scaleByTwo_eq (num den : Nat) (e : Int) :
    ((scaleByTwo num den e).1 : ℚ) / (scaleByTwo num den e).2 = num / den * 2 ^ e := by
  unfold scaleByTwo
  split
  case isTrue he =>
    obtain ⟨k, rfl⟩ := Int.eq_ofNat_of_zero_le he
    simp [div_mul_eq_mul_div]
  case isFalse he =>
    obtain ⟨k, hk⟩ := Int.eq_ofNat_of_zero_le (a := -e) (by omega)
    obtain rfl : e = -k := by omega
    simp [div_eq_mul_inv, mul_assoc, mul_comm]

/-! ### Orders -/

theorem two_zpow_log2_le {n : Nat} (hn : 0 < n) : (2 : ℚ) ^ (n.log2 : ℤ) ≤ n := by
  rw [zpow_natCast]
  exact_mod_cast Nat.log2_self_le hn.ne'

theorem lt_two_zpow_log2 (n : Nat) : (n : ℚ) < 2 ^ ((n.log2 : ℤ) + 1) := by
  rw [show ((n.log2 : ℤ) + 1) = ((n.log2 + 1 : Nat) : ℤ) from rfl, zpow_natCast]
  exact_mod_cast Nat.lt_log2_self

/-- The binary order of a fraction is the exponent of the greatest power of two that is not above
it. -/
theorem binaryOrder_spec {num den : Nat} (hnum : 0 < num) (hden : 0 < den) :
    (2 : ℚ) ^ binaryOrder num den ≤ num / den ∧
    (num / den : ℚ) < 2 ^ (binaryOrder num den + 1) := by
  have hden' : (0 : ℚ) < den := by exact_mod_cast hden
  -- the orders of the two parts leave a choice of two
  have hlower : (2 : ℚ) ^ ((num.log2 : ℤ) - den.log2 - 1) ≤ num / den := by
    rw [le_div_iff₀ hden']
    calc (2 : ℚ) ^ ((num.log2 : ℤ) - den.log2 - 1) * den
        ≤ 2 ^ ((num.log2 : ℤ) - den.log2 - 1) * 2 ^ ((den.log2 : ℤ) + 1) := by
          gcongr
          exact (lt_two_zpow_log2 den).le
      _ = 2 ^ (num.log2 : ℤ) := by
          rw [← zpow_add₀ two_ne_zero]
          congr 1
          ring
      _ ≤ num := two_zpow_log2_le hnum
  have hupper : (num / den : ℚ) < 2 ^ ((num.log2 : ℤ) - den.log2 + 1) := by
    rw [div_lt_iff₀ hden']
    calc (num : ℚ) < 2 ^ ((num.log2 : ℤ) + 1) := lt_two_zpow_log2 num
      _ = 2 ^ ((num.log2 : ℤ) - den.log2 + 1) * 2 ^ (den.log2 : ℤ) := by
          rw [← zpow_add₀ two_ne_zero]
          congr 1
          ring
      _ ≤ 2 ^ ((num.log2 : ℤ) - den.log2 + 1) * den := by
          gcongr
          exact two_zpow_log2_le hden
  have hscaled := scaleByTwo_eq num den (-((num.log2 : ℤ) - den.log2))
  have hpos : 0 < (scaleByTwo num den (-((num.log2 : ℤ) - den.log2))).2 := scaleByTwo_pos hden _
  unfold binaryOrder
  dsimp only
  generalize scaleByTwo num den (-((num.log2 : ℤ) - den.log2)) = s at hscaled hpos
  have hs : (0 : ℚ) < s.2 := by exact_mod_cast hpos
  rw [zpow_neg, ← div_eq_mul_inv, eq_div_iff (by positivity)] at hscaled
  split
  case isTrue hle =>
    refine ⟨?_, hupper⟩
    have hone : (1 : ℚ) ≤ s.1 / s.2 := (one_le_div hs).mpr (by exact_mod_cast hle)
    rw [← hscaled]
    exact le_mul_of_one_le_left (by positivity) hone
  case isFalse hlt =>
    refine ⟨hlower, ?_⟩
    have hone : (s.1 : ℚ) / s.2 < 1 := (div_lt_one hs).mpr (by exact_mod_cast Nat.lt_of_not_le hlt)
    rw [← hscaled, sub_add_cancel]
    exact mul_lt_of_lt_one_left (by positivity) hone

/-! ### Finite floats as rational numbers -/

namespace Dyadic

variable (d : Dyadic)

/-- The number as a rational number. -/
def toRat : ℚ := d.signed d.mantissa * 2 ^ d.exponent

theorem fraction_pos : 0 < d.fraction.2 := scaleByTwo_pos Nat.one_pos _

theorem cast_signed (n : Nat) : (d.signed n : ℚ) = if d.negative then -(n : ℚ) else n := by
  unfold signed
  split <;> simp

theorem toRat_eq : d.toRat = (d.signed d.fraction.1 : ℚ) / d.fraction.2 := by
  have hfraction : (d.fraction.1 : ℚ) / d.fraction.2 = d.mantissa * 2 ^ d.exponent := by
    rw [fraction, scaleByTwo_eq]
    simp
  rw [toRat, cast_signed, cast_signed]
  split
  · rw [neg_div, hfraction, neg_mul]
  · exact hfraction.symm

/-- The floor of a float is that of its number. -/
theorem floor_eq : d.floor = ⌊d.toRat⌋ := by
  rw [toRat_eq, Rat.floor_intCast_div_natCast]
  exact Int.fdiv_eq_ediv_of_nonneg _ (Int.natCast_nonneg _)

/-- The ceiling of a float is that of its number. -/
theorem ceil_eq : d.ceil = ⌈d.toRat⌉ := by
  have hneg : -d.toRat = ((-d.signed d.fraction.1 : ℤ) : ℚ) / d.fraction.2 := by
    rw [toRat_eq, Int.cast_neg, neg_div]
  rw [← neg_neg d.toRat, Int.ceil_neg, hneg, Rat.floor_intCast_div_natCast]
  exact congrArg Int.neg (Int.fdiv_eq_ediv_of_nonneg _ (Int.natCast_nonneg _))

end Dyadic

/-! ### Towards zero -/

/-- `CutsOff q z`: the number `q` without its fractional part is `z`. -/
def CutsOff (q : ℚ) (z : ℤ) : Prop := (0 ≤ q → z = ⌊q⌋) ∧ (q ≤ 0 → z = ⌈q⌉)

theorem CutsOff.neg {q : ℚ} {z : ℤ} (h : CutsOff q z) : CutsOff (-q) (-z) := by
  refine ⟨fun hq => ?_, fun hq => ?_⟩
  · rw [Int.floor_neg, h.2 (by linarith)]
  · rw [Int.ceil_neg, h.1 (by linarith)]

/-- The quotient of whole numbers cuts off the fraction. -/
theorem cutsOff_div (n k : Nat) : CutsOff ((n : ℚ) / k) (n / k : Nat) := by
  have hfloor : ⌊(n : ℚ) / k⌋ = (n / k : Nat) := Rat.floor_natCast_div_natCast n k
  have hpos : 0 ≤ (n : ℚ) / k := by positivity
  refine ⟨fun _ => hfloor.symm, fun hq => ?_⟩
  have hzero : (n : ℚ) / k = 0 := le_antisymm hq hpos
  rw [← hfloor, hzero, Int.floor_zero, Int.ceil_zero]

/-- A float is truncated by cutting off its fraction. -/
theorem Dyadic.cutsOff_truncate (d : Dyadic) : CutsOff d.toRat d.truncate := by
  have hcut := cutsOff_div d.fraction.1 d.fraction.2
  rw [toRat_eq, cast_signed]
  show CutsOff _ (d.signed (d.fraction.1 / d.fraction.2))
  unfold signed
  split
  · rw [neg_div]
    exact hcut.neg
  · exact hcut

/-! ### To the nearest -/

/-- `IsNearest q z`: no whole number is nearer to `q` than `z`, and `z` is even if another one is as
near. -/
def IsNearest (q : ℚ) (z : ℤ) : Prop := |q - z| ≤ 1 / 2 ∧ (|q - z| = 1 / 2 → Even z)

theorem IsNearest.neg {q : ℚ} {z : ℤ} (h : IsNearest q z) : IsNearest (-q) (-z) := by
  have habs : |(-q : ℚ) - (-z : ℤ)| = |q - z| := by
    rw [Int.cast_neg, ← neg_sub', abs_neg]
  exact ⟨habs ▸ h.1, fun heq => (h.2 (habs ▸ heq)).neg⟩

/-- How far `k` times the rounded quotient is from `n`. -/
theorem divRound_spec {n k : Nat} (hk : 0 < k) :
    2 * |(n : ℤ) - k * divRound n k| ≤ k ∧
      (2 * |(n : ℤ) - k * divRound n k| = k → Even (divRound n k : ℤ)) := by
  have hlt : n % k < k := Nat.mod_lt n hk
  have hrest : ∀ j : ℤ, (n : ℤ) - k * ((n / k : Nat) + j) = (n % k : Nat) - k * j := by
    intro j
    have hdiv : (n : ℤ) = k * (n / k : Nat) + (n % k : Nat) := by
      exact_mod_cast (Nat.div_add_mod n k).symm
    rw [mul_add]
    linarith
  unfold divRound
  dsimp only
  split
  case isTrue hless =>
    have hdistance := hrest 0
    rw [add_zero, mul_zero, sub_zero] at hdistance
    rw [hdistance, abs_of_nonneg (Int.natCast_nonneg _)]
    omega
  case isFalse hnotLess =>
    split
    case isTrue hmore =>
      have hdistance := hrest 1
      rw [mul_one] at hdistance
      rw [Nat.cast_add, Nat.cast_one, hdistance, abs_of_neg (by omega)]
      omega
    case isFalse hnotMore =>
      -- just half way, so the neighbour with the even quotient is taken
      have heven : Even ((n / k + n / k % 2 : Nat) : ℤ) := by
        rw [Int.even_iff]
        omega
      refine ⟨?_, fun _ => heven⟩
      rcases Nat.mod_two_eq_zero_or_one (n / k) with hparity | hparity
      · have hdistance := hrest 0
        rw [mul_zero, sub_zero] at hdistance
        rw [hparity, Nat.cast_add, Nat.cast_zero, hdistance, abs_of_nonneg (Int.natCast_nonneg _)]
        omega
      · have hdistance := hrest 1
        rw [mul_one] at hdistance
        rw [hparity, Nat.cast_add, Nat.cast_one, hdistance, abs_of_neg (by omega)]
        omega

theorem le_divRound {a n k : Nat} (hk : 0 < k) (h : a * k ≤ n) : a ≤ divRound n k := by
  have hle : a ≤ n / k := (Nat.le_div_iff_mul_le hk).mpr h
  unfold divRound
  dsimp only
  split
  · exact hle
  · split <;> omega

theorem divRound_le {a n k : Nat} (hk : 0 < k) (h : n ≤ a * k) : divRound n k ≤ a := by
  have hdistance := (divRound_spec (n := n) hk).1
  by_contra hlt
  have hmore : (k : ℤ) * (a + 1) ≤ k * divRound n k := by
    have : (a : ℤ) + 1 ≤ divRound n k := by omega
    gcongr
  have habove : (n : ℤ) ≤ a * k := by exact_mod_cast h
  rw [abs_of_nonpos (by linarith)] at hdistance
  have hk' : (0 : ℤ) < k := by exact_mod_cast hk
  linarith

/-- A rounded quotient is the nearest whole number. -/
theorem isNearest_divRound {n k : Nat} (hk : 0 < k) :
    IsNearest ((n : ℚ) / k) (divRound n k : Nat) := by
  obtain ⟨hle, heven⟩ := divRound_spec (n := n) hk
  have hk' : (0 : ℚ) < k := Nat.cast_pos.mpr hk
  have hdistance : |(n : ℚ) / k - ((divRound n k : Nat) : ℤ)| =
      ((|(n : ℤ) - k * divRound n k| : ℤ) : ℚ) / k := by
    rw [Int.cast_abs, eq_div_iff hk'.ne', ← abs_of_pos hk', ← abs_mul, abs_of_pos hk', sub_mul,
      div_mul_cancel₀ _ hk'.ne']
    push_cast
    rw [mul_comm (k : ℚ)]
  have hle' : (2 : ℚ) * (|(n : ℤ) - k * divRound n k| : ℤ) ≤ k := by exact_mod_cast hle
  rw [IsNearest, hdistance]
  refine ⟨?_, fun hhalf => heven ?_⟩
  · rw [div_le_iff₀ hk']
    linarith
  · rw [div_eq_iff hk'.ne'] at hhalf
    have hhalf' : (2 : ℚ) * (|(n : ℤ) - k * divRound n k| : ℤ) = k := by linarith
    exact_mod_cast hhalf'

/-- A float is rounded to the nearest whole number. -/
theorem Dyadic.isNearest_round (d : Dyadic) : IsNearest d.toRat d.round := by
  have hnearest := isNearest_divRound (n := d.fraction.1) d.fraction_pos
  rw [toRat_eq, cast_signed]
  show IsNearest _ (d.signed (divRound d.fraction.1 d.fraction.2))
  unfold signed
  split
  · rw [neg_div]
    exact hnearest.neg
  · exact hnearest

/-! ### The ways to round -/

/-- `r.Rounds q z`: the number `q`, rounded in the way `r`, is `z`. -/
def Rounding.Rounds : Rounding → ℚ → ℤ → Prop
  | down, q, z => z = ⌊q⌋
  | up, q, z => z = ⌈q⌉
  | nearest, q, z => IsNearest q z

/-- **The rules of the ways to round are right.** -/
theorem Rounding.rounds_rule (r : Rounding) (d : Dyadic) : r.Rounds d.toRat (r.rule d) := by
  cases r with
  | down => exact d.floor_eq
  | up => exact d.ceil_eq
  | nearest => exact d.isNearest_round

end Spellbook
