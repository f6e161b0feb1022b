import Mathlib.Analysis.Complex.ExponentialBounds
import Mathlib.Analysis.SpecialFunctions.Log.Base
import Spellbook.Number.Logarithm
import Spellbook.Proofs.NumberOrder

/-!
# Logarithms that are worked out in whole numbers

What `Fraction.commonLog` and `logTen` have to do with the logarithm of real numbers. The powers of
ten that are counted off leave a number from one up to ten (`decimalOrder_spec`), and squaring it
doubles its logarithm, the whole part of which is the next binary digit. All that is cut off on the
way makes the digits too small by little more than a unit of the last one (`logDigits_spec`), so the
logarithm is right to more than twice the places of a float before it is rounded
(`Fraction.commonLog_spec`).

A whole number is rounded before its logarithm is taken, and one that is too large for a float is
taken apart and its logarithm put together in rounded steps. In either case the error is a few units
of the last place (`near_logTen`).
-/

namespace Spellbook

open Real (logb)

/-! ### Fractions as rational numbers -/

namespace Fraction

variable (x y : Fraction)

/-- The fraction as a rational number. -/
def toRat : ℚ := x.num / x.den

theorem den_pos' : (0 : ℚ) < x.den := by exact_mod_cast x.den_pos

theorem toRat_nonneg : 0 ≤ x.toRat := by
  rw [toRat]
  positivity

/-- The whole part of a fraction is its floor. -/
theorem whole_eq : (x.whole : ℤ) = ⌊x.toRat⌋ := (Rat.floor_natCast_div_natCast x.num x.den).symm

theorem toRat_ofNat (n : Nat) : (ofNat n).toRat = n := by simp [toRat, ofNat]

theorem toRat_succ : x.succ.toRat = x.toRat + 1 := by
  rw [toRat, toRat, succ, Nat.cast_add, add_div, div_self x.den_pos'.ne']

theorem toRat_mul : (x.mul y).toRat = x.toRat * y.toRat := by
  simp [toRat, mul, mul_div_mul_comm]

variable {x y}

/-- A smaller fraction is subtracted exactly. -/
theorem toRat_sub (h : y.toRat ≤ x.toRat) : (x.sub y).toRat = x.toRat - y.toRat := by
  rw [toRat, toRat, div_le_div_iff₀ y.den_pos' x.den_pos'] at h
  have hle : y.num * x.den ≤ x.num * y.den := by exact_mod_cast h
  rw [toRat, toRat, toRat, sub, div_sub_div _ _ x.den_pos'.ne' y.den_pos'.ne']
  push_cast [hle]
  ring

theorem toRat_reciprocal (h : 0 < x.toRat) : x.reciprocal.toRat = x.toRat⁻¹ := by
  have hnum : 0 < x.num := by
    rcases Nat.eq_zero_or_pos x.num with hzero | hpos
    · rw [toRat, hzero, Nat.cast_zero, zero_div] at h
      exact absurd h (lt_irrefl _)
    · exact hpos
  rw [reciprocal, dif_pos hnum, toRat, toRat, inv_div]

/-- **Fractions are rounded as floats are**, unless they are too small. -/
theorem isRounded_significant (h : x.toRat = 0 ∨ (2 : ℚ) ^ (-1022 : ℤ) ≤ x.toRat) :
    IsRounded x.toRat x.significant.toRat := by
  have hvalue (m : Nat) (q : ℤ) : ((scaleByTwo m 1 q).1 : ℚ) / (scaleByTwo m 1 q).2 =
      m * 2 ^ q := by
    rw [scaleByTwo_eq, Nat.cast_one, div_one]
  rcases Nat.eq_zero_or_pos x.num with hzero | hnum
  · have hrest : divRound (scaleByTwo x.num x.den (-(binaryOrder x.num x.den - 52))).1
        (scaleByTwo x.num x.den (-(binaryOrder x.num x.den - 52))).2 = 0 := by
      refine Nat.le_zero.mp (divRound_le (scaleByTwo_pos x.den_pos _) ?_)
      rw [hzero, scaleByTwo]
      split <;> simp
    have hleft : x.toRat = 0 := by rw [toRat, hzero, Nat.cast_zero, zero_div]
    have hright : x.significant.toRat = 0 := by
      show ((scaleByTwo (divRound _ _) 1 _).1 : ℚ) / (scaleByTwo (divRound _ _) 1 _).2 = 0
      rw [hvalue, hrest, Nat.cast_zero, zero_mul]
    rw [hleft, hright]
    exact isRounded_zero
  · have hpos : 0 < x.toRat := div_pos (by exact_mod_cast hnum) x.den_pos'
    have hplace := isLastPlace_binaryOrder hnum x.den_pos
    have hleast : -1022 ≤ binaryOrder x.num x.den := by
      have hlt := (h.resolve_left hpos.ne').trans_lt (binaryOrder_spec hnum x.den_pos).2
      have := (zpow_lt_zpow_iff_right₀ (one_lt_two : (1 : ℚ) < 2)).mp hlt
      omega
    rw [max_eq_left (by omega)] at hplace
    obtain ⟨-, -, hnearest⟩ := divRound_of_isLastPlace x.den_pos hplace rfl
    exact ⟨_, _, by rw [Int.cast_natCast]; exact hvalue _ _, hplace, hnearest⟩

end Fraction

/-! ### Powers of ten -/

/-- A fraction is scaled by a power of ten exactly. -/
theorem scaleByTen_eq (num den : Nat) (e : ℤ) :
    ((Decimal.scaleByTen num den e).1 : ℚ) / (Decimal.scaleByTen num den e).2 =
      num / den * 10 ^ e := by
  unfold Decimal.scaleByTen
  split
  case isTrue he =>
    obtain ⟨k, rfl⟩ := Int.eq_ofNat_of_zero_le he
    simp [div_mul_eq_mul_div]
  case isFalse he =>
    obtain ⟨k, hk⟩ := Int.eq_ofNat_of_zero_le (a := -e) (by omega)
    obtain rfl : e = -k := by omega
    simp [div_eq_mul_inv, mul_assoc, mul_comm]

theorem scaleByTen_pos (num : Nat) {den : Nat} (hden : 0 < den) (e : ℤ) :
    0 < (Decimal.scaleByTen num den e).2 := by
  unfold Decimal.scaleByTen
  split
  · exact hden
  · exact Nat.mul_pos hden (Nat.pow_pos (by decide))

/-- Whether a fraction reaches a power of ten. -/
theorem scaleByTen_le_iff {num den : Nat} (hden : 0 < den) (p : ℤ) :
    (Decimal.scaleByTen num den (-p)).2 ≤ (Decimal.scaleByTen num den (-p)).1 ↔
      (10 : ℚ) ^ p ≤ num / den := by
  have hpos : (0 : ℚ) < (Decimal.scaleByTen num den (-p)).2 := by
    exact_mod_cast scaleByTen_pos num hden (-p)
  rw [← Nat.cast_le (α := ℚ), ← one_le_div hpos, scaleByTen_eq, zpow_neg, ← div_eq_mul_inv,
    one_le_div (by positivity)]

/-- Powers of two bases are compared by the exponents that a power of each has. -/
theorem zpow_le_zpow_of_pow_le {x y : ℚ} (hx : 1 ≤ x) (hy : 1 ≤ y) {i j : Nat} (hi : i ≠ 0)
    (h : x ^ i ≤ y ^ j) {m n : ℤ} (hm : 0 ≤ m) (hmn : m * j ≤ n * i) : x ^ m ≤ y ^ n := by
  have hx' : 0 < x := zero_lt_one.trans_le hx
  have hy' : 0 < y := zero_lt_one.trans_le hy
  refine le_of_pow_le_pow_left₀ hi (by positivity) ?_
  calc (x ^ m) ^ i = (x ^ i) ^ m := by
        rw [← zpow_natCast, ← zpow_natCast, ← zpow_mul, ← zpow_mul, mul_comm]
    _ ≤ (y ^ j) ^ m := zpow_le_zpow_left₀ hm (by positivity) h
    _ = y ^ (m * j) := by rw [← zpow_natCast, ← zpow_mul, mul_comm]
    _ ≤ y ^ (n * i) := zpow_le_zpow_right₀ hy hmn
    _ = (y ^ n) ^ i := by rw [zpow_mul, zpow_natCast]

/-- The power of ten that is guessed from the binary order is not far off. -/
theorem guess_spec {b g : ℤ} (hb : 0 ≤ b) (hb' : b ≤ 1024) (hg : g = Int.fdiv (b * 30103) 100000) :
    (10 : ℚ) ^ (g - 2) ≤ 2 ^ b ∧ (2 : ℚ) ^ (b + 1) ≤ 10 ^ (g + 2) := by
  rw [Int.fdiv_eq_ediv_of_nonneg _ (by decide)] at hg
  constructor
  · rcases le_total 2 g with hle | hle
    · exact zpow_le_zpow_of_pow_le (i := 3) (j := 10) (by norm_num) one_le_two (by decide)
        (by norm_num) (by omega) (by omega)
    · exact (zpow_le_one_of_nonpos₀ (by norm_num) (by omega)).trans (one_le_zpow₀ one_le_two hb)
  · exact zpow_le_zpow_of_pow_le (i := 93) (j := 28) one_le_two (by norm_num) (by decide)
      (by norm_num) (by omega) (by omega)

/-- **The decimal order of a fraction** is the number of its digits before the point. -/
theorem decimalOrder_spec {num den : Nat} (hden : 0 < den) (hone : (1 : ℚ) ≤ num / den)
    (hsmall : (num : ℚ) / den < 2 ^ (1024 : ℤ)) :
    (10 : ℚ) ^ (Decimal.decimalOrder num den - 1) ≤ num / den ∧
      (num : ℚ) / den < 10 ^ Decimal.decimalOrder num den := by
  have hnum : 0 < num := by
    rcases Nat.eq_zero_or_pos num with rfl | hpos
    · norm_num at hone
    · exact hpos
  obtain ⟨hlow, hhigh⟩ := binaryOrder_spec hnum hden
  have horder : 0 ≤ binaryOrder num den ∧ binaryOrder num den ≤ 1024 := by
    have hless : (2 : ℚ) ^ (0 : ℤ) < 2 ^ (binaryOrder num den + 1) := by
      rw [zpow_zero]
      exact hone.trans_lt hhigh
    have hmore := (zpow_lt_zpow_iff_right₀ (one_lt_two : (1 : ℚ) < 2)).mp (hlow.trans_lt hsmall)
    have := (zpow_lt_zpow_iff_right₀ (one_lt_two : (1 : ℚ) < 2)).mp hless
    omega
  generalize hg : Int.fdiv (binaryOrder num den * 30103) 100000 = g
  obtain ⟨hleast, hmost⟩ := guess_spec horder.1 horder.2 hg.symm
  have hfirst := hleast.trans hlow
  have hlast := hhigh.trans_le hmost
  unfold Decimal.decimalOrder
  simp only [hg, decide_eq_true_eq, scaleByTen_le_iff hden]
  split
  case isTrue h =>
    rw [show g + 2 - 1 = g + 1 by ring]
    exact ⟨h, hlast⟩
  case isFalse h =>
    split
    case isTrue h' =>
      rw [add_sub_cancel_right]
      exact ⟨h', not_le.mp h⟩
    case isFalse h' =>
      split
      case isTrue h'' => exact ⟨h'', not_le.mp h'⟩
      case isFalse h'' =>
        rw [show g - 1 - 1 = g - 2 by ring]
        exact ⟨hfirst, not_le.mp h''⟩

/-! ### Small errors -/

/-- `Near u a b`: the first number is the second but for the part `u` of it. -/
def Near (u a b : ℝ) : Prop := |a - b| ≤ u * b

section
variable {u v a b c d : ℝ}

/-- The relative errors of two factors add up in the product, with a term of second order. -/
theorem Near.mul (hb : 0 ≤ b) (hd : 0 ≤ d) (h : Near u a b) (h' : Near v c d) :
    Near (u + v + u * v) (a * c) (b * d) := by
  calc |a * c - b * d| = |(a - b) * (c - d) + (a - b) * d + b * (c - d)| := by ring_nf
    _ ≤ |(a - b) * (c - d)| + |(a - b) * d| + |b * (c - d)| := abs_add_three _ _ _
    _ = |a - b| * |c - d| + |a - b| * d + b * |c - d| := by
      rw [abs_mul, abs_mul, abs_mul, abs_of_nonneg hb, abs_of_nonneg hd]
    _ ≤ u * b * (v * d) + u * b * d + b * (v * d) := by
      have hub : 0 ≤ u * b := (abs_nonneg _).trans h
      gcongr
      · exact h
      · exact h'
      · exact h
      · exact h'
    _ = (u + v + u * v) * (b * d) := by ring

/-- The relative errors of two approximations after each other add up, with a term of second order.
-/
theorem Near.trans (hv : 0 ≤ v) (h : Near v a b) (h' : Near u b c) : Near (u + v + u * v) a c := by
  have hb : b ≤ c + u * c := by linarith [(abs_le.mp h').2]
  calc |a - c| = |(a - b) + (b - c)| := by ring_nf
    _ ≤ |a - b| + |b - c| := abs_add_le _ _
    _ ≤ v * b + u * c := add_le_add h h'
    _ ≤ v * (c + u * c) + u * c := by gcongr
    _ = (u + v + u * v) * c := by ring

theorem Near.mono (hb : 0 ≤ b) (h : Near u a b) (huv : u ≤ v) : Near v a b :=
  le_trans h (mul_le_mul_of_nonneg_right huv hb)

/-- Rounding a number that is not tiny has a relative error of at most `2 ^ -53`. -/
theorem IsRounded.near {q r : ℚ} (h : IsRounded q r) (hq : (2 : ℚ) ^ (-1022 : ℤ) ≤ q) :
    Near (1 / 2 ^ 53) r q := by
  have hpos : 0 < q := lt_of_lt_of_le (by positivity) hq
  have hle := h.abs_sub_le_mul (by rwa [abs_of_pos hpos])
  rw [abs_of_pos hpos] at hle
  rw [Near, abs_sub_comm, one_div_mul_eq_div]
  exact_mod_cast hle

end

/-! ### Logarithms of numbers that are close -/

/-- The natural logarithm of ten is bounded from below by that of eight. -/
theorem log_ten_gt : 2.05 < Real.log 10 := by
  have hcube : Real.log 8 = 3 * Real.log 2 := by
    rw [show (8 : ℝ) = 2 ^ 3 by norm_num, Real.log_pow]
    norm_num
  have hle : Real.log 8 ≤ Real.log 10 := Real.log_le_log (by norm_num) (by norm_num)
  linarith [Real.log_two_gt_d9]

/-- A thousand is at most `2 ^ 10`. -/
theorem three_mul_log_ten_le : 3 * Real.log 10 ≤ 10 * Real.log 2 := by
  have hle : Real.log (10 ^ 3) ≤ Real.log (2 ^ 10) := Real.log_le_log (by norm_num) (by norm_num)
  rw [Real.log_pow, Real.log_pow] at hle
  exact_mod_cast hle

theorem log_ten_lt : Real.log 10 < 2.5 := by
  linarith [three_mul_log_ten_le, Real.log_two_lt_d9]

theorem le_logb_two : 0.3 ≤ logb 10 2 := by
  rw [logb, le_div_iff₀ (by linarith [log_ten_gt])]
  linarith [three_mul_log_ten_le]

theorem logb_two_lt : logb 10 2 < 0.5 := by
  rw [logb, div_lt_iff₀ (by linarith [log_ten_gt])]
  linarith [log_ten_gt, Real.log_two_lt_d9]

/-- A relative excess makes the logarithm larger by less than half of it. -/
theorem logb_le_add {v w u : ℝ} (hv : 0 < v) (hw : 0 < w) (hu : 0 ≤ u) (h : v ≤ w * (1 + u)) :
    logb 10 v ≤ logb 10 w + 0.49 * u := by
  have hfactor : logb 10 (1 + u) ≤ 0.49 * u := by
    have hlog : Real.log (1 + u) ≤ u := by
      linarith [Real.log_le_sub_one_of_pos (show 0 < 1 + u by linarith)]
    rw [logb, div_le_iff₀ (by linarith [log_ten_gt])]
    nlinarith [log_ten_gt]
  calc logb 10 v ≤ logb 10 (w * (1 + u)) := Real.logb_le_logb_of_le (by norm_num) hv h
    _ = logb 10 w + logb 10 (1 + u) := Real.logb_mul hw.ne' (by linarith)
    _ ≤ logb 10 w + 0.49 * u := by linarith

/-- A relative excess makes the logarithm larger by some part of it. -/
theorem add_le_logb {v w u : ℝ} (hw : 0 < w) (hu : 0 ≤ u) (hu' : u ≤ 9) (h : w * (1 + u) ≤ v) :
    logb 10 w + 0.04 * u ≤ logb 10 v := by
  have hfactor : 0.04 * u ≤ logb 10 (1 + u) := by
    have hpos : 0 < 1 + u := by linarith
    have hlog : u / 10 ≤ Real.log (1 + u) := by
      calc u / 10 ≤ u / (1 + u) := div_le_div_of_nonneg_left hu hpos (by linarith)
        _ = 1 - (1 + u)⁻¹ := by
          field_simp
          ring
        _ ≤ Real.log (1 + u) := Real.one_sub_inv_le_log_of_pos hpos
    rw [logb, le_div_iff₀ (by linarith [log_ten_gt])]
    nlinarith [log_ten_lt]
  calc logb 10 w + 0.04 * u ≤ logb 10 w + logb 10 (1 + u) := by linarith
    _ = logb 10 (w * (1 + u)) := (Real.logb_mul hw.ne' (by linarith)).symm
    _ ≤ logb 10 v := Real.logb_le_logb_of_le (by norm_num) (mul_pos hw (by linarith)) h

/-- A relative loss makes the logarithm smaller by some part of it. -/
theorem logb_le_sub {v w u : ℝ} (hv : 0 < v) (hw : 0 < w) (hu : 0 ≤ u) (h : v ≤ w * (1 - u)) :
    logb 10 v ≤ logb 10 w - 0.4 * u := by
  have hrest : 0 < 1 - u := pos_of_mul_pos_right (hv.trans_le h) hw.le
  have hfactor : logb 10 (1 - u) ≤ -(0.4 * u) := by
    have hlog : Real.log (1 - u) ≤ -u := by linarith [Real.log_le_sub_one_of_pos hrest]
    rw [logb, div_le_iff₀ (by linarith [log_ten_gt])]
    nlinarith [log_ten_lt]
  calc logb 10 v ≤ logb 10 (w * (1 - u)) := Real.logb_le_logb_of_le (by norm_num) hv h
    _ = logb 10 w + logb 10 (1 - u) := Real.logb_mul hw.ne' hrest.ne'
    _ ≤ logb 10 w - 0.4 * u := by linarith

/-- Rounding changes a logarithm by less than half of the last place of one. -/
theorem IsRounded.abs_logb_sub_le {q r : ℚ} (h : IsRounded q r) (hq : (2 : ℚ) ^ (-1022 : ℤ) ≤ q) :
    |logb 10 r - logb 10 q| ≤ 0.495 / 2 ^ 53 := by
  have hpos : (0 : ℝ) < q := by exact_mod_cast lt_of_lt_of_le (by positivity) hq
  obtain ⟨hlow, hhigh⟩ := abs_le.mp (h.near hq)
  have hrounded : (0 : ℝ) < r := by linarith
  have hup : logb 10 r ≤ logb 10 q + 0.49 * (1 / 2 ^ 53) :=
    logb_le_add hrounded hpos (by norm_num) (by linarith)
  have hdown : logb 10 q ≤ logb 10 r + 0.49 * (1 / 2 ^ 53 + 1 / 2 ^ 105) :=
    logb_le_add hpos hrounded (by norm_num) (by linarith)
  exact abs_le.mpr ⟨by linarith, by linarith⟩

/-- What is cut off a quotient does not make its logarithm much smaller. -/
theorem logb_quotient {a c w : Nat} (hw : 0 < w) (hc : 0 < c) (h : w ≤ a / c) :
    logb 10 (a / c : Nat) ≤ logb 10 (a / c : ℝ) ∧
    logb 10 (a / c : ℝ) ≤ logb 10 (a / c : Nat) + 1 / w := by
  have hwhole : (0 : ℝ) < (a / c : Nat) := by exact_mod_cast hw.trans_le h
  have hw' : (0 : ℝ) < w := by exact_mod_cast hw
  have hle : ((a / c : Nat) : ℝ) ≤ a / c := Nat.cast_div_le
  refine ⟨Real.logb_le_logb_of_le (by norm_num) hwhole hle, ?_⟩
  have hunit : (1 : ℝ) ≤ (a / c : Nat) * (1 / w) := by
    rw [mul_one_div, one_le_div hw']
    exact_mod_cast h
  have hlt : (a : ℝ) / c ≤ (a / c : Nat) + 1 := by
    rw [div_le_iff₀ (by exact_mod_cast hc)]
    exact_mod_cast (Nat.lt_div_mul_add hc).le.trans_eq (by ring)
  have hsum := logb_le_add (hwhole.trans_le hle) hwhole (one_div_nonneg.mpr hw'.le)
    (show (a : ℝ) / c ≤ (a / c : Nat) * (1 + 1 / w) by linarith)
  have : 0 < 1 / (w : ℝ) := one_div_pos.mpr hw'
  linarith

namespace Fraction

/-- **One binary digit of a logarithm.** The square of a number has twice its logarithm, which is
divided into the digit, one if the square reaches ten, and the logarithm of what is left. -/
theorem logb_square {y w b : Nat} (hw : 0 < w) (hy : 0 < y) (h : w ≤ y * y / (w * 10 ^ b)) :
    b + logb 10 ((y * y / (w * 10 ^ b) : Nat) / w) ≤ 2 * logb 10 (y / w) ∧
      2 * logb 10 (y / w) ≤ b + logb 10 ((y * y / (w * 10 ^ b) : Nat) / w) + 1 / w := by
  obtain ⟨hle, hge⟩ := logb_quotient hw (Nat.mul_pos hw (Nat.pow_pos (by decide))) h
  have hw' : (w : ℝ) ≠ 0 := by exact_mod_cast hw.ne'
  have hy' : (y : ℝ) ≠ 0 := by exact_mod_cast hy.ne'
  have hrest : ((y * y / (w * 10 ^ b) : Nat) : ℝ) ≠ 0 := by exact_mod_cast (hw.trans_le h).ne'
  have hsquare : logb 10 ((y * y : Nat) / (w * 10 ^ b : Nat) : ℝ) =
      2 * logb 10 y - logb 10 w - b := by
    push_cast
    rw [Real.logb_div (mul_ne_zero hy' hy') (by positivity), Real.logb_mul hy' hy',
      Real.logb_mul hw' (by positivity), Real.logb_pow, Real.logb_self_eq_one (by norm_num)]
    ring
  rw [hsquare] at hle hge
  rw [Real.logb_div hy' hw', Real.logb_div hrest hw']
  constructor <;> linarith

/-- **The digits of a logarithm.** After the digits `done` come those of the logarithm of what is
left, and they are too small by less than one and what was cut off the squares. -/
theorem logDigits_spec (count done : Nat) {y w : Nat} (hw : w = Nat.pow 2 workingPlaces)
    (hlow : w ≤ y) (hhigh : y < 10 * w) :
    (logDigits count done y : ℝ) ≤ 2 ^ count * (done + logb 10 (y / w)) ∧
      2 ^ count * (done + logb 10 (y / w)) < logDigits count done y + 1 + 2 ^ count / w := by
  have hpos : 0 < w := hw ▸ Nat.pow_pos (by decide)
  have hpos' : (0 : ℝ) < w := by exact_mod_cast hpos
  induction count generalizing done y with
  | zero =>
    have hone : (1 : ℝ) ≤ y / w := (one_le_div hpos').mpr (by exact_mod_cast hlow)
    have hten : (y : ℝ) / w < 10 := (div_lt_iff₀ hpos').mpr (by exact_mod_cast hhigh)
    have hleast : 0 ≤ logb 10 (y / w : ℝ) := Real.logb_nonneg (by norm_num) hone
    have hmost : logb 10 (y / w : ℝ) < 1 := by
      rw [← Real.logb_self_eq_one (show (1 : ℝ) < 10 by norm_num)]
      exact Real.logb_lt_logb (by norm_num) (zero_lt_one.trans_le hone) hten
    have : 0 < 1 / (w : ℝ) := one_div_pos.mpr hpos'
    rw [logDigits, pow_zero, one_mul]
    constructor <;> linarith
  | succ count ih =>
    -- Whichever digit it is, what is left is the square without that power of ten.
    have hstep (b : Nat) (hleast : w ≤ y * y / (w * 10 ^ b))
        (hmost : y * y / (w * 10 ^ b) < 10 * w) :
        let r := logDigits count (2 * done + b) (y * y / (w * 10 ^ b))
        (r : ℝ) ≤ 2 ^ (count + 1) * (done + logb 10 (y / w)) ∧
          2 ^ (count + 1) * (done + logb 10 (y / w)) < r + 1 + 2 ^ (count + 1) / w := by
      obtain ⟨hle, hlt⟩ := ih (2 * done + b) hleast hmost
      obtain ⟨hdigit, hdigit'⟩ := logb_square hpos (hpos.trans_le hlow) hleast
      have hpow : (0 : ℝ) < 2 ^ count := by positivity
      push_cast at hle hlt
      intro r
      constructor
      · calc (r : ℝ) ≤ 2 ^ count * (2 * done + b + logb 10 ((y * y / (w * 10 ^ b) : Nat) / w)) :=
            hle
          _ ≤ 2 ^ count * (2 * (done + logb 10 (y / w))) := by
            refine mul_le_mul_of_nonneg_left ?_ hpow.le
            linarith
          _ = 2 ^ (count + 1) * (done + logb 10 (y / w)) := by ring
      · calc 2 ^ (count + 1) * (done + logb 10 (y / w)) =
            2 ^ count * (2 * (done + logb 10 (y / w))) := by ring
          _ ≤ 2 ^ count * (2 * done + b + logb 10 ((y * y / (w * 10 ^ b) : Nat) / w) + 1 / w) := by
            refine mul_le_mul_of_nonneg_left ?_ hpow.le
            linarith
          _ = 2 ^ count * (2 * done + b + logb 10 ((y * y / (w * 10 ^ b) : Nat) / w)) +
              2 ^ count / w := by ring
          _ < r + 1 + 2 ^ count / w + 2 ^ count / w := by linarith
          _ = r + 1 + 2 ^ (count + 1) / w := by ring
    have hleast : w ≤ y * y / w := (Nat.le_div_iff_mul_le hpos).mpr (Nat.mul_le_mul hlow hlow)
    have hmost : y * y / w / 10 < 10 * w := by
      rw [Nat.div_div_eq_div_mul, Nat.div_lt_iff_lt_mul (Nat.mul_pos hpos (by decide))]
      calc y * y < 10 * w * (10 * w) := Nat.mul_lt_mul_of_lt_of_lt hhigh hhigh
        _ = 10 * w * (w * 10) := by ring
    rw [logDigits, ← hw]
    split
    case isTrue hten =>
      have := hstep 1
      rw [pow_one, ← Nat.div_div_eq_div_mul] at this
      exact this (by omega) hmost
    case isFalse hten =>
      have := hstep 0
      rw [pow_zero, mul_one] at this
      exact this hleast (by omega)

/-- What is counted off a fraction, and what is left with its working places. -/
theorem commonLog_eq {x : Fraction} (hone : 1 ≤ x.toRat)
    (hsmall : x.toRat < 2 ^ (1024 : ℤ)) {w : Nat} (hw : w = Nat.pow 2 workingPlaces) :
    ∃ k y, x.commonLog =
      significant ⟨logDigits logPlaces k y, Nat.pow 2 logPlaces, Nat.pow_pos (by decide)⟩ ∧
      w ≤ y ∧ y < 10 * w ∧ k + logb 10 (y / w) ≤ logb 10 x.toRat ∧
      logb 10 x.toRat ≤ k + logb 10 (y / w) + 1 / w := by
  obtain ⟨hleast, hmost⟩ := decimalOrder_spec x.den_pos hone hsmall
  generalize hk : (Decimal.decimalOrder x.num x.den - 1).toNat = k
  have hpos : 0 < w := hw ▸ Nat.pow_pos (by decide)
  have horder : Decimal.decimalOrder x.num x.den = k + 1 := by
    have hlt : (10 : ℚ) ^ (0 : ℤ) < 10 ^ Decimal.decimalOrder x.num x.den := by
      rw [zpow_zero]
      exact hone.trans_lt hmost
    have := (zpow_lt_zpow_iff_right₀ (show (1 : ℚ) < 10 by norm_num)).mp hlt
    omega
  rw [horder, add_sub_cancel_right, zpow_natCast, le_div_iff₀ x.den_pos'] at hleast
  rw [horder, div_lt_iff₀ x.den_pos', ← Nat.cast_succ, zpow_natCast] at hmost
  have hden : 0 < x.den * 10 ^ k := Nat.mul_pos x.den_pos (Nat.pow_pos (by decide))
  have hlow : w ≤ x.num * w / (x.den * 10 ^ k) := by
    rw [Nat.le_div_iff_mul_le hden]
    have : 10 ^ k * x.den ≤ x.num := by exact_mod_cast hleast
    calc w * (x.den * 10 ^ k) = 10 ^ k * x.den * w := by ring
      _ ≤ x.num * w := Nat.mul_le_mul_right w this
  have hhigh : x.num * w / (x.den * 10 ^ k) < 10 * w := by
    rw [Nat.div_lt_iff_lt_mul hden]
    have : x.num < 10 ^ (k + 1) * x.den := by exact_mod_cast hmost
    calc x.num * w < 10 ^ (k + 1) * x.den * w := Nat.mul_lt_mul_of_pos_right this hpos
      _ = 10 * w * (x.den * 10 ^ k) := by ring
  obtain ⟨hle, hge⟩ := logb_quotient hpos hden hlow
  have hw' : (w : ℝ) ≠ 0 := by exact_mod_cast hpos.ne'
  have hnum' : (x.num : ℝ) ≠ 0 := by
    have : 0 < x.num := Nat.pos_of_mul_pos_right (hpos.trans_le (hlow.trans (Nat.div_le_self _ _)))
    exact_mod_cast this.ne'
  have hden' : (x.den : ℝ) ≠ 0 := by exact_mod_cast x.den_pos.ne'
  have hrest : ((x.num * w / (x.den * 10 ^ k) : Nat) : ℝ) ≠ 0 := by
    exact_mod_cast (hpos.trans_le hlow).ne'
  have hlog : logb 10 ((x.num * w : Nat) / (x.den * 10 ^ k : Nat) : ℝ) =
      logb 10 x.toRat + logb 10 w - k := by
    rw [toRat]
    push_cast
    rw [Real.logb_div hnum' hden', Real.logb_div (mul_ne_zero hnum' hw') (by positivity),
      Real.logb_mul hnum' hw',
      Real.logb_mul hden' (by positivity), Real.logb_pow, Real.logb_self_eq_one (by norm_num)]
    ring
  rw [hlog] at hle hge
  refine ⟨k, x.num * w / (x.den * 10 ^ k), ?_, hlow, hhigh, ?_⟩
  · simp only [commonLog, hk, hw]
    rfl
  · rw [Real.logb_div hrest hw']
    constructor <;> linarith

/-- **Common logarithms** of fractions from one on, as far as floats go: what is rounded is less
than the logarithm, if at all, by less than `2 ^ (-127)`. -/
theorem commonLog_spec {x : Fraction} (hone : 1 ≤ x.toRat) (hsmall : x.toRat < 2 ^ (1024 : ℤ)) :
    ∃ q : ℚ, IsRounded q x.commonLog.toRat ∧ 0 ≤ q ∧ q ≤ logb 10 x.toRat ∧
    logb 10 x.toRat < q + 1 / 2 ^ 127 := by
  generalize hw : Nat.pow 2 workingPlaces = w
  obtain ⟨k, y, heq, hlow, hhigh, hle, hge⟩ := commonLog_eq hone hsmall hw.symm
  obtain ⟨hdigits, hdigits'⟩ := logDigits_spec logPlaces k hw.symm hlow hhigh
  have hw' : (w : ℝ) = 2 ^ 256 := by
    rw [← hw]
    norm_num [workingPlaces]
  rw [hw', logPlaces] at hdigits hdigits'
  rw [hw'] at hle hge
  rw [heq, logPlaces]
  generalize logDigits 128 k y = r at hdigits hdigits'
  have hrat : (⟨r, Nat.pow 2 128, Nat.pow_pos (by decide)⟩ : Fraction).toRat = r / 2 ^ 128 := by
    rw [toRat]
    norm_num
  refine ⟨r / 2 ^ 128, ?_, div_nonneg (Nat.cast_nonneg r) (pow_nonneg zero_le_two 128), ?_, ?_⟩
  · have hrounded := isRounded_significant (x := ⟨r, Nat.pow 2 128, Nat.pow_pos (by decide)⟩)
    rw [hrat] at hrounded
    refine hrounded ?_
    rcases Nat.eq_zero_or_pos r with rfl | hr
    · left
      rw [Nat.cast_zero, zero_div]
    · right
      calc (2 : ℚ) ^ (-1022 : ℤ) ≤ 2 ^ (-128 : ℤ) := zpow_le_zpow_right₀ one_le_two (by decide)
        _ = 1 / 2 ^ 128 := by norm_num
        _ ≤ r / 2 ^ 128 := div_le_div_of_nonneg_right (by exact_mod_cast hr) (by positivity)
  · push_cast
    rw [div_le_iff₀ (by positivity)]
    linarith
  · push_cast
    linarith

end Fraction

/-! ### Logarithms of whole numbers -/

/-- The significant part of a whole number is the number rounded. -/
theorem isRounded_significant_ofNat {n : Nat} (hn : 0 < n) :
    IsRounded n (Fraction.ofNat n).significant.toRat := by
  have hrounded := Fraction.isRounded_significant (x := Fraction.ofNat n)
  rw [Fraction.toRat_ofNat] at hrounded
  exact hrounded (.inr (two_zpow_le_of_one_le (by exact_mod_cast hn)))

/-- A fraction is compared with a power of two without dividing. -/
theorem Fraction.num_lt_iff (x : Fraction) (k : Nat) :
    x.num < x.den * Nat.pow 2 k ↔ x.toRat < 2 ^ (k : ℤ) := by
  rw [toRat, div_lt_iff₀ x.den_pos', zpow_natCast, mul_comm, Nat.pow_eq]
  norm_cast

/-- The logarithm of a number that a float can be near to, before it is rounded. -/
theorem exists_logTen {n : Nat} (hn : 0 < n)
    (hlt : (Fraction.ofNat n).significant.toRat < 2 ^ (1024 : ℤ)) :
    ∃ q : ℚ, IsRounded q (logTen n).toRat ∧ |q - logb 10 n| < 1 / 2 ^ 54 := by
  have hrounded := isRounded_significant_ofNat hn
  have hone : (1 : ℚ) ≤ (Fraction.ofNat n).significant.toRat := by
    have hself := isRounded_intCast (k := 1) (by decide)
    exact_mod_cast hrounded.ge_of_ge hself (by exact_mod_cast hn)
  have heq : logTen n = (Fraction.ofNat n).significant.commonLog := by
    simp only [logTen, Fraction.num_lt_iff, Nat.cast_ofNat, hlt, if_true]
  obtain ⟨q, hq, -, hle, hgt⟩ := Fraction.commonLog_spec hone hlt
  have hclose := abs_le.mp (hrounded.abs_logb_sub_le (two_zpow_le_of_one_le (by exact_mod_cast hn)))
  rw [Rat.cast_natCast] at hclose
  refine ⟨q, heq ▸ hq, abs_lt.mpr ⟨?_, ?_⟩⟩
  · linarith only [hclose.1, hgt]
  · linarith only [hclose.2, hle]

/-! ### Numbers that are too large for a float -/

/-- The logarithm of a fraction from one to two. -/
theorem abs_commonLog_sub_le {x : Fraction} (hone : 1 ≤ x.toRat) (htwo : x.toRat ≤ 2) :
    |x.commonLog.toRat - logb 10 x.toRat| ≤ 0.51 / 2 ^ 53 := by
  have hone' : (1 : ℝ) ≤ x.toRat := by exact_mod_cast hone
  have htwo' : (x.toRat : ℝ) ≤ 2 := by exact_mod_cast htwo
  have hmost : logb 10 x.toRat < 1 :=
    (Real.logb_le_logb_of_le (by norm_num) (by linarith) htwo').trans_lt (by linarith [logb_two_lt])
  have hsmall : x.toRat < 2 ^ (1024 : ℤ) := by
    calc x.toRat ≤ 2 ^ (1 : ℤ) := by rwa [zpow_one]
      _ < 2 ^ (1024 : ℤ) := zpow_lt_zpow_right₀ one_lt_two (by decide)
  obtain ⟨q, hrounded, hnonneg, hle, hgt⟩ := Fraction.commonLog_spec hone hsmall
  have hq : q < 1 := by
    have : (q : ℝ) < 1 := hle.trans_lt hmost
    exact_mod_cast this
  have herror : |(q : ℝ) - x.commonLog.toRat| ≤ 1 / 2 ^ 54 := by
    have hrat :=
      hrounded.abs_sub_le (n := 0) (by decide) (by rwa [abs_of_nonneg hnonneg, zpow_zero])
    rw [← Rat.cast_le (K := ℝ)] at hrat
    norm_num at hrat ⊢
    exact hrat
  obtain ⟨hlow, hhigh⟩ := abs_le.mp herror
  exact abs_le.mpr ⟨by linarith only [hgt, hhigh], by linarith only [hle, hlow]⟩

/-- A fraction from one half to one and a power of two, so that the fraction is not one. -/
def splitPower (x : Fraction) (e : Nat) : Fraction × Nat :=
  if x.num = x.den then (.half, e + 1) else (x, e)

/-- A number over the power of two above it is at least one half. -/
theorem half_le_fraction {n : Nat} (hn : 0 < n) : (1 / 2 : ℚ) ≤ n / 2 ^ (n.log2 + 1) := by
  have hle : (2 : ℚ) ^ n.log2 ≤ n := by exact_mod_cast Nat.log2_self_le hn.ne'
  rw [le_div_iff₀ (by positivity), pow_succ]
  linarith

theorem fraction_le_one (n : Nat) : (n / 2 ^ (n.log2 + 1) : ℚ) ≤ 1 := by
  rw [div_le_one (by positivity)]
  exact_mod_cast Nat.lt_log2_self.le

/-- How the logarithm of a number that is too large for a float is put together. -/
theorem exists_logTen_eq {n : Nat} (hn : 0 < n)
    (hle : 2 ^ (1024 : ℤ) ≤ (Fraction.ofNat n).significant.toRat) :
    ∃ x : Fraction, IsRounded (n / 2 ^ (n.log2 + 1)) x.toRat ∧
      logTen n = Fraction.significant (Fraction.sub
        (Fraction.significant
          ((Fraction.ofNat 2).commonLog.mul
            (Fraction.ofNat (splitPower x (n.log2 + 1)).2).significant))
        (splitPower x (n.log2 + 1)).1.reciprocal.commonLog) := by
  generalize hx : (⟨n, Nat.pow 2 (n.log2 + 1), Nat.pow_pos (by decide)⟩ : Fraction) = x
  have hvalue : x.toRat = n / 2 ^ (n.log2 + 1) := by
    rw [← hx]
    show (n : ℚ) / (2 ^ (n.log2 + 1) : Nat) = _
    rw [Nat.cast_pow, Nat.cast_ofNat]
  refine ⟨x.significant, ?_, ?_⟩
  · rw [← hvalue]
    refine Fraction.isRounded_significant (.inr (two_zpow_le_of_half_le ?_))
    rw [hvalue]
    exact half_le_fraction hn
  · rw [← hx]
    simp only [logTen, Fraction.num_lt_iff, Nat.cast_ofNat, not_lt.mpr hle, if_false]
    rfl

/-- The logarithms of the parts are those of the number, but for the rounding of the fraction. -/
theorem splitPower_spec {n : Nat} (hn : 0 < n) {x : Fraction}
    (hrounded : IsRounded (n / 2 ^ (n.log2 + 1)) x.toRat) {p : Fraction × Nat}
    (hp : splitPower x (n.log2 + 1) = p) :
    1 / 2 ≤ p.1.toRat ∧ p.1.toRat ≤ 1 ∧ 0 < p.2 ∧ p.2 ≤ n.log2 + 2 ∧
      |logb 10 p.1.toRat + p.2 * logb 10 2 - logb 10 n| ≤ 0.495 / 2 ^ 53 := by
  have hlow := half_le_fraction hn
  have hclose := hrounded.abs_logb_sub_le (two_zpow_le_of_half_le hlow)
  have hlog : logb 10 (n / 2 ^ (n.log2 + 1) : ℚ) = logb 10 n - (n.log2 + 1) * logb 10 2 := by
    push_cast
    rw [Real.logb_div (by exact_mod_cast hn.ne') (by positivity), Real.logb_pow]
    push_cast
    rfl
  rw [hlog] at hclose
  subst hp
  rw [splitPower]
  split
  case isTrue heq =>
    have hone : x.toRat = 1 := by rw [Fraction.toRat, heq, div_self x.den_pos'.ne']
    have hhalf : Fraction.half.toRat = 1 / 2 := by norm_num [Fraction.toRat, Fraction.half]
    have hlog' : logb 10 ((1 / 2 : ℚ) : ℝ) = -logb 10 2 := by
      push_cast
      rw [one_div, Real.logb_inv]
    rw [hone, Rat.cast_one, Real.logb_one] at hclose
    rw [hhalf, hlog']
    refine ⟨le_rfl, by norm_num, by omega, le_rfl, ?_⟩
    push_cast
    refine le_of_eq_of_le (congrArg _ ?_) hclose
    ring
  case isFalse =>
    have hleast : 1 / 2 ≤ x.toRat := by
      have hself := isRounded_dyadic (z := 1) (e := -1) (by decide) (by decide)
      norm_num at hself
      exact hrounded.ge_of_ge hself (by linarith)
    have hmost : x.toRat ≤ 1 := by
      have hself := isRounded_intCast (k := 1) (by decide)
      push_cast at hself
      exact hrounded.le_of_le hself (fraction_le_one n)
    refine ⟨hleast, hmost, by omega, by omega, ?_⟩
    push_cast
    refine le_of_eq_of_le (congrArg _ ?_) hclose
    ring

/-- The logarithm of the power of two near a number is at most one above that of the number. -/
theorem mul_logb_two_le {n e : Nat} (hn : 0 < n) (he : e ≤ n.log2 + 2) :
    logb 10 2 * e ≤ logb 10 n + 1 := by
  have hle : (2 : ℝ) ^ n.log2 ≤ n := by exact_mod_cast Nat.log2_self_le hn.ne'
  have hlog := Real.logb_le_logb_of_le (show (1 : ℝ) < 10 by norm_num) (by positivity) hle
  rw [Real.logb_pow] at hlog
  have he' : (e : ℝ) ≤ n.log2 + 2 := by exact_mod_cast he
  calc logb 10 2 * e ≤ logb 10 2 * (n.log2 + 2) := by
        refine mul_le_mul_of_nonneg_left he' ?_
        linarith [le_logb_two]
    _ ≤ logb 10 n + 1 := by linarith [logb_two_lt]

/-- The logarithm of a power of two. -/
theorem near_power {e : Nat} (he : 0 < e) :
    Near (3.8 / 2 ^ 53)
    ((Fraction.ofNat 2).commonLog.mul (Fraction.ofNat e).significant).significant.toRat
      (logb 10 2 * e) := by
  have htwo : Near (1.7 / 2 ^ 53) (Fraction.ofNat 2).commonLog.toRat (logb 10 2) := by
    have hle := abs_commonLog_sub_le (x := Fraction.ofNat 2) (by norm_num [Fraction.toRat_ofNat])
      (by norm_num [Fraction.toRat_ofNat])
    rw [Fraction.toRat_ofNat, Rat.cast_natCast, Nat.cast_ofNat] at hle
    exact hle.trans (by linarith [le_logb_two])
  have hexponent : Near (1 / 2 ^ 53) (Fraction.ofNat e).significant.toRat e := by
    have hnear :=
      (isRounded_significant_ofNat he).near (two_zpow_le_of_one_le (by exact_mod_cast he))
    rwa [Rat.cast_natCast] at hnear
  have hpositive : 0 ≤ logb 10 2 := by linarith [le_logb_two]
  have hproduct := htwo.mul hpositive (Nat.cast_nonneg e) hexponent
  have hleast : 0.3 ≤ logb 10 2 * e := by
    have : (1 : ℝ) ≤ e := by exact_mod_cast he
    nlinarith [le_logb_two]
  rw [← Rat.cast_mul, ← Fraction.toRat_mul] at hproduct
  generalize (Fraction.ofNat 2).commonLog.mul (Fraction.ofNat e).significant = x at hproduct ⊢
  have hx : (2 : ℚ) ^ (-1022 : ℤ) ≤ x.toRat := by
    calc (2 : ℚ) ^ (-1022 : ℤ) ≤ 2 ^ (-2 : ℤ) := zpow_le_zpow_right₀ one_le_two (by decide)
      _ ≤ x.toRat := by
        rw [← Rat.cast_le (K := ℝ)]
        norm_num
        linarith only [hleast, (abs_le.mp hproduct).1]
  have hnear :=
    Near.trans (by norm_num) ((Fraction.isRounded_significant (.inr hx)).near hx) hproduct
  exact hnear.mono (by linarith only [hleast]) (by norm_num)

/-- A number that no float holds has a logarithm of at least 300. -/
theorem le_logb_of_significant_le {n : Nat} (hn : 0 < n)
    (hle : 2 ^ (1024 : ℤ) ≤ (Fraction.ofNat n).significant.toRat) : 300 ≤ logb 10 n := by
  have hclose :=
    (isRounded_significant_ofNat hn).abs_logb_sub_le (two_zpow_le_of_one_le (by exact_mod_cast hn))
  have hlarge : 1024 * logb 10 2 ≤ logb 10 (Fraction.ofNat n).significant.toRat := by
    have hreal : (2 : ℝ) ^ (1024 : ℕ) ≤ (Fraction.ofNat n).significant.toRat := by
      rw [← zpow_natCast, Nat.cast_ofNat]
      exact_mod_cast hle
    refine le_of_eq_of_le ?_ (Real.logb_le_logb_of_le (by norm_num) (pow_pos two_pos _) hreal)
    rw [Real.logb_pow]
    norm_num
  rw [Rat.cast_natCast] at hclose
  linarith only [hlarge, le_logb_two, (abs_le.mp hclose).2]

/-- The logarithm of a number that no float holds is near the true one. -/
theorem near_logTen_of_le {n : Nat} (hn : 0 < n)
    (hle : 2 ^ (1024 : ℤ) ≤ (Fraction.ofNat n).significant.toRat) :
    Near (5 / 2 ^ 53) (logTen n).toRat (logb 10 n) := by
  have hlarge := le_logb_of_significant_le hn hle
  obtain ⟨x, hrounded, heq⟩ := exists_logTen_eq hn hle
  rw [heq]
  generalize hp : splitPower x (n.log2 + 1) = p
  obtain ⟨hhalf, hone, hpos, hexponent, hsplit⟩ := splitPower_spec hn hrounded hp
  have hpower := near_power hpos
  have hbound := mul_logb_two_le hn hexponent
  have hreciprocal : p.1.reciprocal.toRat = p.1.toRat⁻¹ :=
    Fraction.toRat_reciprocal (by linarith only [hhalf])
  have hfraction := abs_commonLog_sub_le (x := p.1.reciprocal)
    (by rw [hreciprocal]; exact (one_le_inv₀ (by linarith only [hhalf])).mpr hone)
    (by rw [hreciprocal]; exact (inv_le_comm₀ (by linarith only [hhalf]) two_pos).mpr (by
      linarith only [hhalf]))
  rw [hreciprocal, Rat.cast_inv, Real.logb_inv] at hfraction
  generalize Fraction.significant (Fraction.mul _ _) = y at hpower ⊢
  generalize p.1.reciprocal.commonLog = z at hfraction ⊢
  have hdifference : Near (3.9 / 2 ^ 53) (y.toRat - z.toRat : ℚ) (logb 10 n) := by
    obtain ⟨hlow, hhigh⟩ := abs_le.mp hpower
    obtain ⟨hlow', hhigh'⟩ := abs_le.mp hfraction
    obtain ⟨hlow'', hhigh''⟩ := abs_le.mp hsplit
    rw [Near, Rat.cast_sub]
    exact abs_le.mpr ⟨by linarith only [hlow, hhigh', hlow'', hbound, hlarge],
      by linarith only [hhigh, hlow', hhigh'', hbound, hlarge]⟩
  have hpositive : 1 ≤ y.toRat - z.toRat := by
    rw [← Rat.cast_le (K := ℝ), Rat.cast_one]
    linarith only [(abs_le.mp hdifference).1, hlarge]
  have hsub : (y.sub z).toRat = y.toRat - z.toRat :=
    Fraction.toRat_sub (by linarith only [hpositive])
  rw [← hsub] at hdifference hpositive
  have hfull := two_zpow_le_of_one_le hpositive
  have hnear :=
    Near.trans (by norm_num) ((Fraction.isRounded_significant (.inr hfull)).near hfull) hdifference
  exact hnear.mono (by linarith only [hlarge]) (by norm_num)

theorem one_le_logb {n : Nat} (hn : 10 ≤ n) : 1 ≤ logb 10 n := by
  rw [← Real.logb_self_eq_one (show (1 : ℝ) < 10 by norm_num)]
  exact Real.logb_le_logb_of_le (by norm_num) (by norm_num) (by exact_mod_cast hn)

/-- **Logarithms of whole numbers**, of any size, have less than five units of error in the last
place of one. -/
theorem near_logTen {n : Nat} (hn : 10 ≤ n) : Near (5 / 2 ^ 53) (logTen n).toRat (logb 10 n) := by
  rcases lt_or_ge (Fraction.ofNat n).significant.toRat (2 ^ (1024 : ℤ)) with hlt | hle
  · obtain ⟨q, hrounded, hclose⟩ := exists_logTen (by omega) hlt
    have hone := one_le_logb hn
    obtain ⟨hgt, hlt⟩ := abs_lt.mp hclose
    have hhalf : 1 / 2 ≤ q := by
      rw [← Rat.cast_le (K := ℝ)]
      push_cast
      linarith only [hgt, hone]
    obtain ⟨hlow, hhigh⟩ := abs_le.mp (hrounded.near (two_zpow_le_of_half_le hhalf))
    exact abs_le.mpr ⟨by linarith only [hlow, hgt, hlt, hone], by linarith only [hhigh, hlt, hone]⟩
  · exact near_logTen_of_le (by omega) hle

end Spellbook
