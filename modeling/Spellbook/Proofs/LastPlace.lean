import Spellbook.Proofs.FloatArithmetic

/-!
# Rounding in the last place

More of what rounding keeps. Every number has a last place (`exists_isLastPlace`), and those that 53
binary digits can write are rounded to themselves (`isRounded_dyadic`): no number passes them when
it is rounded. The error is a small part of the number (`IsRounded.abs_sub_le_mul`).
-/

namespace Spellbook

variable {q r : ℚ}

/-- The last place of a number between two powers of two. -/
theorem isLastPlace_of_order {n : ℤ} (hlow : (2 : ℚ) ^ n ≤ |q|) (hhigh : |q| < 2 ^ (n + 1)) :
    IsLastPlace q (max (n - 52) (-1074)) := by
  refine ⟨le_max_right _ _, ?_, hhigh.trans_le (zpow_le_zpow_right₀ one_le_two (by omega))⟩
  rcases le_total (n - 52) (-1074) with hle | hle
  · exact .inl (max_eq_right hle)
  · refine .inr ?_
    rw [max_eq_left hle, sub_add_cancel]
    exact hlow

theorem exists_isLastPlace (q : ℚ) : ∃ t, IsLastPlace q t := by
  rcases eq_or_ne q 0 with rfl | hq
  · refine ⟨-1074, le_rfl, .inl rfl, ?_⟩
    rw [abs_zero]
    positivity
  · obtain ⟨n, hlow, hhigh⟩ := exists_mem_Ico_zpow (abs_pos.mpr hq) one_lt_two
    exact ⟨_, isLastPlace_of_order hlow hhigh⟩

theorem isNearest_intCast (k : ℤ) : IsNearest k k := by
  simp [IsNearest]

/-- A multiple of its last place is not rounded. -/
theorem IsLastPlace.isRounded_self {t k : ℤ} (ht : IsLastPlace q t) (hq : q = k * 2 ^ t) :
    IsRounded q q := by
  refine ⟨t, k, hq, ht, ?_⟩
  rw [hq, mul_div_cancel_right₀ _ (by positivity)]
  exact isNearest_intCast k

/-! ### Numbers that are not rounded -/

/-- **What 53 binary digits can write is not rounded.** -/
theorem isRounded_dyadic {z e : ℤ} (hz : |z| ≤ 2 ^ 53) (he : -1074 ≤ e) :
    IsRounded (z * 2 ^ e) (z * 2 ^ e) := by
  obtain ⟨t, ht⟩ := exists_isLastPlace ((z : ℚ) * 2 ^ e)
  have habs : |(z : ℚ) * 2 ^ e| = |(z : ℚ)| * 2 ^ e := by
    rw [abs_mul, abs_of_pos (by positivity : (0 : ℚ) < 2 ^ e)]
  rcases le_or_gt t e with hle | hlt
  · obtain ⟨j, rfl⟩ : ∃ j : Nat, e = t + j := ⟨(e - t).toNat, by omega⟩
    refine ht.isRounded_self (k := z * 2 ^ j) ?_
    rw [zpow_add₀ two_ne_zero, zpow_natCast]
    push_cast
    ring
  · -- only the power of two with one digit more has its last place higher
    have hlow : (2 : ℚ) ^ (t + 52) ≤ |(z : ℚ)| * 2 ^ e := habs ▸ ht.2.1.resolve_left (by omega)
    have hz' : |(z : ℚ)| ≤ 2 ^ (53 : ℤ) := by exact_mod_cast hz
    have hnext : t = e + 1 := by
      have hpower : (2 : ℚ) ^ (t + 52) ≤ 2 ^ (53 + e) := by
        rw [zpow_add₀ two_ne_zero 53 e]
        exact hlow.trans (mul_le_mul_of_nonneg_right hz' (by positivity))
      have := (zpow_le_zpow_iff_right₀ (one_lt_two : (1 : ℚ) < 2)).mp hpower
      omega
    subst hnext
    have hfull : |z| = 2 ^ 53 := by
      refine le_antisymm hz ?_
      rw [show e + 1 + 52 = 53 + e by ring, zpow_add₀ two_ne_zero] at hlow
      have := le_of_mul_le_mul_right hlow (by positivity)
      exact_mod_cast this
    obtain ⟨k, rfl⟩ : ∃ k, z = 2 * k := by
      rcases abs_eq (by positivity) |>.mp hfull with h | h
      · exact ⟨2 ^ 52, by rw [h]; norm_num⟩
      · exact ⟨-2 ^ 52, by rw [h]; norm_num⟩
    refine ht.isRounded_self (k := k) ?_
    rw [zpow_add₀ two_ne_zero, zpow_one]
    push_cast
    ring

theorem isRounded_intCast {k : ℤ} (hk : |k| ≤ 2 ^ 53) : IsRounded k k := by
  have hself := isRounded_dyadic hk (by decide : (-1074 : ℤ) ≤ 0)
  rwa [zpow_zero, mul_one] at hself

/-- A whole number less one unit of a binary place is not rounded, if it has no more than 53 digits
up to there. -/
theorem isRounded_sub_unit {d e : Nat} (h : d * 2 ^ e ≤ 2 ^ 53) (he : e ≤ 53) :
    IsRounded (d - 1 / 2 ^ e) (d - 1 / 2 ^ e) := by
  have hz : |(d * 2 ^ e - 1 : ℤ)| ≤ 2 ^ 53 := by
    have hnonneg : 0 ≤ (d * 2 ^ e : ℤ) := by positivity
    have hle : (d * 2 ^ e : ℤ) ≤ 2 ^ 53 := by exact_mod_cast h
    exact abs_le.mpr ⟨by linarith, by linarith⟩
  have hself := isRounded_dyadic hz (show (-1074 : ℤ) ≤ -e by omega)
  have hvalue : ((d * 2 ^ e - 1 : ℤ) : ℚ) * 2 ^ (-e : ℤ) = d - 1 / 2 ^ e := by
    rw [zpow_neg, zpow_natCast, ← div_eq_mul_inv]
    push_cast
    rw [sub_div, mul_div_cancel_right₀ _ (by positivity)]
  rwa [hvalue] at hself

/-! ### How far a number is rounded -/

/-- Numbers that are not too small have all their digits. -/
theorem two_zpow_le_of_half_le (hq : 1 / 2 ≤ q) : (2 : ℚ) ^ (-1022 : ℤ) ≤ q := by
  calc (2 : ℚ) ^ (-1022 : ℤ) ≤ 2 ^ (-1 : ℤ) := zpow_le_zpow_right₀ one_le_two (by decide)
    _ ≤ q := by rwa [zpow_neg_one, ← one_div]

theorem two_zpow_le_of_one_le (hq : 1 ≤ q) : (2 : ℚ) ^ (-1022 : ℤ) ≤ q :=
  two_zpow_le_of_half_le (one_half_lt_one.le.trans hq)

/-- The error of rounding is a small part of the number, if that has all its digits. -/
theorem IsRounded.abs_sub_le_mul (h : IsRounded q r) (hq : (2 : ℚ) ^ (-1022 : ℤ) ≤ |q|) :
    |q - r| ≤ |q| / 2 ^ 53 := by
  obtain ⟨t, ⟨-, hlow, -⟩, hle⟩ := h.exists_abs_sub_le
  have hfull : (2 : ℚ) ^ (t + 52) ≤ |q| := by
    obtain rfl | hlow := hlow
    · exact hq
    · exact hlow
  refine hle.trans ?_
  rw [le_div_iff₀ (by positivity)]
  rw [zpow_add₀ two_ne_zero] at hfull
  norm_num at hfull ⊢
  linarith

end Spellbook
