import Spellbook.Proofs.NumberOrder
import Spellbook.Proofs.WholeArithmetic

/-!
# Quotients that are rounded up

A quotient of whole numbers that is rounded down is calculated with whole numbers. One that is
rounded up is made a float first, and what 53 binary digits cannot write is lost before it is
rounded (`meaning_roundedUp`). As long as the dividend has no more digits than that, and the divisor
is not so large that the quotient vanishes, nothing that matters is lost: a quotient that is not
whole keeps away from the whole numbers by more than half a unit of its last place
(`IsRounded.ceil_eq`). Beyond that the result may be below the quotient, or there may be none
(`ceiling_division`).
-/

namespace Spellbook

/-! ### Quotients as floats -/

theorem quotient_eq (a b : ℤ) : (a / b : ℚ) = if (decide (a < 0) != decide (b < 0)) = true
    then -((a.natAbs : ℚ) / b.natAbs) else (a.natAbs : ℚ) / b.natAbs := by
  rw [Nat.cast_natAbs, Nat.cast_natAbs, Int.cast_abs, Int.cast_abs]
  by_cases ha : a < 0
  · have ha' : (a : ℚ) < 0 := by exact_mod_cast ha
    by_cases hb : b < 0
    · have hb' : (b : ℚ) < 0 := by exact_mod_cast hb
      simp [ha, hb, abs_of_neg ha', abs_of_neg hb']
    · have hb' : (0 : ℚ) ≤ b := by exact_mod_cast not_lt.mp hb
      simp [ha, hb, abs_of_neg ha', abs_of_nonneg hb', neg_div]
  · have ha' : (0 : ℚ) ≤ a := by exact_mod_cast not_lt.mp ha
    by_cases hb : b < 0
    · have hb' : (b : ℚ) < 0 := by exact_mod_cast hb
      simp [ha, hb, abs_of_nonneg ha', abs_of_neg hb', div_neg]
    · have hb' : (0 : ℚ) ≤ b := by exact_mod_cast not_lt.mp hb
      simp [ha, hb, abs_of_nonneg ha', abs_of_nonneg hb']

/-- The float of a quotient stands for the quotient, rounded to 53 binary digits, unless that is too
large. -/
theorem floatOfQuotient?_spec (a : ℤ) {b : ℤ} (hb : b ≠ 0) : ∃ r, IsRounded (a / b) r ∧
    (|r| < 2 ^ (1024 : ℤ) → ∃ x, floatOfQuotient? a b = some x ∧ Denotes x r) ∧
    (2 ^ (1024 : ℤ) ≤ |r| → floatOfQuotient? a b = none) := by
  rw [quotient_eq, floatOfQuotient?]
  generalize (decide (a < 0) != decide (b < 0)) = negative
  obtain ⟨r, hrounded, hnonneg, hsmall, hlarge⟩ :=
    nearestFloat_spec negative a.natAbs (Int.natAbs_pos.mpr hb)
  have habs : |if negative = true then -r else r| = r := by
    split
    · rw [abs_neg, abs_of_nonneg hnonneg]
    · exact abs_of_nonneg hnonneg
  refine ⟨if negative = true then -r else r, ?_, fun hr => ?_, fun hr => ?_⟩
  · split
    · exact hrounded.neg
    · exact hrounded
  · rw [habs] at hr
    exact ⟨_, by rw [(hsmall hr).isInf_eq_false]; rfl, hsmall hr⟩
  · rw [habs] at hr
    rw [hlarge hr]
    cases negative <;> rfl

/-- The whole number that a float is rounded to. -/
theorem Denotes.wholeOf_eq {x : Float} {q : ℚ} (hx : Denotes x q) (way : Rounding) :
    ∃ z, wholeOf way.rule x = .ok z ∧ way.Rounds q z := by
  obtain ⟨d, hview, rfl⟩ := hx
  exact ⟨way.rule d, by rw [wholeOf, hview], way.rounds_rule d⟩

theorem reckon_divide {b : ℤ} (hb : b ≠ 0) (a : ℤ) : Value.reckon .divide (.int a) (.int b) =
    (floatOfQuotient? a b).elim (.error .quotientTooLarge) fun x => .ok (.float x) := by
  show (if (b == 0) = true then .error .divisionByZero else
    Value.Outcome.ofNum (Num.div (.int a) (.int b)) : Fallible Value.Outcome) >>= _ = _
  rw [if_neg (by simpa using hb), Num.div, Num.lift]
  cases floatOfQuotient? a b <;> rfl

section
variable {l r : Tree} {a b : ℤ} {n k : Nat} {m m₁ m₂ : Machine}
  (hl : l.meaning n m = (.done (.rune (.int a)), m₁))
    (hr : r.meaning n m₁ = (.done (.rune (.int b)), m₂))
  (hk : n < k) (hb : b ≠ 0)
include hl hr hk hb

/-- A quotient that is rounded up is made a float before. -/
theorem meaning_roundedUp : ∃ q, IsRounded (a / b) q ∧ (Tree.operation "^/" l r).meaning k m =
    (if |q| < 2 ^ (1024 : ℤ) then .done (.rune (.int ⌈q⌉)) else .failed .quotientTooLarge, m₂) := by
  obtain ⟨q, hrounded, hsmall, hlarge⟩ := floatOfQuotient?_spec a hb
  refine ⟨q, hrounded, ?_⟩
  have hop : Calculation.ofOperator? "^/" = some ⟨.divide, some .up⟩ := by decide
  rw [meaning_calculation (a := .int a) (b := .int b) hl hr hk hop,
    Calculation.apply_numbers rfl rfl]
  show (liftM
    ((Value.reckon .divide (.int a) (.int b) >>= fun v =>
      (v.rounded .up).map .int).map Datum.rune) :
    Spell Datum) m₂ = _
  by_cases hq : |q| < 2 ^ (1024 : ℤ)
  · obtain ⟨x, hx, hdenotes⟩ := hsmall hq
    obtain ⟨z, hwhole, hz⟩ := hdenotes.wholeOf_eq .up
    obtain rfl : z = ⌈q⌉ := hz
    rw [reckon_divide hb, hx, if_pos hq]
    show (liftM (((wholeOf Rounding.up.rule x).map Value.int).map Datum.rune) : Spell Datum) m₂ = _
    rw [hwhole]
    rfl
  · rw [reckon_divide hb, hlarge (not_lt.mp hq), if_neg hq]
    rfl

end

/-! ### Quotients that lose nothing that matters -/

/-- A quotient that is not whole keeps away from the whole numbers. -/
theorem inv_le_sub_floor {a b : ℤ} (hb : b ≠ 0) {z : ℤ} (hz : (z : ℚ) < a / b) :
    (1 : ℚ) / |(b : ℚ)| ≤ a / b - z := by
  have hpos : (0 : ℚ) < |(b : ℚ)| := abs_pos.mpr (by exact_mod_cast hb)
  have hne : (b : ℚ) ≠ 0 := by exact_mod_cast hb
  -- in units of the divisor the two are a whole number apart
  have hunits : (a / b - z) * |(b : ℚ)| = ((b.sign * (a - z * b) : ℤ) : ℚ) := by
    have habs : |(b : ℚ)| = b.sign * b := by exact_mod_cast (Int.sign_mul_self_eq_abs b).symm
    rw [habs]
    push_cast
    field_simp
  have hlt : (0 : ℚ) < ((b.sign * (a - z * b) : ℤ) : ℚ) := hunits ▸ mul_pos (sub_pos.mpr hz) hpos
  have hone : 1 ≤ b.sign * (a - z * b) := by exact_mod_cast hlt
  rw [div_le_iff₀ hpos, hunits]
  exact_mod_cast hone

theorem abs_quotient_le {a b : ℤ} (hb : b ≠ 0) (ha : |a| ≤ 2 ^ 53) : |(a / b : ℚ)| ≤ 2 ^ 53 := by
  have hone : (1 : ℚ) ≤ |(b : ℚ)| := by exact_mod_cast Int.one_le_abs hb
  have ha' : |(a : ℚ)| ≤ 2 ^ 53 := by exact_mod_cast ha
  rw [abs_div, div_le_iff₀ (zero_lt_one.trans_le hone)]
  exact ha'.trans (le_mul_of_one_le_right (by positivity) hone)

/-- **A quotient that is rounded to 53 binary digits keeps its ceiling**, if the dividend has no
more digits and the divisor is not so large that the quotient vanishes. -/
theorem IsRounded.ceil_eq {a b : ℤ} {r : ℚ} (h : IsRounded (a / b) r) (hb : b ≠ 0)
    (ha : |a| ≤ 2 ^ 53) (hlarge : |b| < 2 ^ 1075) : ⌈r⌉ = ⌈(a / b : ℚ)⌉ := by
  have hpos : (0 : ℚ) < |(b : ℚ)| := abs_pos.mpr (by exact_mod_cast hb)
  have ha' : |(a : ℚ)| ≤ 2 ^ (53 : ℤ) := by exact_mod_cast ha
  have hb' : |(b : ℚ)| < 2 ^ (1075 : ℤ) := by
    rw [← Int.cast_abs, zpow_ofNat, ← Int.cast_ofNat, ← Int.cast_pow, Int.cast_lt]
    exact hlarge
  have hceil : |⌈(a / b : ℚ)⌉| ≤ 2 ^ 53 := by
    have hq := abs_le.mp (abs_quotient_le hb ha)
    rw [abs_le]
    refine ⟨?_, Int.ceil_le.mpr (by push_cast; exact hq.2)⟩
    have hle : ((-2 ^ 53 : ℤ) : ℚ) ≤ ⌈(a / b : ℚ)⌉ := by
      push_cast
      exact hq.1.trans (Int.le_ceil _)
    exact_mod_cast hle
  rw [Int.ceil_eq_iff]
  refine ⟨?_, h.le_of_le (isRounded_intCast hceil) (Int.le_ceil _)⟩
  -- half a unit of the last place is less than the divisor's part of one, unless the quotient is a
  -- power of two
  have hbelow : ((⌈(a / b : ℚ)⌉ - 1 : ℤ) : ℚ) < a / b := by
    push_cast
    linarith [Int.ceil_lt_add_one (a / b : ℚ)]
  have haway := inv_le_sub_floor hb hbelow
  push_cast at haway
  obtain ⟨t, hplace, herror⟩ := h.exists_abs_sub_le
  by_cases hpower : |(a / b : ℚ)| = 2 ^ (t + 52)
  · have hself : IsRounded (a / b : ℚ) (a / b : ℚ) := by
      rcases abs_eq (by positivity) |>.mp hpower with hq | hq
      · refine hplace.isRounded_self (k := 2 ^ 52) ?_
        rw [hq, add_comm, zpow_add₀ two_ne_zero]
        norm_num
      · refine hplace.isRounded_self (k := -2 ^ 52) ?_
        rw [hq, add_comm, zpow_add₀ two_ne_zero]
        norm_num
    rw [h.unique hself]
    push_cast at hbelow
    exact hbelow
  · have hhalf : (2 : ℚ) ^ t / 2 < 1 / |(b : ℚ)| := by
      rw [lt_div_iff₀ hpos]
      obtain rfl | hlow := hplace.2.1
      · calc (2 : ℚ) ^ (-1074 : ℤ) / 2 * |(b : ℚ)| < 2 ^ (-1074 : ℤ) / 2 * 2 ^ (1075 : ℤ) := by
              gcongr
          _ = 1 := by
              rw [show (1075 : ℤ) = 1 + 1074 by norm_num, zpow_add₀ two_ne_zero, zpow_neg]
              field_simp
      · have hlt : (2 : ℚ) ^ (t + 52) * |(b : ℚ)| < 2 ^ (53 : ℤ) := by
          have hless := lt_of_le_of_ne hlow (Ne.symm hpower)
          rw [abs_div, lt_div_iff₀ hpos] at hless
          exact hless.trans_le ha'
        rw [zpow_add₀ two_ne_zero] at hlt
        norm_num at hlt ⊢
        linarith
    have hleast := (abs_le.mp herror).2
    linarith

/-- The quotient that is rounded down is the floor. -/
theorem fdiv_eq_floor {b : ℤ} (hb : b ≠ 0) (a : ℤ) : a.fdiv b = ⌊(a / b : ℚ)⌋ := by
  have hb' : (b : ℚ) ≠ 0 := by exact_mod_cast hb
  have hlaw : (a : ℚ) = a.fdiv b * b + a.fmod b := by
    exact_mod_cast (Int.fdiv_mul_add_fmod a b).symm
  have hquotient : (a / b : ℚ) = a.fdiv b + a.fmod b / b := by
    rw [div_eq_iff hb', add_mul, div_mul_cancel₀ _ hb']
    exact hlaw
  symm
  rw [Int.floor_eq_iff, hquotient]
  obtain ⟨hlow, hhigh⟩ | ⟨hlow, hhigh⟩ := fmod_between hb a
  · have hpos : (0 : ℚ) < b := by exact_mod_cast hlow.trans_lt hhigh
    have hlow' : (0 : ℚ) ≤ a.fmod b / b := div_nonneg (by exact_mod_cast hlow) hpos.le
    have hhigh' : (a.fmod b : ℚ) / b < 1 := (div_lt_one hpos).mpr (by exact_mod_cast hhigh)
    constructor <;> linarith
  · have hneg : (b : ℚ) < 0 := by exact_mod_cast hlow.trans_le hhigh
    have hlow' : (0 : ℚ) ≤ a.fmod b / b := div_nonneg_of_nonpos (by exact_mod_cast hhigh) hneg.le
    have hhigh' : (a.fmod b : ℚ) / b < 1 := (div_lt_one_of_neg hneg).mpr (by exact_mod_cast hlow)
    constructor <;> linarith

theorem floor_eq_ceil_iff_dvd {b : ℤ} (hb : b ≠ 0) (a : ℤ) :
    ⌊(a / b : ℚ)⌋ = ⌈(a / b : ℚ)⌉ ↔ b ∣ a := by
  have hb' : (b : ℚ) ≠ 0 := by exact_mod_cast hb
  constructor
  · intro h
    have hfloor := Int.floor_le (a / b : ℚ)
    rw [h] at hfloor
    have hwhole : (a / b : ℚ) = ⌈(a / b : ℚ)⌉ := le_antisymm (Int.le_ceil _) hfloor
    rw [div_eq_iff hb'] at hwhole
    exact ⟨_, by rw [mul_comm]; exact_mod_cast hwhole⟩
  · rintro ⟨c, rfl⟩
    rw [Int.cast_mul, mul_div_cancel_left₀ _ hb', Int.floor_intCast, Int.ceil_intCast]

/-- A number that does not exceed `2 ^ 53` is not rounded beyond it. -/
theorem IsRounded.abs_le_of_abs_le {q r : ℚ} (h : IsRounded q r) (hq : |q| ≤ 2 ^ 53) :
    |r| ≤ 2 ^ 53 := by
  have hself := isRounded_intCast (k := 2 ^ 53) (by decide)
  push_cast at hself
  obtain ⟨hlow, hhigh⟩ := abs_le.mp hq
  exact abs_le.mpr ⟨h.ge_of_ge hself.neg hlow, h.le_of_le hself hhigh⟩

section
variable {l r : Tree} {a b : ℤ} {n k : Nat} {m m₁ m₂ : Machine}

/-- **What becomes of a quotient that is rounded up.** It is the ceiling of the quotient rounded to
53 binary digits, or there is none if that is too large for a float. The ceiling is that of the
quotient itself if the dividend has no more digits and the divisor is not so large that the quotient
vanishes. Then it is the quotient that is rounded down if the divisor divides the dividend, and one
more if it does not. -/
theorem ceiling_division (hl : l.meaning n m = (.done (.rune (.int a)), m₁))
    (hr : r.meaning n m₁ = (.done (.rune (.int b)), m₂)) (hk : n < k) (hb : b ≠ 0) :
    (∃ q, IsRounded (a / b) q ∧ (Tree.operation "^/" l r).meaning k m =
      (if |q| < 2 ^ (1024 : ℤ) then .done (.rune (.int ⌈q⌉)) else .failed .quotientTooLarge, m₂)) ∧
    (|a| ≤ 2 ^ 53 → |b| < 2 ^ 1075 → ∃ down up,
      (Tree.operation "//" l r).meaning k m = (.done (.rune (.int down)), m₂) ∧
      (Tree.operation "^/" l r).meaning k m = (.done (.rune (.int up)), m₂) ∧
      up = ⌈(a / b : ℚ)⌉ ∧ down ≤ up ∧ up ≤ down + 1 ∧ (down = up ↔ b ∣ a)) := by
  obtain ⟨q, hrounded, hmeaning⟩ := meaning_roundedUp hl hr hk hb
  refine ⟨⟨q, hrounded, hmeaning⟩, fun ha hlarge => ⟨a.fdiv b, ⌈(a / b : ℚ)⌉, ?_, ?_, rfl, ?_⟩⟩
  · exact meaning_of_reckon hl hr hk (c := ⟨.floorDivide, none⟩) (by decide)
      (reckon_floorDivide hb a)
  · rw [hmeaning, hrounded.ceil_eq hb ha hlarge, if_pos]
    calc |q| ≤ 2 ^ 53 := hrounded.abs_le_of_abs_le (abs_quotient_le hb ha)
      _ = 2 ^ (53 : ℤ) := by norm_num
      _ < 2 ^ (1024 : ℤ) := zpow_lt_zpow_right₀ one_lt_two (by decide)
  · rw [fdiv_eq_floor hb]
    exact ⟨Int.floor_le_ceil _, Int.ceil_le_floor_add_one _, floor_eq_ceil_iff_dvd hb a⟩

end

/-- The dividend is the greatest that is sure to lose nothing. -/
theorem ceiling_division_greatest :
    (Tree.leaf .whole "9007199254740992").meaning 1 {} =
      (.done (.rune (.int 9007199254740992)), {}) ∧
      (Tree.leaf .whole "3").meaning 1 {} = (.done (.rune (.int 3)), {}) ∧
      ∃ down up,
        (Tree.operation "//" (.leaf .whole "9007199254740992") (.leaf .whole "3")).meaning 2 {} =
          (.done (.rune (.int down)), {}) ∧
        (Tree.operation "^/" (.leaf .whole "9007199254740992") (.leaf .whole "3")).meaning 2 {} =
          (.done (.rune (.int up)), {}) ∧
        up = ⌈((9007199254740992 : ℤ) / (3 : ℤ) : ℚ)⌉ ∧ down ≤ up ∧ up ≤ down + 1 ∧
        (down = up ↔ (3 : ℤ) ∣ 9007199254740992) := by
  have hl : (Tree.leaf .whole "9007199254740992").meaning 1 {} =
      (.done (.rune (.int 9007199254740992)), {}) := rfl
  have hr : (Tree.leaf .whole "3").meaning 1 {} = (.done (.rune (.int 3)), {}) := rfl
  have hdivisor : |(3 : ℤ)| < 2 ^ 1075 :=
    lt_of_lt_of_le (by decide : |(3 : ℤ)| < 2 ^ 2) (pow_le_pow_right₀ (by decide) (by decide))
  exact ⟨hl, hr, (ceiling_division hl hr (by decide : 1 < 2) (by decide)).2 (by decide) hdivisor⟩

/-- The next dividend loses its last digit, and the quotient that is rounded up falls below the one
that is rounded down. -/
theorem last_digit_is_lost :
    (Tree.operation "//" (.leaf .whole "9007199254740993") (.leaf .whole "1")).meaning 2 {} =
        (.done (.rune (.int 9007199254740993)), {}) ∧
      (Tree.operation "^/" (.leaf .whole "9007199254740993") (.leaf .whole "1")).meaning 2 {} =
        (.done (.rune (.int 9007199254740992)), {}) ∧
      ⌈(9007199254740993 / 1 : ℚ)⌉ = 9007199254740993 := by
  refine ⟨rfl, rfl, ?_⟩
  rw [div_one]
  exact Int.ceil_ofNat 9007199254740993

end Spellbook
