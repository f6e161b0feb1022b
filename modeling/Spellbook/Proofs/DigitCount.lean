import Spellbook.Proofs.Logarithm
import Spellbook.Proofs.Truth

/-!
# How whole numbers are measured

A whole number is measured by its logarithm, which is a float, and not by its digits. Which float
that is depends on the machine; `IsCommonLog` says how accurate it has to be. The logarithm of a
number just below a power of ten may be rounded up to a whole number, and then the length is one too
many. It can also be one too few. Either happens only to numbers of more than thirteen digits
(`logLength_of_lt`) that are near to a power of ten (`sub_lt_of_lt_logLength`,
`sub_lt_of_logLength_lt`).
-/

namespace Spellbook

open Real (logb)

/-! ### Digits -/

/-- The number of digits that a number is written with. -/
def digitCount (n : Nat) : Nat := (Decimal.natText n).length

/-- The digits are counted as they are written. -/
theorem digitCount_eq (n : Nat) : digitCount n = (Nat.toDigits 10 n).length := String.length_ofList

theorem digitCount_pos (n : Nat) : 0 < digitCount n := by
  rw [digitCount_eq]
  exact Nat.length_toDigits_pos

/-- A number is below the power of ten that its digits count. -/
theorem lt_pow_digitCount (n : Nat) : n < 10 ^ digitCount n := by
  rw [digitCount_eq]
  exact (Nat.length_toDigits_le_iff (by decide) Nat.length_toDigits_pos).mp le_rfl

/-- A number below a power of ten has no more digits. -/
theorem digitCount_le {n d : Nat} (hd : 0 < d) (h : n < 10 ^ d) : digitCount n ≤ d := by
  rw [digitCount_eq]
  exact (Nat.length_toDigits_le_iff (by decide) hd).mpr h

/-- A number of some digits is at least the power of ten below. -/
theorem pow_le_of_digitCount_eq {n d : Nat} (hn : 0 < n) (hd : digitCount n = d + 1) :
    10 ^ d ≤ n := by
  rcases Nat.eq_zero_or_pos d with rfl | hpos
  · exact hn
  · refine Nat.le_of_not_lt fun hlt => ?_
    have := digitCount_le hpos hlt
    omega

/-- A positive number has one digit more than the whole part of its logarithm. -/
theorem logb_digitCount {n : Nat} (hn : 0 < n) :
    digitCount n - 1 ≤ logb 10 n ∧ logb 10 n < digitCount n := by
  have hn' : (0 : ℝ) < n := by exact_mod_cast hn
  obtain ⟨d, hd⟩ : ∃ d, digitCount n = d + 1 :=
    ⟨_, (Nat.succ_pred_eq_of_pos (digitCount_pos n)).symm⟩
  constructor
  · rw [hd, Nat.cast_succ, add_sub_cancel_right, Real.le_logb_iff_rpow_le (by norm_num) hn',
      Real.rpow_natCast]
    exact_mod_cast pow_le_of_digitCount_eq hn hd
  · rw [Real.logb_lt_iff_lt_rpow (by norm_num) hn', Real.rpow_natCast]
    exact_mod_cast lt_pow_digitCount n

/-! ### Logarithms of a machine -/

/-- `log` gives the common logarithms of whole numbers as floats, with an error of less than eight
units in the last place, and with none for the powers of ten that a float holds. -/
structure IsCommonLog (log : Nat → Fraction) : Prop where
  near : ∀ n, 0 < n → Near (1 / 2 ^ 50) (log n).toRat (logb 10 n)
  exact : ∀ j : Nat, j ≤ 22 → (log (10 ^ j)).toRat = j

/-- The small powers of ten have exact logarithms. -/
theorem logTen_pow : ∀ j ≤ 22, (logTen (10 ^ j)).num = j * (logTen (10 ^ j)).den := by
  decide +kernel

/-- The logarithm of a digit is near to a float, as all others are. -/
theorem near_logTen_digit {n : Nat} (htwo : 2 ≤ n) (hten : n < 10) :
    Near (1 / 2 ^ 50) (logTen n).toRat (logb 10 n) := by
  have hten' : (n : ℚ) ≤ (10 : ℤ) := by exact_mod_cast hten.le
  have hsmall : (Fraction.ofNat n).significant.toRat < 2 ^ (1024 : ℤ) := by
    calc (Fraction.ofNat n).significant.toRat ≤ (10 : ℤ) :=
          (isRounded_significant_ofNat (by omega)).le_of_le (isRounded_intCast (by decide)) hten'
      _ < 2 ^ (4 : ℤ) := by norm_num
      _ ≤ 2 ^ (1024 : ℤ) := zpow_le_zpow_right₀ one_le_two (by decide)
  obtain ⟨q, hrounded, hclose⟩ := exists_logTen (by omega) hsmall
  obtain ⟨hgt, hlt⟩ := abs_lt.mp hclose
  have hlog : 0.3 ≤ logb 10 n :=
    le_logb_two.trans (Real.logb_le_logb_of_le (by norm_num) two_pos (by exact_mod_cast htwo))
  have hquarter : 1 / 4 ≤ q := by
    rw [← Rat.cast_le (K := ℝ)]
    push_cast
    linarith only [hgt, hlog]
  have hfull : (2 : ℚ) ^ (-1022 : ℤ) ≤ q :=
    (zpow_le_zpow_right₀ one_le_two (by decide : (-1022 : ℤ) ≤ -2)).trans
      (by norm_num; linarith only [hquarter])
  obtain ⟨hlow, hhigh⟩ := abs_le.mp (hrounded.near hfull)
  exact abs_le.mpr ⟨by linarith only [hlow, hgt, hlt, hlog], by linarith only [hhigh, hlt, hlog]⟩

/-- The logarithms that are computed here are accurate enough. -/
theorem isCommonLog_logTen : IsCommonLog logTen := by
  have hexact : ∀ j : Nat, j ≤ 22 → (logTen (10 ^ j)).toRat = j := fun j hj => by
    rw [Fraction.toRat, logTen_pow j hj, Nat.cast_mul, mul_div_assoc, div_self, mul_one]
    exact_mod_cast (logTen (10 ^ j)).den_pos.ne'
  refine ⟨fun n hn => ?_, hexact⟩
  rcases Nat.lt_or_ge n 10 with hten | hten
  · rcases Nat.lt_or_ge n 2 with hone | htwo
    · obtain rfl : n = 1 := by omega
      have hzero := hexact 0 (by decide)
      norm_num at hzero
      simp [Near, hzero]
    · exact near_logTen_digit htwo hten
  · exact (near_logTen hten).mono (by linarith only [one_le_logb hten]) (by norm_num)

/-! ### The length that a logarithm gives -/

/-- One more than the logarithm, without the fractional part. -/
def logLength (log : Nat → Fraction) (n : Nat) : Nat := (log n).succ.significant.whole

section
variable (log : Nat → Fraction) {n d : Nat}

theorem isRounded_log_succ (n : Nat) :
    IsRounded ((log n).toRat + 1) (log n).succ.significant.toRat := by
  rw [← Fraction.toRat_succ]
  refine Fraction.isRounded_significant (.inr (two_zpow_le_of_one_le ?_))
  rw [Fraction.toRat_succ]
  linarith [(log n).toRat_nonneg]

/-- A length is reached if the logarithm reaches it. -/
theorem le_logLength (hd : d ≤ 2 ^ 53) (h : d ≤ (log n).toRat + 1) : d ≤ logLength log n := by
  have hself := isRounded_intCast (k := d) (by rw [Nat.abs_cast]; exact_mod_cast hd)
  have hle := (isRounded_log_succ log n).ge_of_ge hself h
  have : (d : ℤ) ≤ logLength log n := by
    rw [logLength, Fraction.whole_eq]
    exact Int.le_floor.mpr hle
  exact_mod_cast this

/-- A length is not passed if the logarithm stays below. -/
theorem logLength_le {p : ℚ} (hp : IsRounded (p + 1) (p + 1)) (h : (log n).toRat ≤ p) (hd : p < d) :
    logLength log n ≤ d := by
  have hle := (isRounded_log_succ log n).le_of_le hp (by linarith)
  have : (logLength log n : ℤ) < d + 1 := by
    rw [logLength, Fraction.whole_eq, Int.floor_lt]
    push_cast
    linarith
  omega

end

/-! ### Numbers that are measured as they should be -/

/-- The logarithm of a number that falls short of a power of ten. -/
theorem logb_le_of_le {n d : Nat} {u : ℝ} (hn : 0 < n) (hu : 0 ≤ u)
    (h : (n : ℝ) ≤ 10 ^ d * (1 - u)) :
    logb 10 n ≤ d - 0.4 * u := by
  have hle := logb_le_sub (by exact_mod_cast hn) (by positivity) hu h
  rwa [Real.logb_pow, Real.logb_self_eq_one (by norm_num), mul_one] at hle

/-- The logarithm of a number that exceeds a power of ten. -/
theorem le_logb_of_le {n d : Nat} {u : ℝ} (hu : 0 ≤ u) (h : 10 ^ d * (1 + u) ≤ (n : ℝ))
    (hn : n < 10 ^ (d + 1)) :
    d + 0.04 * u ≤ logb 10 n := by
  have hpos : (0 : ℝ) < 10 ^ d := by positivity
  have hsmall : u ≤ 9 := by
    have hlt : (n : ℝ) < 10 ^ d * 10 := by exact_mod_cast hn
    linarith only [lt_of_mul_lt_mul_left (h.trans_lt hlt) hpos.le]
  have hle := add_le_logb hpos hu hsmall h
  rwa [Real.logb_pow, Real.logb_self_eq_one (by norm_num), mul_one] at hle

section
variable {log : Nat → Fraction} (hlog : IsCommonLog log) {n : Nat}
include hlog

/-- Up to thirteen digits no logarithm is rounded to the number of digits. -/
theorem logLength_le_digitCount (hn : 0 < n) (hcount : digitCount n ≤ 13) :
    logLength log n ≤ digitCount n := by
  have hshort : (n : ℝ) ≤ 10 ^ digitCount n * (1 - 1 / 10 ^ 13) := by
    have hle : (n : ℝ) + 1 ≤ 10 ^ digitCount n := by exact_mod_cast lt_pow_digitCount n
    have hpower : (10 : ℝ) ^ digitCount n ≤ 10 ^ 13 := pow_le_pow_right₀ (by norm_num) hcount
    linarith
  have hcount' : (digitCount n : ℝ) ≤ 13 := by exact_mod_cast hcount
  have hmost : (log n).toRat ≤ digitCount n - 1 / 2 ^ 46 := by
    rw [← Rat.cast_le (K := ℝ)]
    push_cast
    linarith only [(abs_le.mp (hlog.near n hn)).2, logb_le_of_le hn (by norm_num) hshort, hcount']
  have hself := isRounded_sub_unit (d := digitCount n + 1) (e := 46) (by omega) (by decide)
  rw [Nat.cast_succ, add_sub_right_comm] at hself
  exact logLength_le log hself hmost (sub_lt_self _ (by norm_num))

/-- Up to thirteen digits no logarithm is less than that of the power of ten with as many. -/
theorem digitCount_le_logLength (hn : 0 < n) (hcount : digitCount n ≤ 13) :
    digitCount n ≤ logLength log n := by
  obtain ⟨d, hd⟩ : ∃ d, digitCount n = d + 1 :=
    ⟨_, (Nat.succ_pred_eq_of_pos (digitCount_pos n)).symm⟩
  have hpower := pow_le_of_digitCount_eq hn hd
  have hleast : (d : ℚ) ≤ (log n).toRat := by
    rcases hpower.eq_or_lt with rfl | hlt
    · exact (hlog.exact d (by omega)).ge
    · have hlong : 10 ^ d * (1 + 1 / 10 ^ 12) ≤ (n : ℝ) := by
        have hle : (10 : ℝ) ^ d + 1 ≤ n := by exact_mod_cast hlt
        have hpower' : (10 : ℝ) ^ d ≤ 10 ^ 12 := pow_le_pow_right₀ (by norm_num) (by omega)
        linarith
      have hd' : (d : ℝ) ≤ 12 := by exact_mod_cast (by omega : d ≤ 12)
      have hhigh := (logb_digitCount hn).2
      rw [hd, Nat.cast_succ] at hhigh
      rw [← Rat.cast_le (K := ℝ)]
      push_cast
      linarith only [(abs_le.mp (hlog.near n hn)).1,
        le_logb_of_le (by norm_num) hlong (hd ▸ lt_pow_digitCount n), hd', hhigh]
  rw [hd]
  refine le_logLength log (by omega) ?_
  push_cast
  linarith only [hleast]

/-- **Numbers that are measured as they should be**: up to here no logarithm is too near to the next
whole number. -/
theorem logLength_of_lt (hn : 0 < n) (hlt : n < 10 ^ 13) : logLength log n = digitCount n := by
  have hcount : digitCount n ≤ 13 := digitCount_le (by decide) hlt
  exact le_antisymm (logLength_le_digitCount hlog hn hcount)
    (digitCount_le_logLength hlog hn hcount)

/-! ### How far the length can be wrong -/

/-- One more than the logarithm is rounded once more. -/
theorem logLength_spec (hn : 10 ≤ n) : logLength log n ≤ logb 10 n + 1 + logb 10 n / 2 ^ 49 ∧
    logb 10 n - logb 10 n / 2 ^ 49 < logLength log n := by
  have hone := one_le_logb hn
  have hsucc : (1 : ℚ) ≤ (log n).toRat + 1 := by linarith only [(log n).toRat_nonneg]
  have hnear := (isRounded_log_succ log n).near (two_zpow_le_of_one_le hsucc)
  rw [Rat.cast_add, Rat.cast_one] at hnear
  obtain ⟨hlow, hhigh⟩ := abs_le.mp (hlog.near n (by omega))
  obtain ⟨hlow', hhigh'⟩ := abs_le.mp hnear
  have heq : (logLength log n : ℤ) = ⌊(log n).succ.significant.toRat⌋ := Fraction.whole_eq _
  obtain ⟨hfloor, hfloor'⟩ := Int.floor_eq_iff.mp heq.symm
  rw [← Rat.cast_le (K := ℝ)] at hfloor
  rw [← Rat.cast_lt (K := ℝ)] at hfloor'
  push_cast at hfloor hfloor'
  constructor
  · linarith only [hfloor, hhigh, hhigh', hone]
  · linarith only [hfloor', hlow, hlow', hhigh, hone]

/-- The length by the logarithm is off by about one at most. -/
theorem abs_logLength_sub_lt (hn : 10 ≤ n) :
    |(logLength log n : ℚ) - digitCount n| < 1 + digitCount n / 2 ^ 49 := by
  obtain ⟨hlow, hhigh⟩ := logb_digitCount (n := n) (by omega)
  obtain ⟨hmost, hleast⟩ := logLength_spec hlog hn
  rw [← Rat.cast_lt (K := ℝ)]
  push_cast
  exact abs_lt.mpr ⟨by linarith only [hleast, hlow, hhigh], by linarith only [hmost, hhigh]⟩

/-- **What is measured too long** falls short of a power of ten by a very small part. -/
theorem sub_lt_of_lt_logLength (hn : 10 ≤ n) (h : digitCount n < logLength log n) :
    2 ^ 47 * (10 ^ digitCount n - n : ℤ) < digitCount n * 10 ^ digitCount n := by
  by_contra hge
  have hshort : (n : ℝ) ≤ 10 ^ digitCount n * (1 - digitCount n / 2 ^ 47) := by
    have : (digitCount n * 10 ^ digitCount n : ℝ) ≤ 2 ^ 47 * (10 ^ digitCount n - n) := by
      exact_mod_cast not_lt.mp hge
    linarith only [this]
  have hle := logb_le_of_le (by omega) (by positivity) hshort
  have hnext : (digitCount n + 1 : ℝ) ≤ logLength log n := by exact_mod_cast h
  have hpos : (0 : ℝ) < digitCount n := by exact_mod_cast digitCount_pos n
  linarith only [hle, hnext, hpos, (logLength_spec hlog hn).1]

/-- **What is measured too short** exceeds a power of ten by a very small part. -/
theorem sub_lt_of_logLength_lt (hn : 10 ≤ n) (h : logLength log n < digitCount n) :
    2 ^ 44 * (n - 10 ^ (digitCount n - 1) : ℤ) < digitCount n * 10 ^ (digitCount n - 1) := by
  by_contra hge
  obtain ⟨d, hd⟩ : ∃ d, digitCount n = d + 1 :=
    ⟨_, (Nat.succ_pred_eq_of_pos (digitCount_pos n)).symm⟩
  rw [hd, Nat.add_sub_cancel] at hge
  have hlong : 10 ^ d * (1 + (d + 1 : ℝ) / 2 ^ 44) ≤ n := by
    have : ((d + 1 : Nat) * 10 ^ d : ℝ) ≤ 2 ^ 44 * (n - 10 ^ d) := by exact_mod_cast not_lt.mp hge
    push_cast at this
    linarith only [this]
  have hle := le_logb_of_le (by positivity) hlong (hd ▸ lt_pow_digitCount n)
  have hless : (logLength log n : ℝ) ≤ d := by exact_mod_cast Nat.le_of_lt_succ (hd ▸ h)
  have hhigh := (logb_digitCount (n := n) (by omega)).2
  rw [hd, Nat.cast_succ] at hhigh
  have hpos : (0 : ℝ) ≤ d := Nat.cast_nonneg d
  linarith only [hle, hless, hhigh, hpos, (logLength_spec hlog hn).2]

end

/-! ### Measuring -/

/-- A positive whole number has the length that its logarithm tells. -/
theorem runeLength_whole {n : ℤ} (hn : 0 < n) (log : Nat → Fraction) :
    (Value.int n).runeLength log = .ok (logLength log n.natAbs) := by
  obtain ⟨k, rfl⟩ := Int.eq_ofNat_of_zero_le hn.le
  exact if_neg (not_le.mpr hn)

theorem measureMeaning_of_done {run : Run} {w c : Tree} {v : Value} {m m₁ : Machine}
    (hc : run c m = (.done (.rune v), m₁)) (log : Nat → Fraction) :
    measureMeaning run [w, c] log m =
      (liftM ((v.runeLength log).map fun k => Datum.rune (.int k)) : Spell Datum) m₁ := by
  have hpart : runPart run [w, c] 1 m = (.done (.rune v), m₁) := hc
  exact (Spell.bind_of_done hpart).trans (Spell.liftM_bind_pure _ _ m₁)

/-- **How whole numbers are measured.** Zero and negative numbers cannot be measured. A positive
number of at most thirteen digits is measured by its digits, if logarithms are as accurate as
`IsCommonLog` says. Beyond that it is measured by one more or one less at most, unless it has more
digits than a float can count, and only if it is almost a power of ten: it is too long if the number
falls a little short of one, and too short if the number exceeds one by a little. -/
theorem measurement_of_whole {run : Run} {w c : Tree} {n : ℤ} {m m₁ : Machine}
    (hc : run c m = (.done (.rune (.int n)), m₁)) (log : Nat → Fraction) :
    (n ≤ 0 → measureMeaning run [w, c] log m = (.failed .outsideDomain, m₁)) ∧
    (0 < n → IsCommonLog log → ∃ k d : Nat,
      measureMeaning run [w, c] log m = (.done (.rune (.int k)), m₁) ∧ d = digitCount n.natAbs ∧
      (n < 10 ^ 13 → k = d) ∧ |(k : ℚ) - d| < 1 + d / 2 ^ 49 ∧
      (d < k → 2 ^ 47 * (10 ^ d - n) < d * 10 ^ d) ∧
      (k < d → 2 ^ 44 * (n - 10 ^ (d - 1)) < d * 10 ^ (d - 1))) := by
  rw [measureMeaning_of_done hc]
  constructor
  · intro hn
    have hlength : (Value.int n).runeLength log = .error .outsideDomain := if_pos hn
    rw [hlength]
    rfl
  · intro hn hlog
    obtain ⟨n, rfl⟩ := Int.eq_ofNat_of_zero_le hn.le
    rw [runeLength_whole hn, Int.natAbs_natCast]
    have hpos : 0 < n := by omega
    refine ⟨logLength log n, digitCount n, rfl, rfl, fun hlt => ?_, ?_⟩
    · exact logLength_of_lt hlog hpos (by exact_mod_cast hlt)
    · rcases Nat.lt_or_ge n 10 with hlt | hge
      · rw [logLength_of_lt hlog hpos (by omega), sub_self, abs_zero]
        exact ⟨by positivity, fun h => absurd h (lt_irrefl _), fun h => absurd h (lt_irrefl _)⟩
      · exact ⟨abs_logLength_sub_lt hlog hge, sub_lt_of_lt_logLength hlog hge,
          sub_lt_of_logLength_lt hlog hge⟩

/-- The greatest number of thirteen digits. -/
theorem measurement_of_whole_greatest :
    (Tree.leaf .whole "9999999999999").meaning 1 {} = (.done (.rune (.int 9999999999999)), {}) ∧
      (measurement (.leaf .whole "9999999999999")).meaning 2 {} =
        (.done (.rune (.int (digitCount 9999999999999))), {}) := by
  have hc : (Tree.leaf .whole "9999999999999").meaning 1 {} =
      (.done (.rune (.int 9999999999999)), {}) := rfl
  obtain ⟨k, d, hk, rfl, hcount, -⟩ :=
    (measurement_of_whole (w := .leaf .measure "measure") hc logTen).2 (by decide)
      isCommonLog_logTen
  obtain rfl := hcount (by decide)
  exact ⟨hc, hk⟩

/-- The number 999999999999998 has fifteen digits, but its logarithm is fifteen to the places of a
float, and zero is not measured at all. -/
theorem nines_are_measured_wrongly :
    digitCount 999999999999998 = 15 ∧
      (measurement (.leaf .whole "999999999999998")).meaning 2 {} = (.done (.rune (.int 16)), {}) ∧
      digitCount 0 = 1 ∧ (measurement (.leaf .whole "0")).meaning 2 {} =
        (.failed .outsideDomain, {}) := by
  have hlength : (Value.int 999999999999998).runeLength = .ok 16 := by
    have heq : logLength logTen (999999999999998 : ℤ).natAbs = 16 := by decide +kernel
    rw [runeLength_whole (by decide), heq]
    rfl
  have hc : (Tree.leaf .whole "999999999999998").meaning 1 {} =
      (.done (.rune (.int 999999999999998)), {}) := rfl
  refine ⟨rfl, ?_, rfl, rfl⟩
  rw [meaning_measurement hc, hlength]
  rfl

end Spellbook
