import Spellbook.Datum.Order
import Spellbook.Proofs.LastPlace

/-!
# The order of numbers

Numbers are compared as the numbers they stand for, whichever kinds they have (`Num.Denotes.order`).
The float nearest to a fraction stands for the fraction, rounded to 53 binary digits
(`nearestFloat_spec`), so a whole number that is not too large becomes a float that stands for it
(`floatOfInt_denotes`).
-/

namespace Spellbook

open Float.Model
open Float.Model.UnpackedFloat (Sign)

/-! ### The order of floats -/

/-- Of two canonical floats without a sign, that with the smaller exponent is smaller. -/
theorem lt_of_exponent_lt {m m' : Nat} {e e' : ℤ} (hm : m < 2 ^ 53) (hm' : 2 ^ 52 ≤ m' ∨ e' = -1074)
    (he : -1074 ≤ e) (hlt : e < e') : (m : ℚ) * 2 ^ e < m' * 2 ^ e' := by
  have hfull : 2 ^ 52 ≤ m' := hm'.resolve_right (by omega)
  calc (m : ℚ) * 2 ^ e < 2 ^ (53 : ℤ) * 2 ^ e := by
        gcongr
        exact_mod_cast hm
    _ = 2 ^ (52 : ℤ) * 2 ^ (e + 1) := by
        rw [← zpow_add₀ two_ne_zero, ← zpow_add₀ two_ne_zero]
        congr 1
        ring
    _ ≤ m' * 2 ^ e' := by
        gcongr
        · exact_mod_cast hfull
        · exact one_le_two
        · omega

/-- Canonical floats are compared by exponent and then by mantissa, apart from their signs. -/
theorem compares_mantissas {m m' : Nat} {e e' : ℤ} {s s' : Sign} (hm : 0 < m) (hm' : 0 < m')
    (h : Canonical (.finite s m e hm)) (h' : Canonical (.finite s' m' e' hm')) :
    ((compare e e').then (compare m m')).Compares ((m : ℚ) * 2 ^ e) (m' * 2 ^ e') := by
  obtain ⟨hlt, hshape, hleast, -⟩ := h
  obtain ⟨hlt', hshape', hleast', -⟩ := h'
  cases he : compare e e' with
  | lt => exact lt_of_exponent_lt hlt hshape' hleast (Int.compare_eq_lt.mp he)
  | gt => exact lt_of_exponent_lt hlt' hshape hleast' (Int.compare_eq_gt.mp he)
  | eq =>
    obtain rfl : e = e' := Int.compare_eq_eq.mp he
    have hpos : (0 : ℚ) < 2 ^ e := by positivity
    rw [Ordering.eq_then]
    cases hm : compare m m' with
    | lt => exact mul_lt_mul_of_pos_right (by exact_mod_cast Nat.compare_eq_lt.mp hm) hpos
    | gt => exact mul_lt_mul_of_pos_right (by exact_mod_cast Nat.compare_eq_gt.mp hm) hpos
    | eq =>
      obtain rfl : m = m' := Nat.compare_eq_eq.mp hm
      exact (rfl : (m : ℚ) * 2 ^ e = m * 2 ^ e)

theorem compares_neg {o : Ordering} {p q : ℚ} (h : o.Compares p q) : o.swap.Compares (-p) (-q) := by
  cases o with
  | lt => exact neg_lt_neg h
  | eq => exact congrArg Neg.neg h
  | gt => exact neg_lt_neg h

/-- Floats that are taken apart are compared as the numbers they stand for. -/
theorem StandsFor.compare {u v : UnpackedFloat} {p q : ℚ} (hu : StandsFor u p)
    (hv : StandsFor v q) :
    ∃ o : Ordering, u.compare v = some o ∧ o.Compares p q := by
  have hpositive {m : Nat} (e : ℤ) (hm : 0 < m) : (0 : ℚ) < m * 2 ^ e := by positivity
  have hnegative (m : Nat) (e : ℤ) : ((Sign.negative.apply m : ℤ) : ℚ) * 2 ^ e = -(m * 2 ^ e) := by
    simp [Sign.apply]
  obtain ⟨s, rfl, rfl⟩ | ⟨s, m, e, hm, rfl, rfl⟩ := hu.zero_or_finite
  · obtain ⟨s', rfl, rfl⟩ | ⟨s', m', e', hm', rfl, rfl⟩ := hv.zero_or_finite
    · exact ⟨.eq, rfl, (rfl : (0 : ℚ) = 0)⟩
    · cases s' with
      | positive => exact ⟨.lt, rfl, hpositive e' hm'⟩
      | negative => exact ⟨.gt, rfl, hnegative m' e' ▸ neg_neg_of_pos (hpositive e' hm')⟩
  · obtain ⟨s', rfl, rfl⟩ | ⟨s', m', e', hm', rfl, rfl⟩ := hv.zero_or_finite
    · cases s with
      | positive => exact ⟨.gt, rfl, hpositive e hm⟩
      | negative => exact ⟨.lt, rfl, hnegative m e ▸ neg_neg_of_pos (hpositive e hm)⟩
    · -- if the signs are the same, exponents and mantissas decide
      have hcompares := compares_mantissas hm hm' hu.canonical hv.canonical
      cases s with
      | positive =>
        cases s' with
        | positive => exact ⟨_, rfl, hcompares⟩
        | negative =>
          rw [hnegative]
          exact ⟨.gt, rfl, (neg_neg_of_pos (hpositive e' hm')).trans (hpositive e hm)⟩
      | negative =>
        rw [hnegative]
        cases s' with
        | positive => exact ⟨.lt, rfl, (neg_neg_of_pos (hpositive e hm)).trans (hpositive e' hm')⟩
        | negative =>
          rw [hnegative]
          exact ⟨_, rfl, compares_neg hcompares⟩

theorem float_lt_iff (x y : Float) :
    x < y ↔ x.toModel.unpack.compare y.toModel.unpack = some .lt := by
  show decide ((x.toModel.unpack.compare y.toModel.unpack == some .lt) = true) = true ↔ _
  rw [decide_eq_true_iff, beq_iff_eq]

theorem float_beq_iff (x y : Float) :
    (x == y) = true ↔ x.toModel.unpack.compare y.toModel.unpack = some .eq := by
  show (x.toModel.unpack.compare y.toModel.unpack == some .eq) = true ↔ _
  rw [beq_iff_eq]

/-- Floats are compared as the numbers that they denote. -/
theorem Denotes.compareFloats {x y : Float} {p q : ℚ} (hx : Denotes x p) (hy : Denotes y q) :
    ∃ o : Ordering, compareFloats x y = some o ∧ o.Compares p q := by
  obtain ⟨o, ho, hcompares⟩ := (denotes_iff.mp hx).compare (denotes_iff.mp hy)
  -- whether the first is greater is asked the other way round
  obtain ⟨o', ho', hcompares'⟩ := (denotes_iff.mp hy).compare (denotes_iff.mp hx)
  refine ⟨o, ?_, hcompares⟩
  simp only [Spellbook.compareFloats, float_lt_iff, float_beq_iff, ho, ho']
  cases o with
  | lt => rfl
  | eq => rfl
  | gt =>
    obtain rfl : o' = .lt := hcompares'.eq_lt.mpr hcompares
    rfl

/-- The order of a whole number and a float. -/
theorem Denotes.compareIntFloat {x : Float} {q : ℚ} (hx : Denotes x q) (n : ℤ) :
    ∃ o : Ordering, compareIntFloat n x = some o ∧ o.Compares (n : ℚ) q := by
  obtain ⟨d, hview, rfl⟩ := hx
  have hpos : (0 : ℚ) < d.fraction.2 := by exact_mod_cast d.fraction_pos
  refine ⟨d.compareInt n, by rw [Spellbook.compareIntFloat, hview], ?_⟩
  rw [Dyadic.toRat_eq]
  show (compare (n * d.fraction.2) (d.signed d.fraction.1)).Compares _ _
  cases ho : compare (n * (d.fraction.2 : ℤ)) (d.signed d.fraction.1) with
  | lt =>
    have hlt := Int.compare_eq_lt.mp ho
    exact (lt_div_iff₀ hpos).mpr (by exact_mod_cast hlt)
  | eq =>
    have heq := Int.compare_eq_eq.mp ho
    exact (eq_div_iff hpos.ne').mpr (by exact_mod_cast heq)
  | gt =>
    have hgt := Int.compare_eq_gt.mp ho
    exact (div_lt_iff₀ hpos).mpr (by exact_mod_cast hgt)

/-! ### The order of numbers -/

def Num.Denotes : Num → ℚ → Prop
  | .int n, q => n = q
  | .float x, q => Spellbook.Denotes x q

theorem compare_ints (m n : ℤ) : (compare m n).Compares (m : ℚ) n := by
  cases ho : compare m n with
  | lt => exact Int.cast_lt.mpr (Int.compare_eq_lt.mp ho)
  | eq => exact congrArg _ (Int.compare_eq_eq.mp ho)
  | gt => exact Int.cast_lt.mpr (Int.compare_eq_gt.mp ho)

/-- **Numbers are compared as the numbers they stand for**, whichever kinds they have. -/
theorem Num.Denotes.order {a b : Num} {p q : ℚ} (ha : a.Denotes p) (hb : b.Denotes q) :
    ∃ o : Ordering, a.order b = some o ∧ o.Compares p q := by
  cases a with
  | int m =>
    obtain rfl : (m : ℚ) = p := ha
    cases b with
    | int n =>
      obtain rfl : (n : ℚ) = q := hb
      exact ⟨_, rfl, compare_ints m n⟩
    | float y => exact Spellbook.Denotes.compareIntFloat hb m
  | float x =>
    cases b with
    | int n =>
      obtain rfl : (n : ℚ) = q := hb
      obtain ⟨o, ho, hcompares⟩ := Spellbook.Denotes.compareIntFloat ha n
      refine ⟨o.swap, ?_, Ordering.compares_swap.mpr hcompares⟩
      rw [Num.order, ho, Option.map_some]
    | float y => exact Spellbook.Denotes.compareFloats ha hb

/-- Numbers of either kind are compared as what they denote. -/
theorem Num.Denotes.compare_atMost {a b : Num} {p q : ℚ} (ha : a.Denotes p) (hb : b.Denotes q) :
    Value.compare .atMost a.toValue b.toValue = .ok (decide (p ≤ q)) := by
  obtain ⟨o, ho, hcompares⟩ := ha.order hb
  have hcompare : Value.compare .atMost a.toValue b.toValue =
      .ok (Comparison.holds .atMost (a.order b)) := by
    cases a <;> cases b <;> rfl
  rw [hcompare, ho]
  congr 1
  cases o with
  | lt => exact (decide_eq_true (le_of_lt hcompares)).symm
  | eq => exact (decide_eq_true (le_of_eq hcompares)).symm
  | gt => exact (decide_eq_false (not_le_of_gt hcompares)).symm

/-! ### Fractions as floats -/

theorem FloatView.of_floatOfBits (bits : Nat) :
    FloatView.of (floatOfBits bits) =
      .ofUnpacked (UnpackedFloat.unpack .binary64 bits.toUInt64.toBitVec) := by
  rw [FloatView.of_eq]
  show FloatView.ofUnpacked
    (Float.Model.pack (UnpackedFloat.unpack .binary64 bits.toUInt64.toBitVec)).unpack = _
  rw [unpack_pack (canonical_unpack _)]

/-- The fields of the bits of a finite float. -/
theorem FloatView.of_fields (negative : Bool) {field fraction : Nat} (hfield : field < 2047)
    (hfraction : fraction < 2 ^ 52) :
    FloatView.of (floatOfBits (signBits negative + field * Nat.pow 2 52 + fraction)) =
      if field = 0 then .finite ⟨negative, fraction, -1074⟩
      else .finite ⟨negative, 2 ^ 52 + fraction, field - 1075⟩ := by
  generalize hbits : signBits negative + field * Nat.pow 2 52 + fraction = bits
  simp only [signBits, Nat.pow_eq] at hbits
  have hsign : (bits / 2 ^ 63 == 1) = negative := by
    cases negative with
    | true =>
      rw [if_pos rfl] at hbits
      rw [beq_iff_eq]
      omega
    | false =>
      rw [if_neg Bool.false_ne_true] at hbits
      rw [beq_eq_false_iff_ne]
      omega
  have hparts : bits / 2 ^ 52 % 2 ^ 11 = field ∧ bits % 2 ^ 52 = fraction ∧ bits < 2 ^ 64 := by
    split at hbits <;> omega
  obtain ⟨hfield', hfraction', hlt⟩ := hparts
  have hvec : bits.toUInt64.toBitVec.toNat = bits := by
    rw [UInt64.toNat_toBitVec]
    exact UInt64.toNat_ofNat_of_lt hlt
  rw [FloatView.of_floatOfBits, unpack_eq, ofUnpacked_unpackedOf, isNegative_ofBitVec, hvec, hsign,
    hfield', hfraction', if_neg (by omega)]

/-- A float that denotes a number is not infinite. -/
theorem Denotes.isInf_eq_false {x : Float} {q : ℚ} (hx : Denotes x q) : x.isInf = false := by
  show x.toModel.unpack.isInf = false
  obtain ⟨s, hs, -⟩ | ⟨s, m, e, hm, hs, -⟩ := (denotes_iff.mp hx).zero_or_finite <;> rw [hs] <;> rfl

/-- A mantissa that fills its digits, or has the least exponent, is packed as it is. -/
theorem FloatView.of_mantissa (negative : Bool) {m : Nat} {t : ℤ} (hm : m < 2 ^ 53)
    (hshape : 2 ^ 52 ≤ m ∨ t = -1074) (hleast : -1074 ≤ t) (hmost : t ≤ 971) :
    FloatView.of (if m < Nat.pow 2 52 then floatOfBits (signBits negative + m)
      else floatOfBits (signBits negative + (t + 1075).toNat * Nat.pow 2 52 + (m - Nat.pow 2 52))) =
      .finite ⟨negative, m, t⟩ := by
  split
  case isTrue hshort =>
    rw [Nat.pow_eq] at hshort
    have hfields := of_fields negative (by decide : 0 < 2047) hshort
    rw [Nat.zero_mul, Nat.add_zero, if_pos rfl] at hfields
    rw [hfields, hshape.resolve_left (Nat.not_le.mpr hshort)]
  case isFalse hfull =>
    rw [Nat.pow_eq] at hfull
    have hmantissa : 2 ^ 52 + (m - Nat.pow 2 52) = m := by
      rw [Nat.pow_eq]
      omega
    have hexponent : ((t + 1075).toNat : ℤ) - 1075 = t := by omega
    rw [of_fields negative (by omega) (by omega), if_neg (by omega), hmantissa, hexponent]

/-- The place in which a fraction is rounded. -/
theorem isLastPlace_binaryOrder {num den : Nat} (hnum : 0 < num) (hden : 0 < den) :
    IsLastPlace (num / den) (max (binaryOrder num den - 52) (-1074)) := by
  have hpos : |(num : ℚ) / den| = num / den := abs_of_nonneg (by positivity)
  obtain ⟨hlow, hhigh⟩ := binaryOrder_spec hnum hden
  exact isLastPlace_of_order (by rwa [hpos]) (by rwa [hpos])

/-- The mantissa that a fraction is rounded to has one digit too many at most. -/
theorem divRound_of_isLastPlace {num den : Nat} {t : ℤ} (hden : 0 < den)
    (ht : IsLastPlace (num / den) t) {m : Nat}
    (hm : divRound (scaleByTwo num den (-t)).1 (scaleByTwo num den (-t)).2 = m) :
    m ≤ 2 ^ 53 ∧ (2 ^ 52 ≤ m ∨ t = -1074) ∧ IsNearest (num / den / 2 ^ t) m := by
  have hscaled := scaleByTwo_eq num den (-t)
  have hpos : 0 < (scaleByTwo num den (-t)).2 := scaleByTwo_pos hden _
  generalize scaleByTwo num den (-t) = s at hm hscaled hpos
  have hpos' : (0 : ℚ) < s.2 := by exact_mod_cast hpos
  rw [zpow_neg, ← div_eq_mul_inv] at hscaled
  obtain ⟨-, hlow, hhigh⟩ := ht
  rw [abs_of_nonneg (by positivity)] at hlow hhigh
  rw [← hm]
  refine ⟨divRound_le hpos ?_, ?_, ?_⟩
  · have hlt : (s.1 : ℚ) / s.2 < 2 ^ (53 : ℤ) := by
      rw [hscaled, div_lt_iff₀ (by positivity), ← zpow_add₀ two_ne_zero, add_comm]
      exact hhigh
    rw [div_lt_iff₀ hpos'] at hlt
    exact_mod_cast hlt.le
  · rw [or_comm]
    refine hlow.imp_right fun hle => le_divRound hpos ?_
    have hle' : (2 : ℚ) ^ (52 : ℤ) ≤ s.1 / s.2 := by
      rw [hscaled, le_div_iff₀ (by positivity), ← zpow_add₀ two_ne_zero, add_comm]
      exact hle
    rw [le_div_iff₀ hpos'] at hle'
    exact_mod_cast hle'
  · rw [← hscaled]
    exact isNearest_divRound hpos

theorem Dyadic.toRat_mk (negative : Bool) (m : Nat) (e : ℤ) :
    (Dyadic.mk negative m e).toRat = if negative then -(m * 2 ^ e : ℚ) else m * 2 ^ e := by
  rw [toRat, cast_signed]
  split
  · rw [neg_mul]
  · rfl

/-- **The float nearest to a fraction** stands for the fraction, rounded to 53 binary digits, unless
that is too large for a float. -/
theorem nearestFloat_spec (negative : Bool) (num : Nat) {den : Nat} (hden : 0 < den) :
    ∃ r, IsRounded (num / den) r ∧ 0 ≤ r ∧
      (r < 2 ^ (1024 : ℤ) → Denotes (nearestFloat negative num den) (if negative then -r else r)) ∧
      (2 ^ (1024 : ℤ) ≤ r → nearestFloat negative num den = infinity negative) := by
  rcases Nat.eq_zero_or_pos num with rfl | hnum
  · have hzero :=
      FloatView.of_mantissa negative (m := 0) (t := -1074) (by decide) (.inr rfl) le_rfl (by decide)
    refine ⟨0, ?_, le_rfl, fun _ => ⟨⟨negative, 0, -1074⟩, ?_, ?_⟩, fun h => ?_⟩
    · rw [Nat.cast_zero, zero_div]
      exact isRounded_zero
    · rw [nearestFloat, if_pos (.inl rfl)]
      exact hzero
    · rw [Dyadic.toRat_mk, Nat.cast_zero, zero_mul]
    · exact absurd h (not_le_of_gt (by positivity))
  · have hplace := isLastPlace_binaryOrder hnum hden
    generalize ht : max (binaryOrder num den - 52) (-1074) = t at hplace
    generalize hm : divRound (scaleByTwo num den (-t)).1 (scaleByTwo num den (-t)).2 = m
    obtain ⟨hle, hshape, hnearest⟩ := divRound_of_isLastPlace hden hplace hm
    refine ⟨m * 2 ^ t, ⟨t, m, by rw [Int.cast_natCast], hplace, hnearest⟩, by positivity, ?_⟩
    rw [nearestFloat, if_neg (by omega), ht]
    dsimp only
    rw [hm]
    have hmost {e : ℤ} : (2 : ℚ) ^ e < 2 ^ (1024 : ℤ) ↔ e < 1024 :=
      zpow_lt_zpow_iff_right₀ one_lt_two
    by_cases hcarry : m = Nat.pow 2 53
    · -- the digits behind the first are all zero, and the exponent grows
      have hvalue : (m : ℚ) * 2 ^ t = 2 ^ (t + 53) := by
        rw [hcarry, Nat.pow_eq, add_comm, zpow_add₀ two_ne_zero]
        norm_num
      rw [if_pos hcarry, hvalue, ← not_lt, hmost]
      dsimp only
      refine ⟨fun hlt => ⟨⟨negative, 2 ^ 52, t + 1⟩, ?_, ?_⟩, fun hge => if_pos (by omega)⟩
      · rw [if_neg (by omega)]
        exact FloatView.of_mantissa negative (by decide) (.inl le_rfl)
          (by have := hplace.1; omega) (by omega)
      · rw [Dyadic.toRat_mk, show t + 53 = 52 + (t + 1) by ring, zpow_add₀ two_ne_zero 52]
        norm_num
    · have hlt : m < 2 ^ 53 := lt_of_le_of_ne hle hcarry
      have hbound : 971 < t ↔ (2 : ℚ) ^ (1024 : ℤ) ≤ m * 2 ^ t := by
        constructor
        · intro hlarge
          have hfull : ((2 ^ 52 : Nat) : ℚ) ≤ m := by exact_mod_cast hshape.resolve_right (by omega)
          calc (2 : ℚ) ^ (1024 : ℤ) ≤ 2 ^ (52 + t) := zpow_le_zpow_right₀ one_le_two (by omega)
            _ = ((2 ^ 52 : Nat) : ℚ) * 2 ^ t := by
                rw [zpow_add₀ two_ne_zero]
                norm_num
            _ ≤ m * 2 ^ t := by gcongr
        · intro hlarge
          have hless : (m : ℚ) * 2 ^ t < 2 ^ (53 + t) := by
            rw [zpow_add₀ two_ne_zero]
            gcongr
            exact_mod_cast hlt
          have := (zpow_lt_zpow_iff_right₀ (one_lt_two : (1 : ℚ) < 2)).mp (hlarge.trans_lt hless)
          omega
      rw [if_neg hcarry, ← not_le, ← hbound]
      dsimp only
      refine ⟨fun hsmall => ⟨⟨negative, m, t⟩, ?_, Dyadic.toRat_mk negative m t⟩, fun hlarge =>
        if_pos hlarge⟩
      rw [if_neg hsmall]
      exact FloatView.of_mantissa negative hlt hshape hplace.1 (by omega)

/-- The float that is nearest to a fraction denotes the fraction rounded. -/
theorem denotes_nearestFloat (negative : Bool) {num den : Nat} (hden : 0 < den)
    (hsmall : (num : ℚ) / den < 2 ^ (1000 : ℤ)) :
    ∃ r, Denotes (nearestFloat negative num den) (if negative then -r else r) ∧
    IsRounded (num / den) r := by
  obtain ⟨r, hrounded, -, hdenotes, -⟩ := nearestFloat_spec negative num hden
  have hself := isRounded_dyadic (z := 1) (e := 1000) (by decide) (by decide)
  rw [Int.cast_one, one_mul] at hself
  have hle := hrounded.le_of_le hself hsmall.le
  exact ⟨r, hdenotes (hle.trans_lt (zpow_lt_zpow_right₀ one_lt_two (by decide))), hrounded⟩

theorem denotes_half : Denotes 0.5 (1 / 2) :=
  ⟨⟨false, 2 ^ 52, -53⟩, rfl, by norm_num [Dyadic.toRat, Dyadic.signed]⟩

/-- A whole number with 53 binary digits is not rounded. -/
theorem IsRounded.eq_intCast {k : ℤ} {r : ℚ} (h : IsRounded k r) (hk : |(k : ℚ)| < 2 ^ (53 : ℤ)) :
    r = k :=
  le_antisymm (h.le_intCast hk le_rfl) (h.intCast_le hk le_rfl)

/-- **A whole number below `2 ^ 53` becomes a float that stands for it.** -/
theorem floatOfInt_denotes {n : ℤ} (hn : n.natAbs < 2 ^ 53) :
    ∃ x, floatOfInt n = .ok x ∧ Denotes x n := by
  have habs : |((n.natAbs : ℤ) : ℚ)| < 2 ^ (53 : ℤ) := by
    rw [Int.cast_natCast, Nat.abs_cast]
    exact_mod_cast hn
  have hsmall : (n.natAbs : ℚ) / (1 : Nat) < 2 ^ (1000 : ℤ) := by
    rw [Nat.cast_one, div_one]
    calc (n.natAbs : ℚ) < 2 ^ (53 : ℤ) := by exact_mod_cast hn
      _ ≤ 2 ^ (1000 : ℤ) := zpow_le_zpow_right₀ one_le_two (by decide)
  obtain ⟨r, hdenotes, hrounded⟩ := denotes_nearestFloat (n < 0) Nat.one_pos hsmall
  rw [Nat.cast_one, div_one, ← Int.cast_natCast] at hrounded
  rw [hrounded.eq_intCast habs, Int.cast_natCast, Nat.cast_natAbs, Int.cast_abs] at hdenotes
  have hvalue : (if decide (n < 0) = true then -|(n : ℚ)| else |(n : ℚ)|) = n := by
    by_cases hneg : n < 0
    · rw [if_pos (decide_eq_true hneg), abs_of_neg (Int.cast_lt_zero.mpr hneg), neg_neg]
    · rw [if_neg (by simpa using hneg), abs_of_nonneg (Int.cast_nonneg (by omega))]
  rw [hvalue] at hdenotes
  refine ⟨nearestFloat (n < 0) n.natAbs 1, ?_, hdenotes⟩
  rw [floatOfInt, floatOfInt?, hdenotes.isInf_eq_false]
  rfl

end Spellbook
