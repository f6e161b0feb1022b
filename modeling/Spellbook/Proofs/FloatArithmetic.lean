import Mathlib
import Spellbook.Proofs.Rounding

/-!
# Sums of floats

The sum of two finite floats is the sum of the numbers they stand for, rounded to 53 binary digits
(`Denotes.add`), and rounding is a function of the number (`IsRounded.unique`) that passes no whole
number (`IsRounded.le_intCast`) and no float (`IsRounded.le_of_le`) and takes a number no further
than half a unit of its last place (`IsRounded.abs_sub_le`).

A float is a row of bits. To be added it is taken apart into a sign, a mantissa and an exponent
(`unpack_eq`), and the sum is rounded to a canonical form (`StandsFor.add`), which is what it is
taken apart into again (`unpack_pack`).
-/

namespace Spellbook

open Float.Model
open Float.Model.UnpackedFloat
  (Sign ExtendedMantissa packComponents unpackSign unpackExponent unpackMantissa
  unpackSign_packComponents unpackExponent_packComponents unpackMantissa_packComponents
    roundWithAccuracy
  shiftToTargetExponent decreaseExponent)

/-! ### Bits -/

section
variable (b : BitVec 64)

/-- The lowest 52 bits are the fraction. -/
theorem toNat_unpackMantissa : (@unpackMantissa .binary64 b).toNat = b.toNat % 2 ^ 52 := by
  simp [unpackMantissa, BitVec.extractLsb_toNat]

/-- The next 11 bits are the exponent field. -/
theorem toNat_unpackExponent : (@unpackExponent .binary64 b).toNat = b.toNat / 2 ^ 52 % 2 ^ 11 := by
  simp [unpackExponent, BitVec.extractLsb_toNat, Nat.shiftRight_eq_div_pow]

/-- The highest bit is the sign. -/
theorem toNat_unpackSign : (@unpackSign .binary64 b).toNat = b.toNat / 2 ^ 63 := by
  have hlt : b.toNat / 2 ^ 63 < 2 := by
    have := b.isLt
    omega
  simp [unpackSign, BitVec.extractLsb_toNat, Nat.shiftRight_eq_div_pow]
  omega

theorem toNat_append_eq {v w : Nat} (x : BitVec v) (y : BitVec w) :
    (x ++ y).toNat = x.toNat * 2 ^ w + y.toNat := by
  rw [BitVec.toNat_append, ← Nat.shiftLeft_add_eq_or_of_lt y.isLt, Nat.shiftLeft_eq]

end

/-- The float with the given sign, field of the exponent and written part of the mantissa. -/
def unpackedOf (s : Sign) (field fraction : Nat) : UnpackedFloat :=
  if field = 2047 then if fraction = 0 then .infinity s else .notANumber
  else if field = 0 then
    if h : fraction = 0 then .zero s else .finite s fraction (-1074) (Nat.pos_of_ne_zero h)
  else .finite s (2 ^ 52 + fraction) (field - 1075) (Nat.add_pos_left (by decide) fraction)

/-- A word of 64 bits is unpacked by its three fields. -/
theorem unpack_eq (b : BitVec 64) : UnpackedFloat.unpack .binary64 b =
    unpackedOf (.ofBitVec (@unpackSign .binary64 b)) (b.toNat / 2 ^ 52 % 2 ^ 11)
    (b.toNat % 2 ^ 52) := by
  have hempty : @unpackMantissa .binary64 b = 0#52 ↔ (@unpackMantissa .binary64 b).toNat = 0 :=
    BitVec.toNat_inj.symm
  have hfull : @unpackExponent .binary64 b = -1#11 ↔ (@unpackExponent .binary64 b).toNat = 2047 :=
    BitVec.toNat_inj.symm
  have hzero : @unpackExponent .binary64 b = 0#11 ↔ (@unpackExponent .binary64 b).toNat = 0 :=
    BitVec.toNat_inj.symm
  rw [← toNat_unpackMantissa, ← toNat_unpackExponent]
  unfold UnpackedFloat.unpack unpackedOf
  dsimp only
  by_cases h : (@unpackExponent .binary64 b).toNat = 2047
  · rw [if_pos (hfull.mpr h), if_pos h]
    simp only [hempty]
  · rw [if_neg (h ∘ hfull.mp), if_neg h]
    by_cases h : (@unpackExponent .binary64 b).toNat = 0
    · rw [if_pos (hzero.mpr h), if_pos h]
      by_cases h' : (@unpackMantissa .binary64 b).toNat = 0
      · rw [dif_pos (hempty.mpr h'), dif_pos h']
      · rw [dif_neg (h' ∘ hempty.mp), dif_neg h']
        congr 1
        rw [h]
        rfl
    · rw [if_neg (h ∘ hzero.mp), if_neg h]
      congr 1
      exact toNat_append_eq 1#1 _

/-! ### What a float that is taken apart stands for -/

def isNegative : Sign → Bool
  | .negative => true
  | .positive => false

/-- What a float stands for after it has been taken apart. -/
def FloatView.ofUnpacked : UnpackedFloat → FloatView
  | .infinity s => .infinite (isNegative s)
  | .notANumber => .nan
  | .zero s => .finite ⟨isNegative s, 0, -1074⟩
  | .finite s m e _ => .finite ⟨isNegative s, m, e⟩

theorem isNegative_ofBitVec (b : BitVec 64) :
    isNegative (.ofBitVec (@unpackSign .binary64 b)) = (b.toNat / 2 ^ 63 == 1) := by
  rw [← toNat_unpackSign]
  generalize @unpackSign .binary64 b = s
  have hs : s = 0 ∨ s = 1 := by
    rw [← BitVec.toNat_inj, ← BitVec.toNat_inj]
    have := s.isLt
    show s.toNat = 0 ∨ s.toNat = 1
    omega
  obtain rfl | rfl := hs <;> rfl

/-- How a float is seen, by its exponent field and its fraction. -/
theorem FloatView.ofUnpacked_unpackedOf (s : Sign) (field fraction : Nat) :
    ofUnpacked (unpackedOf s field fraction) =
      if field = 2047 then if fraction = 0 then .infinite (isNegative s) else .nan
      else if field = 0 then .finite ⟨isNegative s, fraction, -1074⟩
      else .finite ⟨isNegative s, 2 ^ 52 + fraction, field - 1075⟩ := by
  unfold unpackedOf
  split
  · split <;> rfl
  · split
    · split
      case isTrue h =>
        rw [h]
        rfl
      case isFalse => rfl
    · rfl

/-- A float is seen as what it unpacks to. -/
theorem FloatView.of_eq (x : Float) : FloatView.of x = .ofUnpacked x.toModel.unpack := by
  show FloatView.of x = .ofUnpacked (UnpackedFloat.unpack .binary64 x.toModel.toBits.toBitVec)
  rw [unpack_eq, ofUnpacked_unpackedOf, isNegative_ofBitVec]
  rfl

/-! ### Floats in canonical form -/

/-- The mantissa has 53 binary digits, or the exponent is the least one. -/
def Canonical : UnpackedFloat → Prop
  | .finite _ m e _ => m < 2 ^ 53 ∧ (2 ^ 52 ≤ m ∨ e = -1074) ∧ -1074 ≤ e ∧ e ≤ 971
  | .zero _ | .infinity _ | .notANumber => True

theorem canonical_unpackedOf (s : Sign) {field fraction : Nat} (hfield : field < 2 ^ 11)
    (hfraction : fraction < 2 ^ 52) : Canonical (unpackedOf s field fraction) := by
  unfold unpackedOf
  split
  · split <;> trivial
  · split
    · split
      · trivial
      · exact ⟨by omega, .inr rfl, by omega, by omega⟩
    · exact ⟨by omega, .inl (by omega), by omega, by omega⟩

/-- Every word unpacks to a canonical float. -/
theorem canonical_unpack (b : BitVec 64) : Canonical (UnpackedFloat.unpack .binary64 b) := by
  rw [unpack_eq]
  exact canonical_unpackedOf _ (Nat.mod_lt _ (by decide)) (Nat.mod_lt _ (by decide))

/-- Three fields that are packed are unpacked again. -/
theorem unpack_packComponents (s : Sign) (e : BitVec 11) (m : BitVec 52) :
    UnpackedFloat.unpack .binary64 (packComponents .binary64 s e m) =
      unpackedOf s e.toNat m.toNat := by
  rw [unpack_eq, ← toNat_unpackExponent, ← toNat_unpackMantissa, unpackSign_packComponents,
    Sign.ofBitVec_toBitVec, unpackExponent_packComponents, unpackMantissa_packComponents]

/-- A finite float is packed into its exponent field and its mantissa without the leading bit. -/
theorem pack_finite {s : Sign} {m field : Nat} {e : ℤ} (hm : 0 < m) (hfield : field = e + 1075)
    (hlt : field < 2047) :
    UnpackedFloat.pack .binary64 (.finite s m e hm) =
      packComponents .binary64 s (if m.log2 = 52 then BitVec.ofNat 11 field else 0#11)
      (BitVec.ofNat 52 m) := by
  have hbiased : (e + (Format.binary64.exponentBias : ℤ) + (52 : Nat)).toNat = field := by
    show (e + 1023 + 52).toNat = field
    omega
  have hbits : m.log2 + 1 = Format.binary64.mantissaBits ↔ m.log2 = 52 := by
    show m.log2 + 1 = 1 + 52 ↔ _
    omega
  unfold UnpackedFloat.pack
  dsimp only
  rw [hbiased, if_neg (by omega), apply_ite (packComponents .binary64 s · (BitVec.ofNat 52 m))]
  simp only [hbits]

/-- A float in canonical form is taken apart as it was packed. -/
theorem unpack_pack {u : UnpackedFloat} (hu : Canonical u) : (Float.Model.pack u).unpack = u := by
  cases u with
  | infinity s => cases s <;> rfl
  | notANumber => rfl
  | zero s => cases s <;> rfl
  | finite s m e hm =>
    obtain ⟨hlt, hshape, hle, hge⟩ := hu
    obtain ⟨field, hfield⟩ : ∃ field : Nat, (field : ℤ) = e + 1075 := ⟨(e + 1075).toNat, by omega⟩
    show UnpackedFloat.unpack .binary64 (UnpackedFloat.pack .binary64 (.finite s m e hm)) = _
    rw [pack_finite hm hfield (by omega), unpack_packComponents, BitVec.toNat_ofNat]
    -- the leading digit of a full mantissa is not written: the field of the exponent tells it
    by_cases hfull : 2 ^ 52 ≤ m
    · have hlog : m.log2 = 52 := (Nat.log2_eq_iff hm.ne').mpr ⟨hfull, hlt⟩
      rw [if_pos hlog, BitVec.toNat_ofNat, unpackedOf, if_neg (by omega), if_neg (by omega)]
      congr 1
      · omega
      · omega
    · have hlog : m.log2 ≠ 52 := fun h => hfull ((Nat.log2_eq_iff hm.ne').mp h).1
      obtain rfl : e = -1074 := hshape.resolve_left hfull
      rw [if_neg hlog, Nat.mod_eq_of_lt (Nat.lt_of_not_le hfull)]
      exact dif_neg hm.ne'

/-! ### Digits that are shifted out -/

/-- What is left of the mantissa `m` when its last `k` binary digits have been shifted out: the
others, whether they amount to half a unit, and whether there is anything besides. -/
structure Shifted (m k : Nat) (em : ExtendedMantissa) : Prop where
  mantissa_eq : em.mantissa = m / 2 ^ k
  roundBit_eq : em.roundBit = decide (2 ^ k ≤ 2 * (m % 2 ^ k))
  stickyBit_eq : em.stickyBit = decide (m % 2 ^ k ≠ 0 ∧ 2 * (m % 2 ^ k) ≠ 2 ^ k)

/-- One more shift to the right drops one more bit. -/
theorem Shifted.shiftRightOne {m k : Nat} {em : ExtendedMantissa} (h : Shifted m k em) :
    Shifted m (k + 1) em.shiftRightOne := by
  have hpos : 0 < 2 ^ k := Nat.two_pow_pos k
  have hrest : m % 2 ^ k < 2 ^ k := Nat.mod_lt m hpos
  have hmod : m % 2 ^ (k + 1) = m % 2 ^ k + 2 ^ k * (m / 2 ^ k % 2) := Nat.mod_pow_succ
  have hdigit : m / 2 ^ k % 2 = 0 ∨ m / 2 ^ k % 2 = 1 := Nat.mod_two_eq_zero_or_one _
  constructor
  · show em.mantissa / 2 = _
    rw [h.mantissa_eq, Nat.div_div_eq_div_mul, pow_succ]
  · show (em.mantissa % 2 != 0) = _
    rw [h.mantissa_eq, hmod, pow_succ, Bool.eq_iff_iff, bne_iff_ne, decide_eq_true_iff]
    obtain hdigit | hdigit := hdigit <;> rw [hdigit] <;> omega
  · show (em.roundBit || em.stickyBit) = _
    rw [h.roundBit_eq, h.stickyBit_eq, hmod, pow_succ, Bool.eq_iff_iff, Bool.or_eq_true,
      decide_eq_true_iff, decide_eq_true_iff, decide_eq_true_iff]
    obtain hdigit | hdigit := hdigit <;> rw [hdigit] <;> omega

/-- A mantissa that is shifted keeps its quotient and how much was lost, by induction on the shift.
-/
theorem shifted_shiftRight (m k : Nat) :
    Shifted m k (ExtendedMantissa.ofMantissaAndAccuracy m .exact >>> k) := by
  induction k with
  | zero =>
    have hnone : m % 2 ^ 0 = 0 := Nat.mod_one m
    exact ⟨(Nat.div_one m).symm, by rw [hnone]; rfl, by rw [hnone]; rfl⟩
  | succ k ih => exact ih.shiftRightOne

/-- The rounded mantissa is the quotient rounded to the nearest. -/
theorem Shifted.roundedMantissa_eq {m k : Nat} {em : ExtendedMantissa} (h : Shifted m k em) :
    em.roundedMantissa = divRound m (2 ^ k) := by
  obtain ⟨mantissa, roundBit, stickyBit⟩ := em
  obtain ⟨hmantissa, hround, hsticky⟩ := h
  dsimp only at hmantissa hround hsticky
  have hpos : 0 < 2 ^ k := Nat.two_pow_pos k
  unfold divRound
  dsimp only
  rw [← hmantissa]
  cases roundBit with
  | false =>
    have hless : 2 * (m % 2 ^ k) < 2 ^ k := Nat.lt_of_not_le (of_decide_eq_false hround.symm)
    rw [if_pos hless]
    cases stickyBit <;> rfl
  | true =>
    have hhalf : 2 ^ k ≤ 2 * (m % 2 ^ k) := of_decide_eq_true hround.symm
    rw [if_neg (Nat.not_lt.mpr hhalf)]
    cases stickyBit with
    | false =>
      have hexact := of_decide_eq_false hsticky.symm
      rw [if_neg (by omega)]
      rfl
    | true =>
      have hmore := of_decide_eq_true hsticky.symm
      rw [if_pos (by omega)]
      rfl

/-! ### Rounding to a canonical form -/

def roundingExponent (m : Nat) (e : ℤ) : ℤ := max (m.log2 + e - 52) (-1074)

/-- The exponent that is aimed for is the one of the last place. -/
theorem targetExponent_eq (m : Nat) (e : ℤ) :
    Format.binary64.targetExponent (totalExponent m e) = roundingExponent m e := by
  show max ((m.log2 : ℤ) + 1 + e - 53) (-1074) = max (m.log2 + e - 52) (-1074)
  congr 1
  ring

/-- A number is shifted to the exponent of its last place. -/
theorem shiftToTargetExponent_eq {m : Nat} {e t : ℤ} (ht : roundingExponent m e = t) :
    shiftToTargetExponent .binary64 m e .exact =
      (ExtendedMantissa.ofMantissaAndAccuracy m .exact >>> (t - e).toNat, e + (t - e).toNat) := by
  rw [shiftToTargetExponent, targetExponent_eq, ht]
  rfl

/-- The float with the given mantissa, which may be zero. -/
def unpackedFinite (s : Sign) (m : Nat) (e : ℤ) : UnpackedFloat :=
  if h : m = 0 then .zero s else .finite s m e (Nat.pos_of_ne_zero h)

/-- If rounding makes the mantissa one digit too long, it is a power of two and the exponent
grows. -/
theorem roundWithAccuracy_eq (s : Sign) {m r : Nat} {e t : ℤ}
    (ht : roundingExponent m e = t) (he : e ≤ t) (hr : divRound m (2 ^ (t - e).toNat) = r)
    (hle : r ≤ 2 ^ 53) :
    roundWithAccuracy .binary64 s m e .exact =
      if r = 2 ^ 53 then unpackedFinite s (2 ^ 52) (t + 1) else unpackedFinite s r t := by
  have hleast : -1074 ≤ t := ht ▸ le_max_right _ _
  -- after rounding, the mantissa is shifted once more in case it has become too long
  have hagain : roundWithAccuracy .binary64 s m e .exact =
      unpackedFinite s (shiftToTargetExponent .binary64 r t .exact).1.mantissa
        (shiftToTargetExponent .binary64 r t .exact).2 := by
    rw [roundWithAccuracy, shiftToTargetExponent_eq ht]
    dsimp only
    rw [(shifted_shiftRight m (t - e).toNat).roundedMantissa_eq, hr,
      show e + ((t - e).toNat : ℤ) = t by omega]
    rfl
  rw [hagain]
  split
  case isTrue hcarry =>
    subst hcarry
    have ht' : roundingExponent (2 ^ 53) t = t + 1 := by
      rw [roundingExponent, Nat.log2_two_pow]
      omega
    rw [shiftToTargetExponent_eq ht', show (t + 1 - t).toNat = 1 by omega]
    rfl
  case isFalse hshort =>
    have hlog : r.log2 ≤ 52 := by
      by_cases hr : r = 0
      · rw [hr]
        decide
      · have := (Nat.log2_lt hr).mpr (lt_of_le_of_ne hle hshort)
        omega
    have hkept : (roundingExponent r t - t).toNat = 0 := by
      rw [roundingExponent]
      omega
    rw [shiftToTargetExponent_eq rfl, hkept]
    exact congrArg (unpackedFinite s r) (add_zero t)

/-! ### The numbers that floats stand for -/

/-- The float that has been taken apart is canonical and stands for the number. -/
structure StandsFor (u : UnpackedFloat) (q : ℚ) : Prop where
  canonical : Canonical u
  view : ∃ d, FloatView.ofUnpacked u = .finite d ∧ d.toRat = q

/-- The place of the last of the 53 binary digits of a number, or else the least place there is. -/
def IsLastPlace (q : ℚ) (t : ℤ) : Prop :=
  -1074 ≤ t ∧ (t = -1074 ∨ (2 : ℚ) ^ (t + 52) ≤ |q|) ∧ |q| < 2 ^ (t + 53)

/-- `IsRounded q r`: the number `q` is `r` when it is rounded in its last place. -/
def IsRounded (q r : ℚ) : Prop :=
  ∃ t z : ℤ, r = z * 2 ^ t ∧ IsLastPlace q t ∧ IsNearest (q / 2 ^ t) z

theorem signed_eq_apply (s : Sign) (n m : Nat) (e : ℤ) :
    (Dyadic.mk (isNegative s) m e).signed n = s.apply n := by
  cases s <;> rfl

/-- A mantissa and an exponent within the bounds stand for their product. -/
theorem standsFor_unpackedFinite (s : Sign) {m : Nat} {e : ℤ} (hm : m < 2 ^ 53)
    (hshape : 2 ^ 52 ≤ m ∨ e = -1074) (hleast : -1074 ≤ e) (hmost : e ≤ 971) :
    StandsFor (unpackedFinite s m e) (s.apply m * 2 ^ e) := by
  unfold unpackedFinite
  split
  case isTrue hzero =>
    refine ⟨trivial, _, rfl, ?_⟩
    subst hzero
    cases s <;> simp [Dyadic.toRat, Dyadic.signed, Sign.apply]
  case isFalse =>
    refine ⟨⟨hm, hshape, hleast, hmost⟩, _, rfl, ?_⟩
    rw [Dyadic.toRat, signed_eq_apply]

/-- An exact number is rounded to the nearest multiple of its last place. -/
theorem standsFor_roundWithAccuracy (s : Sign) {m : Nat} {e t : ℤ} (hm : 0 < m)
    (ht : roundingExponent m e = t) (he : e ≤ t) (hmost : t ≤ 970) :
    StandsFor (roundWithAccuracy .binary64 s m e .exact)
      (s.apply (divRound m (2 ^ (t - e).toNat)) * 2 ^ t) := by
  have hpos : 0 < 2 ^ (t - e).toNat := Nat.two_pow_pos _
  generalize hr : divRound m (2 ^ (t - e).toNat) = r
  have hle : r ≤ 2 ^ 53 := by
    rw [← hr]
    refine divRound_le hpos ?_
    rw [← pow_add]
    refine Nat.lt_log2_self.le.trans (Nat.pow_le_pow_right (by decide) ?_)
    rw [roundingExponent] at ht
    omega
  have hshape : 2 ^ 52 ≤ r ∨ t = -1074 := by
    by_cases hleast : t = -1074
    · exact .inr hleast
    · refine .inl ?_
      rw [← hr]
      refine le_divRound hpos ?_
      rw [← pow_add]
      refine (Nat.pow_le_pow_right (by decide) ?_).trans (Nat.log2_self_le hm.ne')
      rw [roundingExponent] at ht
      omega
  have hleast : -1074 ≤ t := ht ▸ le_max_right _ _
  rw [roundWithAccuracy_eq s ht he hr hle]
  split
  case isTrue hcarry =>
    have hstands :=
      standsFor_unpackedFinite s (m := 2 ^ 52) (e := t + 1) (by decide) (.inl le_rfl)
        (by omega) (by omega)
    have hvalue : ((s.apply ((2 ^ 52 : Nat) : ℤ) : ℤ) : ℚ) * 2 ^ (t + 1) =
        (s.apply (r : ℤ) : ℤ) * 2 ^ t := by
      rw [hcarry, zpow_add₀ two_ne_zero, zpow_one]
      cases s <;> (simp only [Sign.apply]; push_cast; ring)
    rw [← hvalue]
    exact hstands
  case isFalse => exact standsFor_unpackedFinite s (by omega) hshape hleast (by omega)

theorem log2_mul_two_pow {m : Nat} (hm : 0 < m) (j : Nat) : (m * 2 ^ j).log2 = m.log2 + j := by
  rw [Nat.log2_eq_iff (Nat.mul_pos hm (Nat.two_pow_pos j)).ne']
  constructor
  · rw [pow_add]
    exact Nat.mul_le_mul_right _ (Nat.log2_self_le hm.ne')
  · rw [show m.log2 + j + 1 = m.log2 + 1 + j by omega, pow_add]
    exact Nat.mul_lt_mul_of_pos_right Nat.lt_log2_self (Nat.two_pow_pos j)

/-- A sign may be put before a nearest whole number. -/
theorem IsNearest.apply {q : ℚ} {n : Nat} (h : IsNearest q n) (s : Sign) :
    IsNearest ((s.apply 1 : ℤ) * q) (s.apply n) := by
  cases s with
  | positive => simpa [Sign.apply] using h
  | negative => simpa [Sign.apply] using h.neg

theorem apply_one_mul (s : Sign) (n : Nat) : ((s.apply 1 : ℤ) : ℚ) * n = (s.apply n : ℤ) := by
  cases s <;> simp [Sign.apply]

theorem abs_apply_mul (s : Sign) (n : Nat) (e : ℤ) :
    |((s.apply n : ℤ) : ℚ) * 2 ^ e| = n * 2 ^ e := by
  have hpos : (0 : ℚ) ≤ n * 2 ^ e := by positivity
  cases s with
  | positive => exact abs_of_nonneg hpos
  | negative =>
    show |((-(n : ℤ) : ℤ) : ℚ) * 2 ^ e| = _
    rw [Int.cast_neg, neg_mul, abs_neg]
    exact abs_of_nonneg hpos

/-- A number that is not too large is rounded to 53 binary digits. -/
theorem exists_standsFor_round (s : Sign) {m : Nat} {e : ℤ} (hm : 0 < m)
    (hsmall : m.log2 + e < 1000) :
    ∃ r, StandsFor (UnpackedFloat.round .binary64 s m e) r ∧
    IsRounded ((s.apply m : ℤ) * 2 ^ e) r := by
  generalize ht : roundingExponent m e = t
  -- a mantissa that is too short is filled up with `j` digits first
  generalize hj : (e - t).toNat = j
  have hround : UnpackedFloat.round .binary64 s m e =
      roundWithAccuracy .binary64 s (m * 2 ^ j) (e - j) .exact := by
    rw [UnpackedFloat.round, targetExponent_eq, ht, decreaseExponent, hj, Nat.shiftLeft_eq]
  have hpos : 0 < m * 2 ^ j := Nat.mul_pos hm (Nat.two_pow_pos j)
  have ht' : roundingExponent (m * 2 ^ j) (e - j) = t := by
    rw [← ht, roundingExponent, roundingExponent, log2_mul_two_pow hm]
    congr 1
    push_cast
    ring
  rw [roundingExponent] at ht
  rw [hround]
  refine ⟨_, standsFor_roundWithAccuracy s hpos ht' (by omega) (by omega), t, _, rfl,
    ⟨by omega, ?_, ?_⟩, ?_⟩
  · by_cases hleast : t = -1074
    · exact .inl hleast
    · refine .inr ?_
      rw [abs_apply_mul, show t + 52 = m.log2 + e by omega, zpow_add₀ two_ne_zero]
      gcongr
      exact two_zpow_log2_le hm
  · rw [abs_apply_mul]
    calc (m : ℚ) * 2 ^ e < 2 ^ ((m.log2 : ℤ) + 1) * 2 ^ e := by
          gcongr
          exact lt_two_zpow_log2 m
      _ = 2 ^ ((m.log2 : ℤ) + 1 + e) := (zpow_add₀ two_ne_zero _ _).symm
      _ ≤ 2 ^ (t + 53) := zpow_le_zpow_right₀ one_le_two (by omega)
  · have hquotient : ((m * 2 ^ j : Nat) : ℚ) / ((2 ^ (t - (e - j)).toNat : Nat) : ℚ) =
        m * 2 ^ e / 2 ^ t := by
      rw [div_eq_div_iff (by positivity) (by positivity)]
      push_cast
      rw [← zpow_natCast, ← zpow_natCast, mul_assoc, mul_assoc, ← zpow_add₀ two_ne_zero,
        ← zpow_add₀ two_ne_zero]
      congr 2
      omega
    have hnearest :=
      (isNearest_divRound (n := m * 2 ^ j) (Nat.two_pow_pos (t - (e - j)).toNat)).apply s
    rw [hquotient, ← mul_div_assoc, ← mul_assoc, apply_one_mul] at hnearest
    exact hnearest

/-- A number below `2 ^ 1000` has a leading bit below that. -/
theorem log2_add_lt {m : Nat} {e : ℤ} (hm : 0 < m) (hsmall : (m : ℚ) * 2 ^ e < 2 ^ (1000 : ℤ)) :
    m.log2 + e < 1000 := by
  have hlt : (2 : ℚ) ^ ((m.log2 : ℤ) + e) < 2 ^ (1000 : ℤ) := by
    rw [zpow_add₀ two_ne_zero]
    refine lt_of_le_of_lt ?_ hsmall
    gcongr
    exact two_zpow_log2_le hm
  exact (zpow_lt_zpow_iff_right₀ one_lt_two).mp hlt

theorem isRounded_zero : IsRounded 0 0 := by
  refine ⟨-1074, 0, by simp, ⟨le_rfl, .inl rfl, ?_⟩, by simp [IsNearest]⟩
  rw [abs_zero]
  positivity

theorem standsFor_zero (s : Sign) : StandsFor (.zero s) 0 :=
  ⟨trivial, _, rfl, by cases s <;> simp [Dyadic.toRat, Dyadic.signed, isNegative]⟩

/-- What stands for a number is a zero or finite. -/
theorem StandsFor.zero_or_finite {u : UnpackedFloat} {q : ℚ} (h : StandsFor u q) :
    (∃ s, u = .zero s ∧ q = 0) ∨ ∃ s m e hm, u = .finite s m e hm ∧
    q = (s.apply m : ℤ) * 2 ^ e := by
  obtain ⟨d, hview, hd⟩ := h.view
  cases u with
  | infinity s | notANumber => cases hview
  | zero s =>
    cases hview
    obtain ⟨d, hview, hd'⟩ := (standsFor_zero s).view
    cases hview
    exact .inl ⟨s, rfl, hd.symm.trans hd'⟩
  | finite s m e hm =>
    cases hview
    rw [Dyadic.toRat, signed_eq_apply] at hd
    exact .inr ⟨s, m, e, hm, rfl, hd.symm⟩

/-- A canonical float is rounded to itself. -/
theorem StandsFor.isRounded {u : UnpackedFloat} {q : ℚ} (h : StandsFor u q) : IsRounded q q := by
  obtain ⟨s, rfl, rfl⟩ | ⟨s, m, e, hm, rfl, rfl⟩ := h.zero_or_finite
  · exact isRounded_zero
  · obtain ⟨hlt, hshape, hleast, -⟩ := h.canonical
    refine ⟨e, s.apply m, rfl, ⟨hleast, ?_, ?_⟩, ?_⟩
    · obtain hfull | hleast := hshape
      · refine .inr ?_
        rw [abs_apply_mul, add_comm, zpow_add₀ two_ne_zero]
        gcongr
        exact_mod_cast hfull
      · exact .inl hleast
    · rw [abs_apply_mul, add_comm, zpow_add₀ two_ne_zero]
      gcongr
      exact_mod_cast hlt
    · rw [mul_div_cancel_right₀ _ (by positivity)]
      simp [IsNearest]

/-- A whole number times a power of two is rounded correctly if it is below `2 ^ 1000`. -/
theorem exists_standsFor_normalize (n e : ℤ) (hsmall : |(n : ℚ) * 2 ^ e| < 2 ^ (1000 : ℤ)) :
    ∃ r, StandsFor (UnpackedFloat.normalize .binary64 n e .positive) r ∧
    IsRounded (n * 2 ^ e) r := by
  -- the sign is taken off, and what is left is rounded
  have hround (s : Sign) (m : Nat) (hm : 0 < m) (hn : s.apply m = n) :
      ∃ r, StandsFor (UnpackedFloat.round .binary64 s m e) r ∧ IsRounded (n * 2 ^ e) r := by
    rw [← hn] at hsmall ⊢
    rw [abs_apply_mul] at hsmall
    exact exists_standsFor_round s hm (log2_add_lt hm hsmall)
  unfold UnpackedFloat.normalize
  split
  case h_1 hlt =>
    have hneg : n < 0 := Int.compare_eq_lt.mp hlt
    exact hround .negative (-n).toNat (by omega) (by show -((-n).toNat : ℤ) = n; omega)
  case h_2 heq =>
    obtain rfl : n = 0 := Int.compare_eq_eq.mp heq
    rw [Int.cast_zero, zero_mul]
    exact ⟨0, standsFor_zero .positive, isRounded_zero⟩
  case h_3 hgt =>
    have hpos : 0 < n := Int.compare_eq_gt.mp hgt
    exact hround .positive n.toNat (by omega) (by show (n.toNat : ℤ) = n; omega)

/-- A smaller exponent with a larger mantissa is the same number. -/
theorem decreaseExponent_eq {m : Nat} {e t : ℤ} (ht : t ≤ e) (s : Sign) :
    ((s.apply (decreaseExponent m e t).1 : ℤ) : ℚ) * 2 ^ t = (s.apply m : ℤ) * 2 ^ e := by
  have hmantissa : (((decreaseExponent m e t).1 : Nat) : ℚ) * 2 ^ t = m * 2 ^ e := by
    show ((m <<< (e - t).toNat : Nat) : ℚ) * 2 ^ t = _
    rw [Nat.shiftLeft_eq, Nat.cast_mul, Nat.cast_pow, Nat.cast_ofNat, mul_assoc, ← zpow_natCast,
      ← zpow_add₀ two_ne_zero, show ((e - t).toNat : ℤ) + t = e by omega]
  rw [← apply_one_mul, ← apply_one_mul, mul_assoc, hmantissa, mul_assoc]

/-- **Sums are rounded correctly.** -/
theorem StandsFor.add {u v : UnpackedFloat} {p q : ℚ} (hu : StandsFor u p) (hv : StandsFor v q)
    (hsmall : |p + q| < 2 ^ (1000 : ℤ)) :
    ∃ r, StandsFor (UnpackedFloat.add .binary64 u v) r ∧ IsRounded (p + q) r := by
  obtain ⟨s, rfl, rfl⟩ | ⟨s, m, e, hm, rfl, rfl⟩ := hu.zero_or_finite
  · obtain ⟨s', rfl, rfl⟩ | ⟨s', m', e', hm', rfl, rfl⟩ := hv.zero_or_finite
    · rw [add_zero]
      refine ⟨0, ?_, isRounded_zero⟩
      cases s <;> cases s' <;> exact standsFor_zero _
    · rw [zero_add]
      exact ⟨_, hv, hv.isRounded⟩
  · obtain ⟨s', rfl, rfl⟩ | ⟨s', m', e', hm', rfl, rfl⟩ := hv.zero_or_finite
    · rw [add_zero]
      exact ⟨_, hu, hu.isRounded⟩
    · -- both mantissas are brought to the smaller exponent
      have hsum : ((s.apply m : ℤ) : ℚ) * 2 ^ e + (s'.apply m' : ℤ) * 2 ^ e' =
          ((s.apply (decreaseExponent m e (min e e')).1 +
            s'.apply (decreaseExponent m' e' (min e e')).1 : ℤ) : ℚ) * 2 ^ min e e' := by
        rw [Int.cast_add, add_mul, decreaseExponent_eq (min_le_left e e'),
          decreaseExponent_eq (min_le_right e e')]
      rw [hsum] at hsmall ⊢
      exact exists_standsFor_normalize _ _ hsmall

/-! ### Floats -/

/-- The float stands for the number. -/
def Denotes (x : Float) (q : ℚ) : Prop := ∃ d, FloatView.of x = .finite d ∧ d.toRat = q

/-- A float denotes what it stands for when it is unpacked. -/
theorem denotes_iff {x : Float} {q : ℚ} : Denotes x q ↔ StandsFor x.toModel.unpack q := by
  rw [Denotes, FloatView.of_eq]
  exact ⟨fun h => ⟨canonical_unpack _, h⟩, StandsFor.view⟩

/-- **The sum of two floats** is the sum of the numbers, rounded to 53 binary digits. -/
theorem Denotes.add {x y : Float} {p q : ℚ} (hx : Denotes x p) (hy : Denotes y q)
    (hsmall : |p + q| < 2 ^ (1000 : ℤ)) : ∃ r, Denotes (x + y) r ∧ IsRounded (p + q) r := by
  obtain ⟨r, hr, hrounded⟩ := (denotes_iff.mp hx).add (denotes_iff.mp hy) hsmall
  refine ⟨r, denotes_iff.mpr ?_, hrounded⟩
  show StandsFor
    (Float.Model.pack (UnpackedFloat.add .binary64 x.toModel.unpack y.toModel.unpack)).unpack r
  rw [unpack_pack hr.canonical]
  exact hr

/-! ### What rounding keeps -/

section
variable {q r : ℚ}

/-- The negative of a number is rounded to the negative. -/
theorem IsRounded.neg (h : IsRounded q r) : IsRounded (-q) (-r) := by
  obtain ⟨t, z, rfl, hplace, hnearest⟩ := h
  refine ⟨t, -z, by push_cast; ring, ?_, ?_⟩
  · rwa [IsLastPlace, abs_neg]
  · rw [neg_div]
    exact hnearest.neg

/-- The last place of a number below a power of two. -/
theorem IsLastPlace.le {t n : ℤ} (h : IsLastPlace q t) (hn : -1021 ≤ n) (hq : |q| < 2 ^ n) :
    t ≤ n - 53 := by
  obtain ⟨-, rfl | hle, -⟩ := h
  · omega
  · have := (zpow_lt_zpow_iff_right₀ (one_lt_two : (1 : ℚ) < 2)).mp (hle.trans_lt hq)
    omega

/-- A number has one last place. -/
theorem IsLastPlace.unique {t t' : ℤ} (h : IsLastPlace q t) (h' : IsLastPlace q t') : t = t' := by
  have hle {t t' : ℤ} (h : IsLastPlace q t) (h' : IsLastPlace q t') : t ≤ t' := by
    have hleast := h'.1
    have := h.le (n := t' + 53) (by omega) h'.2.2
    omega
  exact le_antisymm (hle h h') (hle h' h)

/-- There is one nearest whole number, as ties go to the even one. -/
theorem IsNearest.unique {y z : ℤ} (hy : IsNearest q y) (hz : IsNearest q z) : y = z := by
  have hle {y z : ℤ} (hy : IsNearest q y) (hz : IsNearest q z) : y ≤ z := by
    obtain ⟨hy, hy'⟩ := hy
    obtain ⟨hz, hz'⟩ := hz
    by_contra hlt
    have hmore : (z : ℚ) + 1 ≤ y := by exact_mod_cast Int.lt_of_not_ge hlt
    rw [abs_le] at hy hz
    -- two neighbours can only be as near if the number is half way between them, and one of them is
    -- odd
    have heven : Even y := hy' (by rw [abs_of_nonpos (by linarith)]; linarith)
    have heven' : Even z := hz' (by rw [abs_of_nonneg (by linarith)]; linarith)
    have hnext : y = z + 1 := by
      have : (y : ℚ) ≤ z + 1 := by linarith
      have : y ≤ z + 1 := by exact_mod_cast this
      omega
    rw [hnext] at heven
    exact absurd heven (Int.not_even_iff_odd.mpr heven'.add_one)
  exact le_antisymm (hle hy hz) (hle hz hy)

/-- A number is rounded to one number. -/
theorem IsRounded.unique {r' : ℚ} (h : IsRounded q r) (h' : IsRounded q r') : r = r' := by
  obtain ⟨t, z, rfl, hplace, hnearest⟩ := h
  obtain ⟨t', z', rfl, hplace', hnearest'⟩ := h'
  obtain rfl := hplace.unique hplace'
  rw [hnearest.unique hnearest']

/-- The nearest whole number does not pass a whole number. -/
theorem IsNearest.le_intCast {z k : ℤ} (h : IsNearest q z) (hk : q ≤ k) : z ≤ k := by
  by_contra hlt
  have hmore : (k + 1 : ℚ) ≤ z := by exact_mod_cast Int.lt_of_not_ge hlt
  linarith [(abs_le.mp h.1).1]

/-- A number does not pass a multiple of its last place when it is rounded. -/
theorem IsNearest.mul_le {z k t : ℤ} {j : Nat} (h : IsNearest (q / 2 ^ t) z)
    (hk : q ≤ k * 2 ^ (t + j)) :
    (z : ℚ) * 2 ^ t ≤ k * 2 ^ (t + j) := by
  have hpower : (k : ℚ) * 2 ^ (t + j) = ((k * 2 ^ j : ℤ) : ℚ) * 2 ^ t := by
    rw [zpow_add₀ two_ne_zero, zpow_natCast]
    push_cast
    ring
  rw [hpower] at hk ⊢
  have hle := h.le_intCast (k := k * 2 ^ j) ((div_le_iff₀ (by positivity)).mpr hk)
  gcongr

/-- A number does not pass a whole number when it is rounded. -/
theorem IsRounded.le_intCast (h : IsRounded q r) (hq : |q| < 2 ^ (53 : ℤ)) {k : ℤ}
    (hk : q ≤ k) : r ≤ k := by
  obtain ⟨t, z, rfl, hplace, hnearest⟩ := h
  have ht := hplace.le (by decide) hq
  obtain ⟨j, hj⟩ : ∃ j : Nat, t + j = 0 := ⟨(-t).toNat, by omega⟩
  have hmul := hnearest.mul_le (k := k) (j := j)
  rw [hj, zpow_zero, mul_one] at hmul
  exact hmul hk

/-- A number does not pass a float when it is rounded. -/
theorem IsRounded.le_of_le {p : ℚ} (h : IsRounded q r) (hp : IsRounded p p)
    (hqp : q ≤ p) : r ≤ p := by
  obtain ⟨t, z, rfl, hplace, hnearest⟩ := h
  obtain ⟨s, k, hk, hplace', -⟩ := hp
  rcases le_or_gt t s with hle | hlt
  · obtain ⟨j, rfl⟩ : ∃ j : Nat, s = t + j := ⟨(s - t).toNat, by omega⟩
    rw [hk] at hqp ⊢
    exact hnearest.mul_le hqp
  · -- the float has fewer places before the point, so the number is negative and further from zero
    have hleast := hplace'.1
    have hlow : (2 : ℚ) ^ (t + 52) ≤ |q| := hplace.2.1.resolve_left (by omega)
    have hhigh : |p| < 2 ^ (t + 52) :=
      hplace'.2.2.trans_le (zpow_le_zpow_right₀ one_le_two (by omega))
    have hneg : q ≤ (-1 : ℤ) * 2 ^ (t + (52 : Nat)) := by
      rw [abs_lt] at hhigh
      push_cast
      rcases abs_cases q with ⟨habs, -⟩ | ⟨habs, -⟩ <;> linarith
    have hmul := hnearest.mul_le hneg
    push_cast at hmul
    rw [abs_lt] at hhigh
    linarith

/-- Rounding does not pass a number that is rounded to itself. -/
theorem IsRounded.ge_of_ge {p : ℚ} (h : IsRounded q r) (hp : IsRounded p p)
    (hpq : p ≤ q) : p ≤ r := by
  have hneg := h.neg.le_of_le hp.neg (neg_le_neg hpq)
  linarith

/-- A float is below a rounded number just if it is below the number and not what that is rounded
to. -/
theorem IsRounded.lt_iff {p : ℚ} (h : IsRounded q r) (hp : IsRounded p p) :
    p < r ↔ p < q ∧ p ≠ r := by
  constructor
  · intro hlt
    refine ⟨lt_of_not_ge fun hle => ?_, hlt.ne⟩
    exact absurd (h.le_of_le hp hle) (not_le_of_gt hlt)
  · rintro ⟨hlt, hne⟩
    exact lt_of_le_of_ne (h.ge_of_ge hp hlt.le) hne

/-- Below `2 ^ 53` rounding does not pass a whole number. -/
theorem IsRounded.intCast_le (h : IsRounded q r) (hq : |q| < 2 ^ (53 : ℤ)) {k : ℤ}
    (hk : k ≤ q) : k ≤ r := by
  have hneg := h.neg.le_intCast (k := -k) (by rwa [abs_neg]) (by push_cast; linarith)
  push_cast at hneg
  linarith

/-- Rounding takes a number no further than half a unit of its last place. -/
theorem IsRounded.exists_abs_sub_le (h : IsRounded q r) :
    ∃ t, IsLastPlace q t ∧ |q - r| ≤ 2 ^ t / 2 := by
  obtain ⟨t, z, rfl, hplace, hnearest, -⟩ := h
  have hpos : (0 : ℚ) < 2 ^ t := by positivity
  refine ⟨t, hplace, ?_⟩
  calc |q - z * 2 ^ t| = |q / 2 ^ t - z| * 2 ^ t := by
        rw [← abs_of_pos hpos, ← abs_mul, abs_of_pos hpos, sub_mul, div_mul_cancel₀ _ hpos.ne']
    _ ≤ 1 / 2 * 2 ^ t := by gcongr
    _ = 2 ^ t / 2 := by ring

/-- How far rounding takes a number below a power of two. -/
theorem IsRounded.abs_sub_le (h : IsRounded q r) {n : ℤ} (hn : -1021 ≤ n) (hq : |q| < 2 ^ n) :
    |q - r| ≤ 2 ^ (n - 54) := by
  obtain ⟨t, hplace, hle⟩ := h.exists_abs_sub_le
  have ht := hplace.le hn hq
  calc |q - r| ≤ 2 ^ t / 2 := hle
    _ ≤ 2 ^ (n - 53) / 2 := by
        gcongr
        exact one_le_two
    _ = 2 ^ (n - 54) := by
        rw [show n - 53 = n - 54 + 1 by ring, zpow_add₀ two_ne_zero, zpow_one]
        ring

end

end Spellbook
