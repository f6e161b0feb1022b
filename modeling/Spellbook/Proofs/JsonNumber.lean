import Mathlib.Algebra.Order.Ring.Int
import Spellbook.Json.Reader
import Spellbook.Json.Writer
import Spellbook.Proofs.Digits
import Spellbook.Proofs.Pattern

/-!
# Numbers in JSON are read back

A whole number is written in digits, with no zero before the others, and comes back as it is. A
float is laid out with a point or an exponent, so that it is never taken for a whole number
(`isFloatNumeral_render`); the reader stops where the numeral does. The one layout in which zeros
could stand in front of others is that of a decimal without a digit but zero, and such a decimal is
small (`Decimal.shortest_point_le`).
-/

namespace Spellbook

/-! ## The digits of a float -/

namespace Decimal

/-- A positive number stays positive without its zeros. -/
theorem stripZeros_pos {fuel n : Nat} (hn : 0 < n) : 0 < stripZeros fuel n := by
  induction fuel generalizing n with
  | zero => exact hn
  | succ fuel ih =>
    rw [stripZeros]
    split
    · exact ih (by omega)
    · exact hn

/-- The number zero lies in no interval, so a neighbour that does is not zero. -/
theorem onGrid_pos {count : Nat} {point : ℤ} {low middle high den : Nat} {closed : Bool}
    (hlow : 0 < low) {digits : Nat}
    (h : onGrid count point low middle high den closed = some digits) : 0 < digits := by
  have hlow' : 0 < (scaleByTen low den (count - point)).1 := by
    rw [scaleByTen]
    split
    · exact Nat.mul_pos hlow (Nat.pow_pos (by decide))
    · exact hlow
  simp only [onGrid] at h
  generalize (scaleByTen low den (count - point)).1 = least at h hlow'
  generalize (scaleByTen high den (count - point)).1 = greatest at h
  generalize scaleByTen middle den (count - point) = number at h
  -- the neighbour above is a successor, and the one below only fits if it reaches the lower end
  have hbelow (hfits : 0 < number.1 / number.2 * number.2) : 0 < number.1 / number.2 :=
    Nat.pos_of_mul_pos_right hfits
  cases closed with
  | true =>
    simp only [if_true, Bool.and_eq_true, decide_eq_true_eq] at h
    split_ifs at h with hboth hnearer hlower hupper <;> obtain rfl := Option.some.inj h
    · exact Nat.succ_pos _
    · exact hbelow (by omega)
    · exact hbelow (by omega)
    · exact Nat.succ_pos _
  | false =>
    simp only [Bool.false_eq_true, if_false, Bool.and_eq_true, decide_eq_true_eq] at h
    split_ifs at h with hboth hnearer hlower hupper <;> obtain rfl := Option.some.inj h
    · exact Nat.succ_pos _
    · exact hbelow (by omega)
    · exact hbelow (by omega)
    · exact Nat.succ_pos _

/-- The digits that are found on the first grid are positive, unless the search came to its end. -/
theorem firstGrid_spec {fuel count : Nat} {point : ℤ} {low middle high den : Nat} {closed : Bool}
    (hlow : 0 < low) {digits c : Nat}
    (h : firstGrid fuel count point low middle high den closed = (digits, c)) :
    0 < digits ∨ digits = middle / den ∧ c = count + fuel := by
  induction fuel generalizing count with
  | zero =>
    obtain ⟨rfl, rfl⟩ := Prod.mk.inj h
    exact .inr ⟨rfl, rfl⟩
  | succ fuel ih =>
    rw [firstGrid] at h
    split at h
    · next found hfound =>
      obtain ⟨rfl, rfl⟩ := Prod.mk.inj h
      exact .inl (onGrid_pos hlow hfound)
    · rcases ih h with hpos | ⟨hdigits, hc⟩
      · exact .inl hpos
      · exact .inr ⟨hdigits, by omega⟩

/-- A fraction below one has an order of at most two. -/
theorem decimalOrder_le {num den : Nat} (h : num < den) : decimalOrder num den ≤ 2 := by
  have hlog : num.log2 ≤ den.log2 := by
    rcases Nat.eq_zero_or_pos num with rfl | hpos
    · simp
    · exact (Nat.le_log2 (by omega)).mpr ((Nat.log2_self_le (by omega)).trans h.le)
  have hbinary : binaryOrder num den ≤ 0 := by
    rw [binaryOrder]
    dsimp only
    split <;> omega
  have hguess : Int.fdiv (binaryOrder num den * 30103) 100000 ≤ 0 := by
    rw [Int.fdiv_eq_ediv_of_nonneg _ (by decide)]
    omega
  rw [decimalOrder]
  dsimp only
  split_ifs <;> omega

/-- The interval of a positive float is positive. -/
theorem Interval.low_pos {mantissa : Nat} (hm : 0 < mantissa) (exponent : ℤ) :
    0 < (Interval.of mantissa exponent).low := by
  have hone : 0 < 4 * mantissa - 1 := by omega
  have htwo : 0 < 4 * mantissa - 2 := by omega
  unfold Interval.of
  dsimp only
  split
  · exact hone
  · exact htwo

theorem scaleByTwo_one_pos (e : ℤ) : 0 < (scaleByTwo 1 1 e).1 := by
  rw [scaleByTwo]
  split
  · exact Nat.mul_pos one_pos (Nat.pow_pos (by decide))
  · exact one_pos

/-- Only a small decimal has no digits but a zero. -/
theorem shortest_point_le {mantissa : Nat} (hm : 0 < mantissa) (exponent : ℤ)
    (h : (shortest mantissa exponent).digits = 0) : (shortest mantissa exponent).point ≤ 1 := by
  unfold shortest at h ⊢
  have hlow := Nat.mul_pos (Interval.low_pos hm exponent) (scaleByTwo_one_pos (exponent - 2))
  have hden : 0 < (scaleByTwo 1 1 (exponent - 2)).2 := scaleByTwo_pos one_pos _
  generalize Interval.of mantissa exponent = i at h hlow ⊢
  generalize scaleByTwo 1 1 (exponent - 2) = u at h hlow hden ⊢
  dsimp only at h ⊢
  generalize hgrid : firstGrid 17 1 (decimalOrder (i.middle * u.1) u.2) (i.low * u.1)
    (i.middle * u.1) (i.high * u.1) u.2 i.closed = grid at h ⊢
  obtain ⟨digits, c⟩ := grid
  dsimp only at h ⊢
  obtain hpos | ⟨hdigits, hc⟩ := firstGrid_spec hlow hgrid
  · exact absurd h (stripZeros_pos hpos).ne'
  · obtain rfl : digits = 0 := by
      by_contra hne
      exact (stripZeros_pos (Nat.pos_of_ne_zero hne)).ne' h
    have horder := decimalOrder_le ((Nat.div_eq_zero_iff_lt hden).mp hdigits.symm)
    have hlength : (natText 0).length = 1 := rfl
    rw [hlength, hc]
    omega

end Decimal
namespace JsonValue

/-! ## Numbers -/

/-- The digits of a whole number: a zero does not stand before others. -/
def IsWhole (ds : List Char) : Prop :=
  (∀ c ∈ ds, isDigit c = true) ∧ ds ≠ [] ∧ (ds.head? = some '0' → ds = ['0'])

/-- The decimals of a number with their point, or nothing. -/
def IsFraction (cs : List Char) : Prop :=
  cs = [] ∨ ∃ d ds, cs = '.' :: d :: ds ∧ ∀ c ∈ d :: ds, isDigit c = true

/-- The exponent of a number with its letter and its sign, or nothing. -/
def IsPower (cs : List Char) : Prop :=
  cs = [] ∨ ∃ s d ds, cs = 'e' :: s :: d :: ds ∧ (s = '+' ∨ s = '-') ∧
  ∀ c ∈ d :: ds, isDigit c = true

/-- What follows a number and does not continue it. -/
def Stops (rest : List Char) : Prop :=
  ∀ c ∈ rest.head?, isDigit c = false ∧ c ≠ '.' ∧ (c == 'e' || c == 'E') = false

/-- Whole digits are read up to a character that is no digit. -/
theorem wholeDigits_append {ds rest : List Char} (hds : IsWhole ds)
    (hrest : ∀ c ∈ rest.head?, isDigit c = false) :
    wholeDigits (ds ++ rest) = (ds, rest) := by
  obtain ⟨hdigits, hne, hzero⟩ := hds
  cases ds with
  | nil => exact absurd rfl hne
  | cons d ds =>
    by_cases hd : d = '0'
    · subst hd
      obtain rfl : ds = [] := (List.cons.inj (hzero rfl)).2
      rfl
    · obtain ⟨htake, hdrop⟩ := span_eq_iff.mpr ⟨rfl, hdigits, hrest⟩
      rw [wholeDigits.eq_2 (d :: ds ++ rest) (fun cs hcs => hd (List.cons.inj hcs).1), htake, hdrop]

/-- A fraction is read up to a character that is neither a digit nor a point. -/
theorem decimals_append {f rest : List Char} (hf : IsFraction f)
    (hrest : ∀ c ∈ rest.head?, isDigit c = false ∧ c ≠ '.') : decimals (f ++ rest) = (f, rest) := by
  obtain rfl | ⟨d, ds, rfl, hds⟩ := hf
  · exact decimals.eq_2 _ fun c cs hcs => (hrest '.' (by simp [show rest = _ from hcs])).2 rfl
  · rw [List.forall_mem_cons] at hds
    obtain ⟨htake, hdrop⟩ := span_eq_iff.mpr ⟨rfl, hds.2, fun c hc => (hrest c hc).1⟩
    simp only [List.cons_append, decimals, hds.1, htake, hdrop, if_true]

theorem not_sign_of_isDigit {c : Char} (h : isDigit c = true) : (c == '+' || c == '-') = false := by
  rw [Bool.eq_false_iff]
  intro hsign
  rw [Bool.or_eq_true, beq_iff_eq, beq_iff_eq] at hsign
  rcases hsign with rfl | rfl <;> exact absurd h (by decide)

/-- A power is read up to a character that belongs to none. -/
theorem exponent_append {p rest : List Char} (hp : IsPower p)
    (hrest : ∀ c ∈ rest.head?, isDigit c = false ∧ (c == 'e' || c == 'E') = false) :
    exponent (p ++ rest) = (p, rest) := by
  obtain rfl | ⟨s, d, ds, rfl, hs, hds⟩ := hp
  · cases rest with
    | nil => rfl
    | cons c rest =>
      rw [List.nil_append, exponent]
      simp [(hrest c rfl).2]
  · have hsign : (s == '+' || s == '-') = true := by rcases hs with rfl | rfl <;> rfl
    have hd := List.forall_mem_cons.mp hds
    obtain ⟨htake, hdrop⟩ := span_eq_iff.mpr ⟨rfl, hds, fun c hc => (hrest c hc).1⟩
    have hone : (s :: (d :: ds ++ rest)).takeWhile (fun c => c == '+' || c == '-') = [s] := by
      simp [hsign, not_sign_of_isDigit hd.1]
    show exponent ('e' :: s :: (d :: ds ++ rest)) = _
    simp only [exponent, hone, List.length_singleton, List.drop_one, List.tail_cons, htake, hdrop]
    simp [hd.1]

section
variable {w f p rest : List Char}

/-- What the reader of numbers makes of a whole number. -/
theorem number?_whole (hw : IsWhole w) (hrest : Stops rest) (negative : Bool) :
    number? negative (w ++ rest) =
      some (.int (if negative then -(Numeral.natOfDigits w : ℤ) else Numeral.natOfDigits w),
        rest) := by
  have hempty : w.isEmpty = false := List.isEmpty_eq_false_iff.mpr hw.2.1
  have hdecimals : decimals rest = ([], rest) :=
    decimals_append (.inl rfl) fun c hc => ⟨(hrest c hc).1, (hrest c hc).2.1⟩
  have hexponent : exponent rest = ([], rest) :=
    exponent_append (.inl rfl) fun c hc => ⟨(hrest c hc).1, (hrest c hc).2.2⟩
  simp [number?, wholeDigits_append hw fun c hc => (hrest c hc).1, hempty, hdecimals, hexponent]

/-- A power and what stops a number begin with neither a digit nor a point. -/
theorem head?_power (hp : IsPower p) (hrest : Stops rest) :
    ∀ c ∈ (p ++ rest).head?, isDigit c = false ∧ c ≠ '.' := by
  obtain rfl | ⟨s, d, ds, rfl, -, -⟩ := hp
  · exact fun c hc => ⟨(hrest c hc).1, (hrest c hc).2.1⟩
  · rintro c ⟨⟩
    exact ⟨rfl, by decide⟩

theorem head?_fraction (hf : IsFraction f) (hp : IsPower p) (hrest : Stops rest) :
    ∀ c ∈ (f ++ (p ++ rest)).head?, isDigit c = false := by
  obtain rfl | ⟨d, ds, rfl, -⟩ := hf
  · exact fun c hc => (head?_power hp hrest c hc).1
  · rintro c ⟨⟩
    rfl

/-- A power has an exponent. -/
theorem readExponent?_isPower (hp : IsPower p) : ∃ e, Numeral.readExponent? p = some e := by
  obtain rfl | ⟨s, d, ds, rfl, hs, hds⟩ := hp
  · exact ⟨0, rfl⟩
  · have hall : (d :: ds).all Numeral.isPlainDigit = true := List.all_eq_true.mpr hds
    rcases hs with rfl | rfl <;> simp [Numeral.readExponent?, Numeral.takeSign, hall]

/-- Whole digits, decimals and an exponent are a float. -/
theorem readDigits?_numeral (hw : IsWhole w) (hf : IsFraction f) (hp : IsPower p)
    (negative : Bool) :
    ∃ x, Numeral.readDigits? negative (w ++ f ++ p) = some x := by
  have hstops : Stops [] := by simp [Stops]
  have hempty : w.isEmpty = false := List.isEmpty_eq_false_iff.mpr hw.2.1
  obtain ⟨e, he⟩ := readExponent?_isPower hp
  obtain ⟨htake, hdrop⟩ : (w ++ f ++ p).takeWhile Numeral.isPlainDigit = w ∧
      (w ++ f ++ p).dropWhile Numeral.isPlainDigit = f ++ p := by
    refine span_eq_iff.mpr ⟨List.append_assoc .., hw.1, ?_⟩
    have := head?_fraction hf hp hstops
    rwa [List.append_nil] at this
  obtain rfl | ⟨d, ds, rfl, hds⟩ := hf
  · simp only [Numeral.readDigits?, htake, hdrop, hempty, Bool.false_and, Bool.false_eq_true,
      if_false, List.nil_append]
    split
    · exact absurd rfl (head?_power hp hstops '.' rfl).2
    · rw [he]
      exact ⟨_, rfl⟩
  · obtain ⟨htake', hdrop'⟩ : (d :: ds ++ p).takeWhile Numeral.isPlainDigit = d :: ds ∧
        (d :: ds ++ p).dropWhile Numeral.isPlainDigit = p := by
      refine span_eq_iff.mpr ⟨rfl, hds, fun c hc => ?_⟩
      have := head?_power hp hstops c
      rw [List.append_nil] at this
      exact (this hc).1
    have hpoint : '.' :: d :: ds ++ p = '.' :: (d :: ds ++ p) := rfl
    simp only [Numeral.readDigits?, htake, hdrop, hempty, Bool.false_and, Bool.false_eq_true,
      if_false, hpoint, htake', hdrop', he, Option.map_some]
    exact ⟨_, rfl⟩

/-- A numeral with a fraction or a power is read as a float. -/
theorem number?_numeral (hw : IsWhole w) (hf : IsFraction f) (hp : IsPower p) (hne : f ++ p ≠ [])
    (hrest : Stops rest) {negative : Bool} {x : Float}
    (hx : Numeral.readDigits? negative (w ++ f ++ p) = some x) :
    number? negative (w ++ f ++ p ++ rest) = some (.float x, rest) := by
  have hempty : w.isEmpty = false := List.isEmpty_eq_false_iff.mpr hw.2.1
  have hpoint : (f.isEmpty && p.isEmpty) = false := by
    rw [Bool.and_eq_false_iff, List.isEmpty_eq_false_iff, List.isEmpty_eq_false_iff]
    by_contra! h
    exact hne (by rw [h.1, h.2, List.append_nil])
  have hexponent : exponent (p ++ rest) = (p, rest) :=
    exponent_append hp fun c hc => ⟨(hrest c hc).1, (hrest c hc).2.2⟩
  rw [List.append_assoc, List.append_assoc]
  simp only [number?, wholeDigits_append hw (head?_fraction hf hp hrest),
    decimals_append hf (head?_power hp hrest), hexponent, hempty, hpoint, hx]
  rfl
end

/-! ## Written numbers -/

theorem isWhole_toDigits (n : Nat) : IsWhole (Nat.toDigits 10 n) := by
  refine ⟨fun c hc => isDigit_of_mem_toDigits hc, Nat.toDigits_ne_nil, fun h => ?_⟩
  rw [eq_zero_of_head?_toDigits h]
  rfl

theorem isDigit_of_mem_zeros {n : Nat} {c : Char} (hc : c ∈ (Decimal.zeros n).toList) :
    isDigit c = true := by
  rw [Decimal.zeros, String.toList_ofList] at hc
  rw [List.eq_of_mem_replicate hc]
  rfl

/-- Zeros and the digits of a number are digits, of which there is one at least. -/
theorem exists_digits (k n : Nat) :
    ∃ d ds, (Decimal.zeros k ++ Decimal.natText n).toList = d :: ds ∧
    ∀ c ∈ d :: ds, isDigit c = true := by
  have hdigits : ∀ c ∈ (Decimal.zeros k ++ Decimal.natText n).toList, isDigit c = true := by
    intro c hc
    rw [String.toList_append, List.mem_append, Decimal.toList_natText] at hc
    exact hc.elim isDigit_of_mem_zeros isDigit_of_mem_toDigits
  cases hall : (Decimal.zeros k ++ Decimal.natText n).toList with
  | nil =>
    rw [String.toList_append, List.append_eq_nil_iff, Decimal.toList_natText] at hall
    exact absurd hall.2 Nat.toDigits_ne_nil
  | cons d ds =>
    rw [hall] at hdigits
    exact ⟨d, ds, rfl, hdigits⟩

/-- A text of whole digits, decimals and an exponent, not both of the last being empty. -/
def IsFloatNumeral (cs : List Char) : Prop :=
  ∃ w f p, cs = w ++ f ++ p ∧ IsWhole w ∧ IsFraction f ∧ IsPower p ∧ f ++ p ≠ []

theorem isFraction_zero : IsFraction ['.', '0'] :=
  .inr ⟨'0', [], rfl, List.forall_mem_singleton.mpr rfl⟩

theorem isWhole_singleton {c : Char} (hc : isDigit c = true) : IsWhole [c] :=
  ⟨by simpa using hc, by simp, by simp⟩

/-- The digits before the point, filled with zeros. -/
theorem isWhole_zeros {ds : List Char} (hds : IsWhole ds) {n : Nat}
    (hn : ds.head? = some '0' → n = 0) :
    IsWhole (ds ++ (Decimal.zeros n).toList) := by
  refine ⟨?_, by simp [hds.2.1], ?_⟩
  · intro c hc
    exact (List.mem_append.mp hc).elim (hds.1 c) isDigit_of_mem_zeros
  · rw [List.head?_append_of_ne_nil _ hds.2.1]
    intro h
    rw [hn h, hds.2.2 h]
    rfl

/-- One digit before the point, and an exponent. -/
theorem isFloatNumeral_exponent {c : Char} {ds p : List Char}
    (hdigits : ∀ a ∈ c :: ds, isDigit a = true) (hp : IsPower p) (hne : p ≠ []) :
    IsFloatNumeral (c :: (if ds = [] then [] else '.' :: ds) ++ p) := by
  have hc := isWhole_singleton (hdigits c (by simp))
  cases ds with
  | nil => exact ⟨[c], [], p, by simp, hc, .inl rfl, hp, by simpa using hne⟩
  | cons d ds =>
    exact ⟨[c], '.' :: d :: ds, p, by simp, hc,
      .inr ⟨d, ds, rfl, fun b hb => hdigits b (by simp [hb])⟩, hp, by simp⟩

/-- A point among the digits. -/
theorem isFloatNumeral_point {ds : List Char} (hdigits : ∀ c ∈ ds, isDigit c = true)
    (hhead : ds.head? ≠ some '0') {k : Nat} (hk : 0 < k) (hlt : k < ds.length) :
    IsFloatNumeral (ds.take k ++ '.' :: ds.drop k) := by
  have hdropped : 0 < (ds.drop k).length := by
    rw [List.length_drop]
    omega
  obtain ⟨d, rest, hdrop⟩ := List.exists_cons_of_length_pos hdropped
  refine ⟨ds.take k, '.' :: ds.drop k, [], by simp,
    ⟨fun c hc => hdigits c (List.mem_of_mem_take hc), ?_, ?_⟩,
    .inr ⟨d, rest, by rw [hdrop], ?_⟩, .inl rfl, by simp⟩
  · rw [Ne, List.take_eq_nil_iff]
    rintro (rfl | rfl)
    · exact absurd hk (by decide)
    · exact absurd hlt (by simp)
  · rw [List.head?_take, if_neg hk.ne']
    exact fun h => absurd h hhead
  · intro c hc
    exact hdigits c (List.mem_of_mem_drop (hdrop ▸ hc))

/-- The exponent of a decimal as it is laid out. -/
theorem isPower_exponent (e : ℤ) : IsPower ("e" ++ ((if e < 0 then "-" else "+") ++
    Decimal.padLeft Decimal.Layout.plain.exponentDigits (Decimal.natText e.natAbs))).toList := by
  obtain ⟨d, ds, hds, hdigits⟩ := exists_digits (2 - (Decimal.natText e.natAbs).length) e.natAbs
  refine .inr ⟨if e < 0 then '-' else '+', d, ds, ?_, ?_, hdigits⟩
  · rw [← hds, String.toList_append, String.toList_append]
    split <;> rfl
  · split
    · exact .inr rfl
    · exact .inl rfl

/-- A decimal is laid out as a float. Zeros would only be written in front of the point if its
digits were a zero. -/
theorem isFloatNumeral_render {d : Decimal} (hd : d.digits = 0 → d.point ≤ 1) :
    IsFloatNumeral (d.render .plain).toList := by
  have hds : (Decimal.natText d.digits).toList = Nat.toDigits 10 d.digits :=
    Decimal.toList_natText _
  have hn : (Decimal.natText d.digits).length = (Nat.toDigits 10 d.digits).length :=
    String.length_ofList
  have hwhole := isWhole_toDigits d.digits
  have hzero (h : (Nat.toDigits 10 d.digits).head? = some '0') : d.point ≤ 1 :=
    hd (eq_zero_of_head?_toDigits h)
  have hpos := List.length_pos_of_ne_nil hwhole.2.1
  rw [Decimal.render]
  dsimp only
  rw [hds, hn]
  by_cases hpower : d.point < Decimal.Layout.plain.leastPoint ∨
    Decimal.Layout.plain.greatestPoint < d.point
  · rw [if_pos hpower, String.append_assoc, String.append_assoc, String.toList_append]
    generalize Nat.toDigits 10 d.digits = ds at hwhole
    obtain ⟨c, cs, rfl⟩ := List.exists_cons_of_ne_nil hwhole.2.1
    have hnumeral := isFloatNumeral_exponent hwhole.1 (isPower_exponent (d.point - 1)) (by simp)
    cases cs with
    | nil => rwa [String.toList_singleton]
    | cons a cs =>
      rwa [String.toList_append, String.toList_append, String.toList_singleton,
        String.toList_ofList, String.toList_ofList, List.append_assoc [c]]
  · rw [if_neg hpower]
    by_cases hsmall : d.point ≤ 0
    · rw [if_pos hsmall]
      obtain ⟨e, es, hes, hdigits⟩ := exists_digits (-d.point).toNat d.digits
      refine ⟨['0'], '.' :: e :: es, [], ?_, isWhole_singleton rfl, .inr ⟨e, es, rfl, hdigits⟩,
        .inl rfl, by simp⟩
      rw [← hes, String.append_assoc]
      simp
    · rw [if_neg hsmall]
      by_cases hlarge : ((Nat.toDigits 10 d.digits).length : ℤ) ≤ d.point
      · rw [if_pos hlarge, String.toList_append, String.toList_append, hds]
        refine ⟨_, ['.', '0'], [], (List.append_nil _).symm, isWhole_zeros hwhole ?_,
          isFraction_zero, .inl rfl, by simp⟩
        intro h
        have := hzero h
        omega
      · rw [if_neg hlarge, String.append_assoc, String.toList_append, String.toList_append,
          String.toList_ofList, String.toList_ofList, String.toList_ofList]
        have hbefore : 0 < d.point.toNat := by omega
        refine isFloatNumeral_point hwhole.1 ?_ hbefore (by omega)
        intro h
        rw [hwhole.2.2 h, List.length_singleton] at hlarge
        omega

/-! ## Reading them back -/

/-- The text of a finite float without its sign. -/
def unsignedText (d : Dyadic) : String :=
  if d.mantissa = 0 then "0.0" else (Decimal.shortest d.mantissa d.exponent).render .plain

/-- What is written for a float is a numeral. -/
theorem isFloatNumeral_unsignedText (d : Dyadic) : IsFloatNumeral (unsignedText d).toList := by
  rw [unsignedText]
  split
  · exact ⟨['0'], ['.', '0'], [], rfl, isWhole_singleton rfl, isFraction_zero, .inl rfl, by simp⟩
  · next hm =>
      exact isFloatNumeral_render (Decimal.shortest_point_le (Nat.pos_of_ne_zero hm) d.exponent)

/-- The number that a written float is read back as. -/
def rereadFloat (x : Float) : Float :=
  match FloatView.of x with
  | .nan => notANumber
  | .infinite negative => infinity negative
  | .finite d => (Numeral.readDigits? d.negative (unsignedText d).toList).getD x

theorem ne_of_isDigit {c a : Char} (hc : isDigit c = true) (ha : isDigit a = false) : c ≠ a := by
  rintro rfl
  exact Bool.false_ne_true (ha.symm.trans hc)

/-- No word starts with a digit, and the only one with a sign goes on with a letter. -/
theorem afterWord?_number {w : String} (hw : w ∈ words.map Prod.fst) {c : Char}
    (hc : isDigit c = true) (negative : Bool) (cs : List Char) :
    afterWord? w ((signText negative).toList ++ c :: cs) = none := by
  have hne (a : Char) (ha : isDigit a = false) : a ≠ c := (ne_of_isDigit hc ha).symm
  have hall : w ∈ ["null", "true", "false", "NaN", "Infinity", "-Infinity"] := hw
  simp only [List.mem_cons, List.not_mem_nil, or_false] at hall
  cases negative <;> rcases hall with rfl | rfl | rfl | rfl | rfl | rfl <;>
    simp [afterWord?, signText, hne 'n' rfl, hne 't' rfl, hne 'f' rfl, hne 'N' rfl,
      hne 'I' rfl, hne '-' rfl]

/-- A number is read behind its sign. -/
theorem simple_number {negative : Bool} {cs rest : List Char} {v : JsonValue}
    (hdigit : ∃ c ∈ cs.head?, isDigit c = true) (h : number? negative cs = some (v, rest)) :
    simple ((signText negative).toList ++ cs) = .ok (v, rest) := by
  obtain ⟨c, hc, hdigit⟩ := hdigit
  obtain ⟨ds, rfl⟩ : ∃ ds, cs = c :: ds := List.head?_eq_some_iff.mp hc
  unfold simple
  split
  · next r hr =>
    obtain ⟨⟨w, u⟩, hw, hafter⟩ := List.exists_of_findSome?_eq_some hr
    have hnone := afterWord?_number (List.mem_map_of_mem hw) hdigit negative ds
    dsimp only at hafter hnone
    rw [hnone] at hafter
    exact absurd hafter (Option.some_ne_none _).symm
  · cases negative with
    | true => simp [signText, h]
    | false =>
      have hminus : c ≠ '-' := ne_of_isDigit hdigit rfl
      simp [signText, h, hminus]

/-- A word is read as what it stands for. -/
theorem simple_word {w : String} {v : JsonValue} (hw : (w, v) ∈ words) (rest : List Char) :
    simple (w.toList ++ rest) = .ok (v, rest) := by
  simp only [words, List.mem_cons, Prod.mk.injEq, List.not_mem_nil, or_false] at hw
  rcases hw with ⟨rfl, rfl⟩ | ⟨rfl, rfl⟩ | ⟨rfl, rfl⟩ | ⟨rfl, rfl⟩ | ⟨rfl, rfl⟩ | ⟨rfl, rfl⟩ <;> rfl

/-- A whole number is read back. -/
theorem simple_intNumeral (n : ℤ) {rest : List Char} (hrest : Stops rest) :
    simple ((intNumeral n).toList ++ rest) = .ok (.int n, rest) := by
  have hread := number?_whole (isWhole_toDigits n.natAbs) hrest (decide (n < 0))
  rw [Numeral.natOfDigits_toDigits] at hread
  have hsigned : (if decide (n < 0) = true then -(n.natAbs : ℤ) else n.natAbs) = n := by
    split <;> simp only [decide_eq_true_eq] at * <;> omega
  rw [hsigned] at hread
  rw [intNumeral, String.toList_append, Decimal.toList_natText, List.append_assoc]
  refine simple_number ?_ hread
  obtain ⟨c, ds, hds⟩ := List.exists_cons_of_ne_nil (isWhole_toDigits n.natAbs).2.1
  exact ⟨c, by simp [hds], (isWhole_toDigits n.natAbs).1 c (by simp [hds])⟩

/-- A float is read back as far as its numeral tells it. -/
theorem simple_floatNumeral (x : Float) {rest : List Char} (hrest : Stops rest) :
    simple ((floatNumeral x).toList ++ rest) = .ok (.float (rereadFloat x), rest) := by
  rw [floatNumeral, rereadFloat]
  cases hx : FloatView.of x with
  | nan => exact simple_word (by rw [words]; simp) rest
  | infinite negative =>
    cases negative with
    | true => exact simple_word (w := "-Infinity") (by rw [words]; simp) rest
    | false => exact simple_word (w := "Infinity") (by rw [words]; simp) rest
  | finite d =>
    have htext : floatText x = signText d.negative ++ unsignedText d := by rw [floatText, hx]; rfl
    obtain ⟨w, f, p, hcs, hw, hf, hp, hne⟩ := isFloatNumeral_unsignedText d
    obtain ⟨y, hy⟩ := readDigits?_numeral hw hf hp d.negative
    obtain ⟨c, ds, rfl⟩ := List.exists_cons_of_ne_nil hw.2.1
    dsimp only
    rw [htext, String.toList_append, List.append_assoc, hcs, hy, Option.getD_some]
    exact simple_number ⟨c, rfl, hw.1 c (by simp)⟩ (number?_numeral hw hf hp hne hrest hy)

end JsonValue
end Spellbook
