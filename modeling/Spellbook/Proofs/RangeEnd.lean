import Spellbook.Proofs.NumberOrder
import Spellbook.Proofs.RangeCycle

/-!
# Ranges that end

A cycle over a range ends if its values get past the end, and they do if each is greater than the
one before by more than rounding can take away. A float that is stepped becomes greater by the step,
up to an error of its last digit. A whole number that is stepped by a float loses the fractional
part of the sum, so that it may stay what it is: then the cycle stalls there. A range with a
positive step ends unless it stalls, and then it never ends (`range_cycle_ends`).
-/

namespace Spellbook

/-! ### Numbers that are stepped -/

/-- The value is a number that stands for the rational number. -/
def Value.Denotes (v : Value) (q : ℚ) : Prop := ∃ a : Num, a.toValue = v ∧ a.Denotes q

section
variable {v w : Value} {p q : ℚ}

/-- What denotes a number is one. -/
theorem Value.Denotes.isNumber (hv : v.Denotes p) : v.kind.isNumber = true := by
  obtain ⟨a, rfl, -⟩ := hv
  cases a <;> rfl

/-- Values are compared as the numbers that they denote. -/
theorem Value.Denotes.compare_atMost (hv : v.Denotes p) (hw : w.Denotes q) :
    Value.compare .atMost v w = .ok (decide (p ≤ q)) := by
  obtain ⟨a, rfl, ha⟩ := hv
  obtain ⟨b, rfl, hb⟩ := hw
  exact ha.compare_atMost hb

theorem Value.Denotes.int_eq {n : ℤ} (h : (Value.int n).Denotes q) : (n : ℚ) = q := by
  obtain ⟨a, ha, hq⟩ := h
  cases a with
  | int m =>
    cases ha
    exact hq
  | float x => cases ha

theorem Value.Denotes.float_denotes {x : Float} (h : (Value.float x).Denotes q) :
    Spellbook.Denotes x q := by
  obtain ⟨a, ha, hq⟩ := h
  cases a with
  | int n => cases ha
  | float y =>
    cases ha
    exact hq

theorem Value.denotes_int (n : ℤ) : (Value.int n).Denotes n := ⟨.int n, rfl, rfl⟩

theorem Value.denotes_float {x : Float} (hx : Spellbook.Denotes x q) : (Value.float x).Denotes q :=
  ⟨.float x, rfl, hx⟩

end

/-- Cutting off the fraction does not pass a whole number downwards. -/
theorem CutsOff.intCast_le {q : ℚ} {z k : ℤ} (h : CutsOff q z) (hk : k ≤ q) : k ≤ z := by
  rcases le_total 0 q with hq | hq
  · rw [h.1 hq]
    exact Int.le_floor.mpr hk
  · rw [h.2 hq]
    exact_mod_cast hk.trans (Int.le_ceil q)

theorem CutsOff.le_intCast {q : ℚ} {z k : ℤ} (h : CutsOff q z) (hk : q ≤ k) : z ≤ k := by
  have hneg := h.neg.intCast_le (k := -k) (by push_cast; linarith)
  omega

section
variable {x s : Float} {p r : ℚ} {n : ℤ}

/-- A float is stepped by the step, up to a rounding error. -/
theorem reckon_float {c : Value} (hx : Denotes x p) (hc : c.Denotes r) (hp : |p| ≤ 1000)
    (hr : |r| ≤ 1000) :
    ∃ y q, Value.reckon .plus (.float x) c = .ok (.float y) ∧ Denotes y q ∧
    |p + r - q| ≤ 2 ^ (-43 : ℤ) := by
  have hsum : |p + r| < 2 ^ (11 : ℤ) := by
    refine (abs_add_le p r).trans_lt ?_
    norm_num
    linarith
  have hadd {y : Float} (hy : Denotes y r) : ∃ q, Denotes (x + y) q ∧
      |p + r - q| ≤ 2 ^ (-43 : ℤ) := by
    obtain ⟨q, hq, hrounded⟩ :=
      hx.add hy (hsum.trans (zpow_lt_zpow_right₀ one_lt_two (by norm_num)))
    have herror := hrounded.abs_sub_le (by norm_num) hsum
    rw [show (11 : ℤ) - 54 = -43 by norm_num] at herror
    exact ⟨q, hq, herror⟩
  obtain ⟨a, rfl, ha⟩ := hc
  cases a with
  | float y =>
    obtain ⟨q, hq, herror⟩ := hadd ha
    exact ⟨x + y, q, rfl, hq, herror⟩
  | int k =>
    -- a whole step is made a float first
    obtain rfl : (k : ℚ) = r := ha
    have hk : k.natAbs < 2 ^ 53 := by
      have : |k| ≤ 1000 := by exact_mod_cast hr
      rw [Int.abs_eq_natAbs] at this
      omega
    obtain ⟨y, hy, hdenotes⟩ := floatOfInt_denotes hk
    obtain ⟨q, hq, herror⟩ := hadd hdenotes
    refine ⟨x + y, q, ?_, hq, herror⟩
    show ((floatOfInt k >>= fun y => Except.ok (Num.float (x + y))).map _ >>= _ : Fallible Value) =
      _
    rw [hy]
    rfl

variable (hs : Denotes s r) (hn : |n| ≤ 1000) (hr : 1 / 1000 ≤ r) (hr' : r ≤ 1000)
include hs hn hr hr'

/-- A whole number that is stepped by a float loses the fractional part of the rounded sum. -/
theorem reckon_whole : ∃ q z, Value.reckon .plus (.int n) (.float s) = .ok (.int z) ∧
    IsRounded (n + r) q ∧ |n + r| < 2 ^ (11 : ℤ) ∧ CutsOff q z := by
  have hsum : |n + r| < 2 ^ (11 : ℤ) := by
    have hn' : |(n : ℚ)| ≤ 1000 := by exact_mod_cast hn
    refine (abs_add_le (n : ℚ) r).trans_lt ?_
    rw [abs_of_nonneg (by linarith : (0 : ℚ) ≤ r)]
    norm_num
    linarith
  obtain ⟨x, hx, hdenotes⟩ := floatOfInt_denotes (n := n) (by rw [Int.abs_eq_natAbs] at hn; omega)
  obtain ⟨q, ⟨d, hview, rfl⟩, hrounded⟩ :=
    hdenotes.add hs (hsum.trans (zpow_lt_zpow_right₀ one_lt_two (by norm_num)))
  refine ⟨d.toRat, d.truncate, ?_, hrounded, hsum, d.cutsOff_truncate⟩
  show ((floatOfInt n >>= fun x => Except.ok (Num.float (x + s))).map _ >>= _ : Fallible Value) = _
  rw [hx]
  show (wholeOf Dyadic.truncate (x + s)).map Value.int = _
  rw [wholeOf, hview]
  rfl

/-- A whole number does not become smaller when it is stepped, and it becomes greater by one at most
if the step is less than one, and at least if it is not. -/
theorem reckon_whole_between : ∃ z, Value.reckon .plus (.int n) (.float s) = .ok (.int z) ∧ n ≤ z ∧
    (r < 1 → z ≤ n + 1) ∧ (1 ≤ r → n + 1 ≤ z) := by
  obtain ⟨q, z, hreckon, hrounded, hsum, hcut⟩ := reckon_whole hs hn hr hr'
  have hsum : |n + r| < 2 ^ (53 : ℤ) := hsum.trans (zpow_lt_zpow_right₀ one_lt_two (by norm_num))
  refine ⟨z, hreckon, hcut.intCast_le (hrounded.intCast_le hsum (by linarith)), fun hless => ?_,
    fun hmore => ?_⟩
  · refine hcut.le_intCast (hrounded.le_intCast hsum ?_)
    push_cast
    linarith
  · refine hcut.intCast_le (hrounded.intCast_le hsum ?_)
    push_cast
    linarith

/-- A negative number becomes greater when it is stepped, since it is cut off upwards. -/
theorem reckon_whole_negative (hneg : n < 0) :
    ∃ z, Value.reckon .plus (.int n) (.float s) = .ok (.int z) ∧ n < z := by
  obtain ⟨q, z, hreckon, hrounded, hsum, hcut⟩ := reckon_whole hs hn hr hr'
  have herror := abs_le.mp (hrounded.abs_sub_le (by norm_num) hsum)
  norm_num at herror
  have hlt : (n : ℚ) < q := by linarith
  refine ⟨z, hreckon, ?_⟩
  rcases le_total 0 q with hq | hq
  · rw [hcut.1 hq]
    exact hneg.trans_le (Int.floor_nonneg.mpr hq)
  · rw [hcut.2 hq]
    exact Int.lt_ceil.mpr hlt

/-- A whole number that is not negative stays what it is if the step is less than one, though from
one on the sum may be rounded up if the step is close to one. -/
theorem reckon_whole_stays (hnonneg : 0 ≤ n) (hless : (n = 0 ∧ r < 1) ∨ r ≤ 999 / 1000) :
    Value.reckon .plus (.int n) (.float s) = .ok (.int n) := by
  obtain ⟨q, z, hreckon, hrounded, hsum, hcut⟩ := reckon_whole hs hn hr hr'
  have hle : (n : ℚ) ≤ q :=
    hrounded.intCast_le (hsum.trans (zpow_lt_zpow_right₀ one_lt_two (by norm_num))) (by linarith)
  have hlt : q < n + 1 := by
    obtain ⟨rfl, hless⟩ | hless := hless
    · -- from zero the sum is the step itself, which is not rounded
      rw [Int.cast_zero, zero_add] at hrounded ⊢
      rwa [hrounded.unique (denotes_iff.mp hs).isRounded]
    · have herror := abs_le.mp (hrounded.abs_sub_le (by norm_num) hsum)
      norm_num at herror
      linarith
  have hq : 0 ≤ q := (Int.cast_nonneg hnonneg).trans hle
  rw [hreckon, hcut.1 hq, Int.floor_eq_iff.mpr ⟨hle, hlt⟩]

end

/-! ### The values of a range -/

def turnValues (start step : Value) : Nat → Value
  | 0 => start
  | k + 1 =>
    ((Value.reckon .plus (turnValues start step k) step).toOption).getD (turnValues start step k)

/-- The value of the next turn is that of the turn plus the step. -/
theorem turnValues_succ {start step v : Value} {k : Nat}
    (h : Value.reckon .plus (turnValues start step k) step = .ok v) :
    turnValues start step (k + 1) = v := by
  rw [turnValues, h]
  rfl

section
variable {a b c : Value} {q : ℚ} (hb : b.Denotes q)
include hb

/-- If values that are in order are not above the end and lead to such values, every value is
followed by a turn. -/
theorem isTurn_of_invariant (P : Value → Prop) (hstart : P a)
    (hnext : ∀ v, P v → (∃ p, v.Denotes p ∧ p ≤ q) ∧ ∃ w, Value.reckon .plus v c = .ok w ∧ P w)
    (k : Nat) :
    IsTurn (turnValues a c) b c k := by
  have hall : P (turnValues a c k) := by
    induction k with
    | zero => exact hstart
    | succ k ih =>
      obtain ⟨-, w, hw, hP⟩ := hnext _ ih
      rwa [turnValues_succ hw]
  obtain ⟨⟨p, hp, hle⟩, w, hw, -⟩ := hnext _ hall
  refine ⟨hp.isNumber, ?_, ?_⟩
  · rw [hp.compare_atMost hb, decide_eq_true hle]
  · rw [hw, turnValues_succ hw]

/-- If each value is greater than the one before by `δ` at least as long as the end has not been
passed, it is passed in the end. -/
theorem exists_end_of_invariant (P : Value → ℚ → Prop) {p δ : ℚ} (hδ : 0 < δ) (hstart : P a p)
    (hdenotes : ∀ v p, P v p → v.Denotes p)
    (hnext : ∀ v p, P v p → p ≤ q → ∃ w p', Value.reckon .plus v c = .ok w ∧ P w p' ∧ p + δ ≤ p') :
    ∃ n, EndsAt (turnValues a c) b c n := by
  -- as long as the end has not been passed, the values have grown by `δ` in each turn
  have hgrown (n : Nat) : (∃ n, EndsAt (turnValues a c) b c n) ∨
      (∀ k < n, IsTurn (turnValues a c) b c k) ∧ ∃ p', P (turnValues a c n) p' ∧
      p + n * δ ≤ p' := by
    induction n with
    | zero => exact .inr ⟨nofun, p, hstart, by simp⟩
    | succ n ih =>
      obtain hended | ⟨hturns, p', hP, hgrown⟩ := ih
      · exact .inl hended
      · have hcompare := (hdenotes _ _ hP).compare_atMost hb
        by_cases hle : p' ≤ q
        · obtain ⟨w, p'', hw, hP', hstep⟩ := hnext _ _ hP hle
          refine .inr ⟨fun k hk => ?_, p'', by rwa [turnValues_succ hw], by push_cast; linarith⟩
          obtain hk | rfl := Nat.lt_succ_iff_lt_or_eq.mp hk
          · exact hturns k hk
          · refine ⟨(hdenotes _ _ hP).isNumber, ?_, ?_⟩
            · rw [hcompare, decide_eq_true hle]
            · rw [hw, turnValues_succ hw]
        · rw [decide_eq_false hle] at hcompare
          exact .inl ⟨n, hturns, (hdenotes _ _ hP).isNumber, hcompare⟩
  obtain ⟨n, hn⟩ := exists_nat_gt ((q - p) / δ)
  obtain hended | ⟨hturns, p', hP, hgrown⟩ := hgrown n
  · exact hended
  · have hpassed : ¬p' ≤ q := by
      rw [div_lt_iff₀ hδ] at hn
      linarith
    refine ⟨n, hturns, (hdenotes _ _ hP).isNumber, ?_⟩
    rw [(hdenotes _ _ hP).compare_atMost hb, decide_eq_false hpassed]

end

/-! ### Ranges that stall -/

/-- A whole number from the start to the end stays what it is when it is stepped. -/
def Stalls (start stop step : Value) : Prop :=
  ∃ n j : ℤ, start = .int n ∧ n ≤ j ∧ Value.compare .atMost (.int j) stop = .ok true ∧
    Value.reckon .plus (.int j) step = .ok (.int j)

/-- A whole number is at most the end of the range if it is at most the number there. -/
theorem compare_int_iff {b : Value} {q : ℚ} (hb : b.Denotes q) (j : ℤ) :
    Value.compare .atMost (.int j) b = .ok true ↔ j ≤ q := by
  rw [(Value.denotes_int j).compare_atMost hb, Except.ok.injEq, decide_eq_true_iff]

section
variable {a b c : Value} {p q r : ℚ} (ha : a.Denotes p) (hb : b.Denotes q) (hc : c.Denotes r)
  (hp : |p| ≤ 1000) (hq : |q| ≤ 1000) (hr : 1 / 1000 ≤ r) (hr' : r ≤ 1000)

theorem abs_le_of_between {k l : ℤ} (hk : -1000 ≤ (l : ℚ)) (hq : |q| ≤ 1000) (hlow : l ≤ k)
    (hhigh : k ≤ q) :
    |k| ≤ 1000 := by
  have hupper : (k : ℚ) ≤ 1000 := hhigh.trans (abs_le.mp hq).2
  have hlower : -1000 ≤ l := by exact_mod_cast hk
  rw [abs_le]
  exact ⟨by omega, by exact_mod_cast hupper⟩

include hp hr hr' hq hc hb

/-- A range from a float ends. -/
theorem exists_end_float {x : Float} (hx : Denotes x p) :
    ∃ n, EndsAt (turnValues (.float x) c) b c n := by
  refine exists_end_of_invariant hb (fun v p => ∃ y, v = .float y ∧ Denotes y p ∧ -1000 ≤ p)
    (by norm_num : (0 : ℚ) < 1 / 2000) ⟨x, rfl, hx, (abs_le.mp hp).1⟩ ?_ ?_
  · rintro _ p' ⟨y, rfl, hy, -⟩
    exact Value.denotes_float hy
  · rintro _ p' ⟨y, rfl, hy, hlow⟩ hle
    have hp' : |p'| ≤ 1000 := abs_le.mpr ⟨hlow, hle.trans (abs_le.mp hq).2⟩
    obtain ⟨z, q', hreckon, hz, herror⟩ := reckon_float hy hc hp' (abs_le.mpr ⟨by linarith, hr'⟩)
    have herror := (abs_le.mp herror).2
    norm_num at herror
    exact ⟨_, q', hreckon, ⟨z, rfl, hz, by linarith⟩, by linarith⟩

/-- A range from a whole number ends unless it stalls. -/
theorem exists_end_whole {n : ℤ} (hn : (n : ℚ) = p) (hstalls : ¬Stalls (.int n) b c) :
    ∃ k, EndsAt (turnValues (.int n) c) b c k := by
  refine exists_end_of_invariant hb (fun v p => ∃ k : ℤ, v = .int k ∧ p = k ∧ n ≤ k) one_pos
    ⟨n, rfl, hn.symm, le_rfl⟩ ?_ ?_
  · rintro _ _ ⟨k, rfl, rfl, -⟩
    exact Value.denotes_int k
  · rintro _ _ ⟨k, rfl, rfl, hk⟩ hle
    have hk' : |k| ≤ 1000 := abs_le_of_between (hn ▸ (abs_le.mp hp).1) hq hk hle
    obtain ⟨z, hreckon, hz⟩ : ∃ z, Value.reckon .plus (.int k) c = .ok (.int z) ∧ k + 1 ≤ z := by
      obtain ⟨step, rfl, hstep⟩ := hc
      cases step with
      | int i =>
        obtain rfl : (i : ℚ) = r := hstep
        have hi : 0 < i := by
          have : (0 : ℚ) < i := by linarith
          exact_mod_cast this
        exact ⟨k + i, rfl, by omega⟩
      | float s =>
        obtain ⟨z, hreckon, hz, -⟩ := reckon_whole_between hstep hk' hr hr'
        refine ⟨z, hreckon, ?_⟩
        rcases hz.lt_or_eq with hlt | rfl
        · exact hlt
        · exact absurd ⟨n, k, rfl, hk, (compare_int_iff hb k).mpr hle, hreckon⟩ hstalls
    exact ⟨_, z, hreckon, ⟨z, rfl, rfl, by omega⟩, by exact_mod_cast hz⟩

include ha

/-- A range can only stall if it starts from a whole number and its step is a float below one. It
stalls at a number that is not negative. -/
theorem Stalls.cases (h : Stalls a b c) :
    ∃ (n j : ℤ) (s : Float), a = .int n ∧ c = .float s ∧ Denotes s r ∧ r < 1 ∧
    n ≤ j ∧ 0 ≤ j ∧ (j : ℚ) ≤ q ∧ Value.reckon .plus (.int j) c = .ok (.int j) := by
  obtain ⟨n, j, rfl, hnj, hcompare, hstays⟩ := h
  have hjq := (compare_int_iff hb j).mp hcompare
  have hj : |j| ≤ 1000 := abs_le_of_between (ha.int_eq ▸ (abs_le.mp hp).1) hq hnj hjq
  obtain ⟨step, rfl, hstep⟩ := hc
  cases step with
  | int i =>
    obtain rfl : (i : ℚ) = r := hstep
    have hstays : Except.ok (Value.int (j + i)) = (.ok (.int j) : Fallible Value) := hstays
    injection hstays with hstays
    injection hstays with hstays
    obtain rfl : i = 0 := by omega
    norm_num at hr
  | float s =>
    have hreckoned {z : ℤ}
        (hz : Value.reckon .plus (.int j) (.float s) = .ok (.int z)) : z = j := by
      injection hz.symm.trans hstays with hz
      injection hz
    refine ⟨n, j, s, rfl, rfl, hstep, ?_, hnj, ?_, hjq, hstays⟩
    · obtain ⟨z, hz, -, -, hmore⟩ := reckon_whole_between hstep hj hr hr'
      by_contra hr₁
      have := hmore (not_lt.mp hr₁)
      have := hreckoned hz
      omega
    · by_contra hneg
      obtain ⟨z, hz, hlt⟩ := reckon_whole_negative hstep hj hr hr' (by omega)
      have := hreckoned hz
      omega

/-- A range that stalls never gets past the number at which it does. -/
theorem Stalls.isTurn (h : Stalls a b c) (k : Nat) : IsTurn (turnValues a c) b c k := by
  obtain ⟨n, j, s, rfl, rfl, hs, hr₁, hnj, -, hjq, hstays⟩ := h.cases ha hb hc hp hq hr hr'
  refine isTurn_of_invariant hb (fun v => ∃ k : ℤ, v = .int k ∧ n ≤ k ∧
    k ≤ j) ⟨n, rfl, le_rfl, hnj⟩ ?_ k
  rintro _ ⟨k, rfl, hnk, hkj⟩
  have hkq : (k : ℚ) ≤ q := (Int.cast_le.mpr hkj).trans hjq
  refine ⟨⟨k, Value.denotes_int k, hkq⟩, ?_⟩
  rcases hkj.lt_or_eq with hlt | rfl
  · -- a step below one leads to the next number at most, so that `j` is not skipped
    have hk : |k| ≤ 1000 := abs_le_of_between (ha.int_eq ▸ (abs_le.mp hp).1) hq hnk hkq
    obtain ⟨z, hreckon, hz, hless, -⟩ := reckon_whole_between hs hk hr hr'
    have := hless hr₁
    exact ⟨_, hreckon, z, rfl, by omega, by omega⟩
  · exact ⟨_, hstays, k, rfl, hnk, le_rfl⟩

end

section
variable {a b c : Value} {p q r : ℚ} {n : ℤ} {s : Float} (ha : a.Denotes p) (hb : b.Denotes q)
  (hc : c.Denotes r) (hp : |p| ≤ 1000) (hr : 1 / 1000 ≤ r) (hr' : r ≤ 1000)
include ha hb hc hp hr hr'

/-- A range from a whole number stalls at zero, or else at its start, if its step is a float below
one: not always if that start is positive and the step is close to one. -/
theorem stalls_of_fraction (hn : a = .int n) (hs : c = .float s) (hpq : p ≤ q) (hq₀ : 0 ≤ q)
    (hless : (p ≤ 0 ∧ r < 1) ∨ r ≤ 999 / 1000) : Stalls a b c := by
  subst hn hs
  have hs := hc.float_denotes
  obtain rfl := ha.int_eq
  rcases le_or_gt n 0 with hn | hn
  · have hless : (0 : ℤ) = 0 ∧ r < 1 :=
      ⟨rfl, hless.elim And.right fun h => h.trans_lt (by norm_num)⟩
    refine ⟨n, 0, rfl, hn, (compare_int_iff hb 0).mpr (by rwa [Int.cast_zero]), ?_⟩
    exact reckon_whole_stays hs (by norm_num) hr hr' le_rfl (.inl hless)
  · have hless : r ≤ 999 / 1000 :=
      hless.resolve_left fun h => absurd (Int.cast_nonpos.mp h.1) (not_le_of_gt hn)
    refine ⟨n, n, rfl, le_rfl, (compare_int_iff hb n).mpr hpq, ?_⟩
    exact reckon_whole_stays hs (by exact_mod_cast hp) hr hr' hn.le (.inr hless)

end

/-! ### Whether a range ends -/

section
variable {x : String} {start stop step block : Tree} {a b c : Value} {p q r : ℚ} {m m' : Machine}

/-- **Whether a cycle over a range with a positive step ends.** Let its ends and its step be numbers
of moderate size, and let its body never end it. It comes to its end and its rune is gone afterwards
unless it stalls, and then it never ends. -/
theorem range_cycle_ends (h : RangeEvaluates x start stop step m a b c m')
    (hbody : GoesOn block x (rangeKind a b c) (turnValues a c) b c (m'.withRange x a b c))
    (ha : a.Denotes p) (hb : b.Denotes q) (hc : c.Denotes r) (hp : |p| ≤ 1000) (hq : |q| ≤ 1000)
    (hr : 1 / 1000 ≤ r) (hr' : r ≤ 1000) :
    (¬Stalls a b c → ∃ n m'', Turns block x (rangeKind a b c) (turnValues a c)
      (m'.withRange x a b c) n m'' ∧
      (∃ N, ∀ fuel, N ≤ fuel → (rangeCycle x start stop step block).meaning fuel m =
        (.done .nothing, m''.mapScope (·.dispel x))) ∧
        (m''.mapScope (·.dispel x)).scope.find? x = none) ∧
    (Stalls a b c →
      ∀ fuel, ((rangeCycle x start stop step block).meaning fuel m).1.outcome = .exhausted) ∧
    (Stalls a b c → (∃ n, a = .int n) ∧ (∃ s, c = .float s) ∧ r < 1 ∧ p ≤ q ∧ 0 ≤ q) ∧
    ((∃ n, a = .int n) → (∃ s, c = .float s) → p ≤ q → 0 ≤ q → (p ≤ 0 ∧ r < 1) ∨ r ≤ 999 / 1000 →
      Stalls a b c) := by
  refine ⟨fun hstalls => ?_, fun hstalls => ?_, fun hstalls => ?_, ?_⟩
  · obtain ⟨n, hend⟩ : ∃ n, EndsAt (turnValues a c) b c n := by
      obtain ⟨start, rfl, hstart⟩ := ha
      cases start with
      | int n => exact exists_end_whole hb hc hp hq hr hr' hstart hstalls
      | float y => exact exists_end_float hb hc hp hq hr hr' hstart
    exact ⟨n, meaning_rangeCycle rfl h hbody hend⟩
  · exact meaning_rangeCycle_endless rfl h hbody fun k => hstalls.isTurn ha hb hc hp hq hr hr' k
  · obtain ⟨n, j, s, rfl, rfl, -, hr₁, hnj, hj, hjq, -⟩ := hstalls.cases ha hb hc hp hq hr hr'
    have hnj' : (n : ℚ) ≤ j := Int.cast_le.mpr hnj
    have hj' : (0 : ℚ) ≤ j := Int.cast_nonneg hj
    have hn := ha.int_eq
    exact ⟨⟨n, rfl⟩, ⟨s, rfl⟩, hr₁, by linarith, by linarith⟩
  · rintro ⟨n, hn⟩ ⟨s, hs⟩ hpq hq₀ hless
    exact stalls_of_fraction ha hb hc hp hr hr' hn hs hpq hq₀ hless

end

def halfHeld : Machine := { scope := [{ own := [("h", .fresh (some (.float 0.5)) false)] }] }

theorem half_denotes : (Value.float 0.5).Denotes (1 / 2) := Value.denotes_float denotes_half

/-- The range from the given start to five by halves. -/
theorem halves_evaluate {start : Tree} {n : Nat} {a : Value} (ha : a.kind.isNumber = true)
    (hstart : start.meaning n halfHeld = (.done (.rune a), halfHeld)) :
    RangeEvaluates "i" start (.leaf .whole "5") (runeValue "h") halfHeld a (.int 5)
    (.float 0.5) halfHeld where
  isFree := by decide
  values := ⟨halfHeld, halfHeld, ⟨n, .rune a, hstart, rfl⟩, ⟨1, .rune (.int 5), rfl, rfl⟩,
    .inr ⟨2, .rune (.float 0.5), rfl, rfl⟩⟩
  start_isNumber := ha
  stop_isNumber := rfl
  step_isNumber := rfl
  unwritten := rfl

/-- By halves, a cycle from one half ends, and one from one does not. -/
theorem range_cycle_ends_by_halves :
    (∃ n m, Turns speakingBody "i" .float (turnValues (.float 0.5) (.float 0.5))
        (halfHeld.withRange "i" (.float 0.5) (.int 5) (.float 0.5)) n m ∧
      (∃ N, ∀ fuel, N ≤ fuel → (rangeCycle "i" (runeValue "h") (.leaf .whole "5") (runeValue "h")
        speakingBody).meaning fuel halfHeld = (.done .nothing, m.mapScope (·.dispel "i"))) ∧
      (m.mapScope (·.dispel "i")).scope.find? "i" = none) ∧
    ∀ fuel, ((rangeCycle "i" (.leaf .whole "1") (.leaf .whole "5")
      (runeValue "h") speakingBody).meaning fuel
      halfHeld).1.outcome = .exhausted := by
  have hfive : (Value.int 5).Denotes 5 := by exact_mod_cast Value.denotes_int 5
  have hone : (Value.int 1).Denotes 1 := by exact_mod_cast Value.denotes_int 1
  have hhalf : (runeValue "h").meaning 2 halfHeld = (.done (.rune (.float 0.5)), halfHeld) := rfl
  have hfirst : (Tree.leaf .whole "1").meaning 1 halfHeld = (.done (.rune (.int 1)), halfHeld) :=
    rfl
  have hfloat :=
    range_cycle_ends (halves_evaluate rfl hhalf) (speakingBody_goesOn _ _ _ _ _ _)
      half_denotes hfive
    half_denotes (by norm_num [abs_le]) (by norm_num) (by norm_num) (by norm_num)
  have hwhole :=
    range_cycle_ends (halves_evaluate rfl hfirst) (speakingBody_goesOn _ _ _ _ _ _) hone hfive
    half_denotes (by norm_num) (by norm_num) (by norm_num) (by norm_num)
  have hmoves : ¬Stalls (.float 0.5) (.int 5) (.float 0.5) := by
    rintro ⟨n, j, hn, -⟩
    cases hn
  have hstalls : Stalls (.int 1) (.int 5) (.float 0.5) :=
    hwhole.2.2.2 ⟨1, rfl⟩ ⟨0.5, rfl⟩ (by norm_num) (by norm_num) (.inr (by norm_num))
  exact ⟨hfloat.1 hmoves, hwhole.2.1 hstalls⟩

/-- One and a half is one again, so the cycle from one by halves stays at one. -/
theorem half_steps_never_end :
    Value.reckon .plus (.int 1) (.float 0.5) = .ok (.int 1) ∧
      ∀ fuel, ((rangeCycle "i" (.leaf .whole "1") (.leaf .whole "5")
        (runeValue "h") speakingBody).meaning fuel
        halfHeld).1.outcome = .exhausted := by
  have hfirst : (Tree.leaf .whole "1").meaning 1 halfHeld = (.done (.rune (.int 1)), halfHeld) :=
    rfl
  have hbody : GoesOn speakingBody "i" .float (fun _ => .int 1) (.int 5) (.float 0.5)
      (halfHeld.withRange "i" (.int 1) (.int 5) (.float 0.5)) := speakingBody_goesOn _ _ _ _ _ _
  exact ⟨rfl, meaning_rangeCycle_endless rfl (halves_evaluate rfl hfirst) hbody fun _ =>
    ⟨rfl, rfl, rfl⟩⟩

end Spellbook
