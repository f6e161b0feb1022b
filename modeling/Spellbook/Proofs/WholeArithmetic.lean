import Spellbook.Proofs.MixedArithmetic

/-!
# Arithmetic of whole numbers

Whole numbers are not bounded, and an operator between two of them stays among them unless it
divides truly. There is nothing to round in a whole number, so the operators that round give what
those do that do not (`Calculation.apply_of_reckon`). Quotients are rounded down, and the remainder
is what is left of the dividend: it lies between zero and the divisor, whichever signs the two have
(`whole_arithmetic`).
-/

namespace Spellbook

/-- A whole result is kept, however it is to be rounded. -/
theorem Calculation.apply_of_reckon {op : Value.Operator} {a b z : ℤ}
    (h : Value.reckon op (.int a) (.int b) = .ok (.int z)) (rounding : Option Rounding) :
    (⟨op, rounding⟩ : Calculation).apply (.int a) (.int b) = .ok (.int z) := by
  rw [Calculation.apply_numbers rfl rfl, h]
  cases rounding <;> rfl

/-! ### Operators -/

theorem reckon_ints (s : RingOp) (a b : ℤ) :
    Value.reckon s.operator (.int a) (.int b) = .ok (.int (s.onInts a b)) := by
  cases s <;> rfl

theorem reckon_floorDivide {b : ℤ} (hb : b ≠ 0) (a : ℤ) :
    Value.reckon .floorDivide (.int a) (.int b) = .ok (.int (a.fdiv b)) := by
  show (if (b == 0) = true then .error .divisionByZero else _ : Fallible Value.Outcome) >>= _ = _
  rw [if_neg (by simpa using hb)]
  rfl

theorem reckon_modulo {b : ℤ} (hb : b ≠ 0) (a : ℤ) :
    Value.reckon .modulo (.int a) (.int b) = .ok (.int (a.fmod b)) := by
  show Value.Outcome.ofNum (if b = 0 then .error .moduloByZero else .ok (.int (a.fmod b))) >>= _ = _
  rw [if_neg hb]
  rfl

theorem reckon_power {b : ℤ} (hb : 0 ≤ b) (a : ℤ) :
    Value.reckon .power (.int a) (.int b) = .ok (.int (a ^ b.toNat)) := by
  show (if 0 ≤ b then .ok (.real (.int (Int.pow a b.toNat))) else _ : Fallible Power).map _ >>= _ =
    _
  rw [if_pos hb]
  rfl

/-- The remainders that are rounded in the ways there are, or not at all. -/
def remainderOperators : List String := ["%", "/%", "^%", "~%"]

theorem ofOperator?_remainder {op : String} (hop : op ∈ remainderOperators) :
    ∃ rounding, Calculation.ofOperator? op = some ⟨.modulo, rounding⟩ := by
  have hall : ∀ op ∈ remainderOperators, (Calculation.ofOperator? op).map (·.op) =
      some .modulo := by decide
  obtain ⟨⟨_, rounding⟩, hc, rfl⟩ := Option.map_eq_some_iff.mp (hall op hop)
  exact ⟨rounding, hc⟩

/-! ### Division -/

/-- A remainder lies between zero and the divisor, which it does not reach. -/
theorem fmod_between {b : ℤ} (hb : b ≠ 0) (a : ℤ) :
    (0 ≤ a.fmod b ∧ a.fmod b < b) ∨ (b < a.fmod b ∧ a.fmod b ≤ 0) := by
  rcases lt_or_gt_of_ne hb with hneg | hpos
  · -- both signs are changed
    have hflip : (-a).fmod (-b) = -a.fmod b := Int.neg_fmod_neg a b
    have hlow := Int.fmod_nonneg_of_pos (-a) (Int.neg_pos_of_neg hneg)
    have hhigh := Int.fmod_lt_of_pos (-a) (Int.neg_pos_of_neg hneg)
    rw [hflip] at hlow hhigh
    exact .inr ⟨by omega, by omega⟩
  · exact .inl ⟨Int.fmod_nonneg_of_pos a hpos, Int.fmod_lt_of_pos a hpos⟩

section
variable {l r : Tree} {a b : ℤ} {n k : Nat} {m m₁ m₂ : Machine}
  (hl : l.meaning n m = (.done (.rune (.int a)), m₁))
    (hr : r.meaning n m₁ = (.done (.rune (.int b)), m₂))
  (hk : n < k)
include hl hr hk

/-- Operands that evaluate to whole numbers give a whole number if the operator does. -/
theorem meaning_of_reckon {op : String} {c : Calculation} {z : ℤ}
    (hop : Calculation.ofOperator? op = some c)
    (h : Value.reckon c.op (.int a) (.int b) = .ok (.int z)) :
    (Tree.operation op l r).meaning k m = (.done (.rune (.int z)), m₂) := by
  rw [meaning_calculation (a := .int a) (b := .int b) hl hr hk hop]
  show (liftM ((c.apply (.int a) (.int b)).map Datum.rune) : Spell Datum) m₂ = _
  rw [Calculation.apply_of_reckon h c.rounding]
  rfl

/-- **Whole numbers are calculated with exactly.** Let two operands evaluate to whole numbers. Their
sum, their difference and their product are exact, also if they are to be rounded. If the divisor is
not zero, the quotient that is rounded down and the remainder, rounded or not, satisfy the law of
division. A power is exact if its exponent is not negative. To divide by zero fails, whether the
quotient is to be rounded down or not. -/
theorem whole_arithmetic :
    (∀ (s : RingOp) (rounding : Option Rounding),
      (Tree.operation (s.written rounding) l r).meaning k m =
        (.done (.rune (.int (s.onInts a b))), m₂)) ∧
    (b ≠ 0 → ∃ q z, a = q * b + z ∧ ((0 ≤ z ∧ z < b) ∨ (b < z ∧ z ≤ 0)) ∧
      (Tree.operation "//" l r).meaning k m = (.done (.rune (.int q)), m₂) ∧
      ∀ op ∈ remainderOperators, (Tree.operation op l r).meaning k m =
        (.done (.rune (.int z)), m₂)) ∧
    (0 ≤ b → (Tree.operation "^" l r).meaning k m = (.done (.rune (.int (a ^ b.toNat))), m₂)) ∧
    (b = 0 → ∀ op ∈ ["/", "//"], ∃ f : Fault, f.title = "ZeroDivisionError" ∧
      (Tree.operation op l r).meaning k m = (.failed f, m₂)) := by
  refine ⟨fun s rounding => ?_, fun hb => ?_, fun hb => ?_, ?_⟩
  · exact meaning_of_reckon hl hr hk (RingOp.ofOperator?_written s rounding) (reckon_ints s a b)
  · refine ⟨a.fdiv b, a.fmod b, (Int.fdiv_mul_add_fmod a b).symm, fmod_between hb a, ?_,
      fun op hop => ?_⟩
    · exact meaning_of_reckon hl hr hk (c := ⟨.floorDivide, none⟩) (by decide)
        (reckon_floorDivide hb a)
    · obtain ⟨rounding, hc⟩ := ofOperator?_remainder hop
      exact meaning_of_reckon hl hr hk hc (reckon_modulo hb a)
  · exact meaning_of_reckon hl hr hk (c := ⟨.power, none⟩) (by decide) (reckon_power hb a)
  · rintro rfl op hop
    refine ⟨.divisionByZero, rfl, ?_⟩
    have hcalculation : Calculation.ofOperator? op = some ⟨.divide, none⟩ ∨
        Calculation.ofOperator? op = some ⟨.floorDivide, none⟩ := by
      simp only [List.mem_cons, List.not_mem_nil, or_false] at hop
      obtain rfl | rfl := hop
      · exact .inl (by decide)
      · exact .inr (by decide)
    rcases hcalculation with hc | hc <;> exact meaning_calculation (a := .int a)
      (b := .int 0) hl hr hk hc

end

/-- The tree of a whole number with a minus before it. -/
def negativeWhole (numeral : String) : Tree := .form .negative [.leaf .whole numeral]

/-- A negative number beyond the whole numbers that floats can tell apart is divided by a negative
one. -/
theorem whole_arithmetic_negative :
    (negativeWhole "9007199254740993").meaning 2 {} =
      (.done (.rune (.int (-9007199254740993))), {}) ∧
      (negativeWhole "2").meaning 2 {} = (.done (.rune (.int (-2))), {}) ∧
      ∃ q z, -9007199254740993 = q * (-2) + z ∧ ((0 ≤ z ∧ z < -2) ∨ (-2 < z ∧ z ≤ 0)) ∧
        (Tree.operation "//" (negativeWhole "9007199254740993") (negativeWhole "2")).meaning 3 {} =
          (.done (.rune (.int q)), {}) ∧
        ∀ op ∈ remainderOperators,
          (Tree.operation op (negativeWhole "9007199254740993") (negativeWhole "2")).meaning 3 {} =
            (.done (.rune (.int z)), {}) := by
  have hl : (negativeWhole "9007199254740993").meaning 2 {} =
      (.done (.rune (.int (-9007199254740993))), {}) := rfl
  have hr : (negativeWhole "2").meaning 2 {} = (.done (.rune (.int (-2))), {}) := rfl
  exact ⟨hl, hr, (whole_arithmetic hl hr (by decide : 2 < 3)).2.1 (by decide)⟩

end Spellbook
