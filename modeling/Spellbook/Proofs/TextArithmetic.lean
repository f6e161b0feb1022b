import Spellbook.Proofs.Compound

/-!
# Arithmetic on texts

An operator between two operands fails if one of them is a text, with one exception: a whole number
times a text repeats the text, and where the repeated text reads as a whole number, this number is
the product (`text_arithmetic`). Sums ask for two numbers before anything else; products and powers
leave it to the operands, and only a whole number knows what to do with a text.
-/

namespace Spellbook

/-- The operators of sums, of products and of powers. -/
def arithmeticOperators : List String :=
  "^" :: (Terminal.addOp.pattern.texts ++ Terminal.mulOp.pattern.texts).map String.ofList

/-- The operators of a product that is rounded in some way or in none. -/
def timesOperators : List String := ["*", "/*", "^*", "~*"]

def repeatedNumber? (a b : Value) : Option Int :=
  match a, b with
  | .int n, .text s => (Numeral.readInt (Value.repeatText s n)).toOption
  | _, _ => none

/-- The number that an operator gives between a whole number and a text. -/
def textProduct? (op : String) (a b : Value) : Option Int :=
  if op ∈ timesOperators then repeatedNumber? a b else none

/-! ### Operators on a text -/

theorem Value.readInt_eq (s shown : String) :
    (∃ z, Value.readInt s shown = .ok z ∧ (Numeral.readInt s).toOption = some z) ∨
      (∃ f, Value.readInt s shown = .error f) ∧ (Numeral.readInt s).toOption = none := by
  unfold Value.readInt
  cases Numeral.readInt s with
  | ok z => exact .inl ⟨z, rfl, rfl⟩
  | error refusal =>
    cases refusal with
    | notNumeral => exact .inr ⟨⟨_, rfl⟩, rfl⟩
    | tooManyDigits count => exact .inr ⟨⟨_, rfl⟩, rfl⟩

/-- `GivesWholeOrFails r o`: the calculation `r` gives the whole number `o`, or fails if there is
none. -/
def GivesWholeOrFails (r : Fallible Datum) : Option Int → Prop
  | some z => r = .ok (.rune (.int z))
  | none => ∃ f, r = .error f

/-- A whole number that meets a text repeats it if it is to be multiplied, and fails otherwise. -/
theorem operate_int_text {op : Value.Operator} (hop : op ≠ .plus) (n : Int) (s : String) :
    GivesWholeOrFails ((Datum.rune (.int n)).operate op (.rune (.text s)))
      (if op = .times then repeatedNumber? (.int n) (.text s) else none) := by
  cases op with
  | plus => exact absurd rfl hop
  | times =>
    show GivesWholeOrFails (do return Datum.rune (.int (← Value.readInt _ _)))
      (Numeral.readInt (Value.repeatText s n)).toOption
    obtain ⟨z, hz, hread⟩ | ⟨⟨f, hf⟩, hread⟩ :=
      Value.readInt_eq (Value.repeatText s n) (Text.quoted _)
    · rw [hz, hread]
      rfl
    · rw [hf, hread]
      exact ⟨f, rfl⟩
  | minus | divide | floorDivide | modulo | power => exact ⟨_, rfl⟩

/-- Any other two values of which one is a text have no operator but the one that joins texts. -/
theorem operate_text_error {op : Value.Operator} (hop : op ≠ .plus) {a b : Value}
    (htext : a.kind = .text ∨ b.kind = .text ∧ a.kind ≠ .int) :
    ∃ f, (Datum.rune a).operate op (.rune b) = .error f := by
  cases a with
  | int n =>
    obtain h | ⟨-, h⟩ := htext
    · cases h
    · exact absurd rfl h
  | float x =>
    cases b with
    | text s => cases op <;> exact ⟨_, rfl⟩
    | int _ | float _ | truth _ => obtain h | ⟨h, -⟩ := htext <;> cases h
  | text s =>
    cases op with
    | plus => exact absurd rfl hop
    | minus | times | divide | floorDivide | modulo | power => exact ⟨_, rfl⟩
  | truth t =>
    cases op with
    | plus => exact absurd rfl hop
    | minus | times | divide | floorDivide | modulo | power => exact ⟨_, rfl⟩

theorem operate_text {op : Value.Operator} (hop : op ≠ .plus) {a b : Value}
    (htext : a.kind = .text ∨ b.kind = .text) :
    GivesWholeOrFails ((Datum.rune a).operate op (.rune b))
      (if op = .times then repeatedNumber? a b else none) := by
  by_cases hint : ∃ n s, a = .int n ∧ b = .text s
  · obtain ⟨n, s, rfl, rfl⟩ := hint
    exact operate_int_text hop n s
  · have hnone : repeatedNumber? a b = none := by
      unfold repeatedNumber?
      split
      · exact absurd ⟨_, _, rfl, rfl⟩ hint
      · rfl
    -- if the text is on the right, then what is on the left is no whole number
    have hkinds : a.kind = .text ∨ b.kind = .text ∧ a.kind ≠ .int := by
      refine htext.imp_right fun hb => ⟨hb, fun ha => hint ?_⟩
      cases a <;> cases ha
      cases b <;> cases hb
      exact ⟨_, _, rfl, rfl⟩
    rw [hnone, ite_self]
    exact operate_text_error hop hkinds

/-- Rounding changes neither a whole number nor a failure. -/
theorem Calculation.apply_text {c : Calculation} (hop : c.op ≠ .plus) {a b : Value}
    (htext : a.kind = .text ∨ b.kind = .text) :
    GivesWholeOrFails ((c.apply a b).map .rune)
    (if c.op = .times then repeatedNumber? a b else none) := by
  have hgiven := operate_text hop htext
  cases hnumber : if c.op = .times then repeatedNumber? a b else none with
  | none =>
    rw [hnumber] at hgiven
    obtain ⟨f, hf⟩ := hgiven
    refine ⟨f, ?_⟩
    rw [Calculation.apply, hf]
    rfl
  | some z =>
    rw [hnumber] at hgiven
    show (c.apply a b).map Datum.rune = _
    rw [Calculation.apply, show (Datum.rune a).operate c.op (.rune b) =
      .ok (.rune (.int z)) from hgiven]
    cases c.rounding <;> rfl

/-! ### Expressions with a text -/

/-- What an operator of products or powers calculates; a product is what it says it is. -/
theorem ofOperator?_of_not_sum :
    ∀ op ∈ arithmeticOperators, op.toList ∉ Terminal.addOp.pattern.texts →
    ∃ c, Calculation.ofOperator? op = some c ∧ c.op ≠ .plus ∧
    (c.op = .times ↔ op ∈ timesOperators) := by
  have hchecked : ∀ op ∈ arithmeticOperators, op.toList ∉ Terminal.addOp.pattern.texts →
      (Calculation.ofOperator? op).any (fun c => c.op ≠ .plus ∧
        (c.op = .times ↔ op ∈ timesOperators)) = true := by
    decide
  intro op hop hsum
  obtain ⟨c, hc, hholds⟩ := (Option.any_eq_true _ _).mp (hchecked op hop hsum)
  exact ⟨c, hc, of_decide_eq_true hholds⟩

theorem ofSum?_of_sum : ∀ op ∈ arithmeticOperators, op.toList ∈ Terminal.addOp.pattern.texts →
    op ≠ "^" ∧ op ∉ timesOperators ∧ (Calculation.ofSum? op).isSome = true := by
  decide

theorem isNumber_and_of_text {a b : Value} (htext : a.kind = .text ∨ b.kind = .text) :
    (a.kind.isNumber && b.kind.isNumber) = false := by
  obtain h | h := htext
  · rw [h]
    rfl
  · rw [h, Bool.and_comm]
    rfl

section
variable {op : String} {l r : Tree} {x y : Datum} {a b : Value} {n k : Nat} {m m₁ m₂ : Machine}
  (hx : x.toValue = .ok a) (hy : y.toValue = .ok b) (htext : a.kind = .text ∨ b.kind = .text)
  (hop : op ∈ arithmeticOperators)
include hx hy htext hop

/-- A sum never gets to its operator. -/
theorem meaning_operation_text (hl : l.meaning (n + 1) m = (.done x, m₁))
    (hr : r.meaning (n + 1) m₁ = (.done y, m₂)) :
    ∃ given : Fallible Datum, (Tree.operation op l r).meaning (n + 2) m =
      (liftM given : Spell Datum) m₂ ∧
      GivesWholeOrFails given (textProduct? op a b) := by
  by_cases hsum : op.toList ∈ Terminal.addOp.pattern.texts
  · obtain ⟨hpower, htimes, hsome⟩ := ofSum?_of_sum op hop hsum
    obtain ⟨c, hc⟩ := Option.isSome_iff_exists.mp hsome
    rw [textProduct?, if_neg htimes, Tree.operation, if_neg hpower, if_pos hsum,
      meaning_sum hl hr hx hy hc, isNumber_and_of_text htext]
    exact ⟨.error _, rfl, _, rfl⟩
  · obtain ⟨c, hc, hplus, htimes⟩ := ofOperator?_of_not_sum op hop hsum
    have hnumber : textProduct? op a b = if c.op = .times then repeatedNumber? a b else none := by
      simp only [textProduct?, htimes]
    rw [Calculation.ofOperator?] at hc
    rw [hnumber, Tree.operation]
    by_cases hpower : op = "^"
    · rw [if_pos hpower] at hc ⊢
      cases hc
      exact ⟨_, meaning_power hl hr hx hy, operate_text (by decide) htext⟩
    · rw [if_neg hpower, if_neg hsum] at hc ⊢
      exact ⟨_, meaning_product hl hr hx hy hc, Calculation.apply_text hplus htext⟩

/-- **Arithmetic on a text fails**, unless it multiplies a whole number by a text: then the text is
repeated, and if it reads as a whole number after that, this is the result. -/
theorem text_arithmetic (hl : l.meaning n m = (.done x, m₁)) (hr : r.meaning n m₁ = (.done y, m₂))
    (hk : n < k) :
    match textProduct? op a b with
    | some z => (Tree.operation op l r).meaning k m = (.done (.rune (.int z)), m₂)
    | none => ∃ f, (Tree.operation op l r).meaning k m = (.failed f, m₂) := by
  have hn : n ≠ 0 := by
    rintro rfl
    cases hl
  obtain ⟨j, rfl⟩ : ∃ j, k = j + 2 := ⟨k - 2, by omega⟩
  obtain ⟨given, hmeaning, hgiven⟩ := meaning_operation_text hx hy htext hop
    (Tree.meaning_of_le (by omega) nofun hl) (Tree.meaning_of_le (k := j + 1) (by omega) nofun hr)
  rw [hmeaning]
  cases hnumber : textProduct? op a b with
  | some z =>
    rw [hnumber] at hgiven
    cases hgiven
    rfl
  | none =>
    rw [hnumber] at hgiven
    obtain ⟨f, rfl⟩ := hgiven
    exact ⟨f, rfl⟩

end

/-- A line that is listened to is a text as well, and has no power. -/
theorem text_arithmetic_heard :
    textProduct? "^" (.text "12") (.int 3) = none ∧
      ∃ f, (Tree.operation "^" (.form .listen [.leaf .listen "listen"])
        (.leaf .whole "3")).meaning 3
        { input := "12".toList } = (.failed f, {}) := by
  have hop : "^" ∈ arithmeticOperators := by decide
  exact ⟨rfl, text_arithmetic (x := .word "12") (y := .rune (.int 3)) (n := 2) rfl rfl
    (.inl rfl) hop rfl rfl (Nat.lt_succ_self 2)⟩

/-- The machine with one rune, which holds the text of a number. -/
def numeralHeld : Machine := { scope := [{ own := [("s", .fresh (some (.text "12")) false)] }] }

/-- Three times the text of twelve is a number, rounded or not. -/
theorem repeated_text_is_number :
    (runeValue "s").meaning 2 numeralHeld = (.done (.rune (.text "12")), numeralHeld) ∧
      (Tree.operation "*" (.leaf .whole "3") (runeValue "s")).meaning 3 numeralHeld =
        (.done (.rune (.int 121212)), numeralHeld) ∧
      (Tree.operation "^*" (.leaf .whole "3") (runeValue "s")).meaning 3 numeralHeld =
        (.done (.rune (.int 121212)), numeralHeld) :=
  ⟨rfl, rfl, rfl⟩

end Spellbook
