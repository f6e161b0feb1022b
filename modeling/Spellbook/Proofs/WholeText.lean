import Spellbook.Proofs.Digits
import Spellbook.Proofs.Renumbering
import Spellbook.Proofs.Truth

/-!
# Whole numbers as texts

A whole number is written in decimals, with a minus if it is negative, and what is written is read
as the number again: by the reader of programs, which takes it for one token even where a minus
could be an operator, and by the reader of numerals, which a program asks while it runs. Both
readers and the writer stop at `Numeral.digitLimit` digits, and below that limit nothing is lost
(`whole_number_survives_text`).
-/

namespace Spellbook

/-! ## Digits -/

theorem isNumeral_toDigits (n : Nat) : isNumeral (Nat.toDigits 10 n) = true := by
  rw [isNumeral, Bool.and_eq_true, Bool.not_eq_true', List.isEmpty_eq_false_iff, List.all_eq_true]
  refine ⟨Nat.toDigits_ne_nil, fun c hc => ?_⟩
  rw [isDigit_eq]
  exact Nat.isDigit_of_mem_toDigits (by decide) (by decide) hc

/-- The sign of a whole number and its digits. -/
theorem toList_toString (n : ℤ) :
    (toString n).toList = (if n < 0 then ['-'] else []) ++ Nat.toDigits 10 n.natAbs := by
  rw [Int.toString_eq_repr, Int.repr_eq_if]
  by_cases hn : n < 0
  · have habs : (-n).toNat = n.natAbs := by omega
    rw [if_neg (by omega), if_pos hn, String.toList_append, Nat.repr_eq_ofList_toDigits,
      String.toList_ofList, String.toList_ofList, habs]
  · have habs : n.toNat = n.natAbs := by omega
    rw [if_pos (by omega), if_neg hn, Nat.repr_eq_ofList_toDigits, String.toList_ofList, habs,
      List.nil_append]

/-- A whole number is written as a numeral. -/
theorem isWholeNumeral_toString (n : ℤ) : isWholeNumeral (toString n).toList = true := by
  rw [toList_toString]
  split
  · exact isWholeNumeral_minus (isNumeral_toDigits _)
  · exact isWholeNumeral_numeral (isNumeral_toDigits _)

namespace Numeral

/-! ## Reading -/

theorem mapM_plainChar? {cs : List Char} (h : ∀ c ∈ cs, c.toNat < 127) :
    cs.mapM plainChar? = some cs := by
  induction cs with
  | nil => rfl
  | cons c cs ih =>
    rw [List.forall_mem_cons] at h
    rw [List.mapM_cons, ih h.2, plainChar?, if_pos h.1]
    rfl

/-- A text without characters to trim is not trimmed. -/
theorem trim_eq_self {p : Char → Bool} {cs : List Char} (h : ∀ c ∈ cs, p c = false) :
    Text.trim p cs = cs := by
  have hkept {l : List Char} (hl : ∀ c ∈ l, p c = false) : l.dropWhile p = l := by
    cases l with
    | nil => rfl
    | cons c l =>
      exact List.dropWhile_cons_of_neg (by rw [hl c List.mem_cons_self]; exact Bool.false_ne_true)
  rw [Text.trim, hkept h, hkept fun c hc => h c (List.mem_reverse.mp hc), List.reverse_reverse]

/-- A text of plain characters other than spaces counts as it is. -/
theorem plain?_eq {s : String} (h : ∀ c ∈ s.toList, c.toNat < 127 ∧ Text.isNumeralSpace c = false) :
    plain? s = some s.toList := by
  rw [plain?, mapM_plainChar? fun c hc => (h c hc).1, Option.map_some,
    trim_eq_self fun c hc => (h c hc).2]

theorem barsBetweenDigits_of_not_mem {prev : Char} {cs : List Char} (hprev : prev ≠ '_')
    (h : '_' ∉ cs) :
    barsBetweenDigits prev cs = true := by
  induction cs generalizing prev with
  | nil => exact bne_iff_ne.mpr hprev
  | cons c cs ih =>
    rw [List.mem_cons, not_or] at h
    have hc : c ≠ '_' := fun hc => h.1 hc.symm
    rw [barsBetweenDigits, if_neg (by simpa using hc), bne_iff_ne.mpr hprev, ih hc h.2]
    rfl

/-- A numeral without bars stays as it is. -/
theorem withoutBars?_of_not_mem {cs : List Char} (h : '_' ∉ cs) : withoutBars? cs = some cs := by
  rw [withoutBars?, if_pos (barsBetweenDigits_of_not_mem (by decide) h), List.filter_eq_self.mpr]
  rintro c hc
  rw [bne_iff_ne]
  rintro rfl
  exact h hc

/-- A numeral of digits only has no sign. -/
theorem takeSign_numeral {ds : List Char} (h : isNumeral ds = true) :
    takeSign ds = (false, ds) := by
  unfold takeSign
  split
  · cases h
  · cases h
  · rfl

/-- Digits are plain characters, and no spaces. -/
theorem plain_of_isDigit {c : Char} (h : isDigit c = true) :
    c.toNat < 127 ∧ Text.isNumeralSpace c = false := by
  rw [isDigit_eq, Char.isDigit_iff_toNat] at h
  have hzero : '0'.toNat = 48 := rfl
  have hnine : '9'.toNat = 57 := rfl
  have hspace : c ≠ ' ' := by
    rintro rfl
    exact absurd h.1 (by decide)
  refine ⟨by omega, ?_⟩
  simp only [Text.isNumeralSpace, Text.isWideSpace, beq_eq_false_iff_ne.mpr hspace, Bool.false_or,
    Bool.or_eq_false_iff, Bool.and_eq_false_iff, beq_eq_false_iff_ne, decide_eq_false_iff_not]
  omega

/-- A numeral is read as the number it stands for, unless it has too many digits. -/
theorem readInt_numeral {s : String} {ds : List Char} (negative : Bool)
    (hs : s.toList = (if negative then ['-'] else []) ++ ds) (hds : isNumeral ds = true) :
    readInt s = if digitLimit < ds.length then .error (.tooManyDigits ds.length)
      else .ok (if negative then -(natOfDigits ds) else natOfDigits ds) := by
  have hnumeral := hds
  rw [isNumeral, Bool.and_eq_true, Bool.not_eq_true', List.all_eq_true] at hds
  have hplain : plain? s = some s.toList := by
    refine plain?_eq fun c hc => ?_
    rw [hs, List.mem_append] at hc
    obtain hc | hc := hc
    · cases negative with
      | true => rw [List.mem_singleton.mp hc]; decide
      | false => cases hc
    · exact plain_of_isDigit (hds.2 c hc)
  have hsign : takeSign s.toList = (negative, ds) := by
    rw [hs]
    cases negative with
    | true => rfl
    | false => exact takeSign_numeral hnumeral
  have hbars : withoutBars? ds = some ds :=
    withoutBars?_of_not_mem fun hbar => by cases hds.2 _ hbar
  rw [readInt, hplain, Option.map_some, hsign]
  dsimp only
  rw [hbars]
  dsimp only
  have hdigits : ds.all isPlainDigit = true := List.all_eq_true.mpr hds.2
  rw [hds.1, hdigits, if_neg (by decide)]

/-- The text of a whole number is read as that number, unless it has too many digits. -/
theorem readInt_toString_eq (n : ℤ) :
    readInt (toString n) = if digitLimit < (Nat.toDigits 10 n.natAbs).length
      then .error (.tooManyDigits (Nat.toDigits 10 n.natAbs).length) else .ok n := by
  have htext : (toString n).toList =
      (if decide (n < 0) = true then ['-'] else []) ++ Nat.toDigits 10 n.natAbs := by
    rw [toList_toString]
    simp
  rw [readInt_numeral _ htext (isNumeral_toDigits _), natOfDigits_toDigits]
  congr 2
  split
  · next h => rw [decide_eq_true_eq] at h; omega
  · next h => rw [decide_eq_true_eq] at h; omega

section
variable {n : ℤ} (hn : n.natAbs < 10 ^ digitLimit)
include hn

/-- A number that is not too long is read back from its digits. -/
theorem readInt_toString : readInt (toString n) = .ok n := by
  have hlength :=
    (Nat.length_toDigits_le_iff (b := 10) (k := digitLimit) (by decide) (by decide)).mpr hn
  rw [readInt_toString_eq, if_neg (Nat.not_lt.mpr hlength)]

/-- A number that is not too long is written as its digits. -/
theorem intText?_eq : intText? n = some (toString n) := by
  unfold intText?
  rw [Nat.pow_eq, if_neg (Nat.not_le.mpr hn)]
  refine congrArg some ?_
  apply String.toList_injective
  rw [toList_toString, String.toList_append, Decimal.natText, String.toList_ofList, signText]
  by_cases hneg : n < 0
  · simp [hneg]
  · simp [hneg]

end

end Numeral

/-- A number that is too long is not read. -/
theorem Value.readInt_toString_long {n : ℤ} {shown : String}
    (hn : Numeral.digitLimit < (Nat.toDigits 10 n.natAbs).length) :
    Value.readInt (toString n) shown =
      .error (.tooLongToRead (Nat.toDigits 10 n.natAbs).length) := by
  unfold Value.readInt
  rw [Numeral.readInt_toString_eq, if_pos hn]

section
variable {n : ℤ} (hn : n.natAbs < 10 ^ Numeral.digitLimit)
include hn

theorem Value.runeText_int : (Value.int n).runeText = .ok (toString n) := by
  rw [Value.runeText]
  unfold Value.intText
  rw [Numeral.intText?_eq hn]

theorem Value.readInt_toString (shown : String) : Value.readInt (toString n) shown = .ok n := by
  unfold Value.readInt
  rw [Numeral.readInt_toString hn]

/-- A number is transmuted to its digits. -/
theorem transmute_string : Datum.transmute (.int n) "string" = .ok (.text (toString n)) := by
  rw [Datum.transmute, Value.runeText_int hn]
  rfl

/-- The digits of a number are transmuted back to it. -/
theorem transmute_int : Datum.transmute (.text (toString n)) "int" = .ok (.int n) := by
  rw [Datum.transmute, Numeral.readInt_toString hn]

end

/-! ## A program -/

/-- The program that declares and reveals a number is read. -/
theorem read_numeralProgram (n : ℤ) :
    Tree.read ("rune x = " ++ toString n ++ "; reveal x;") = .ok (numeralProgram (toString n)) := by
  have htext : "rune x = 9; reveal x;".toList.flatMap (putIn (toString n).toList) =
      ("rune x = " ++ toString n ++ "; reveal x;").toList := by
    rw [String.toList_append, String.toList_append]
    rfl
  rw [Tree.read_renumbered GivenText.numeral.isReadWith (isWholeNumeral_toString n)
    (by decide) htext]
  simp [GivenText.tree, numeralProgram, Tree.named, Tree.retextAll]

theorem read_throughText : Tree.read "reveal transmute (transmute x -> string) -> int;" =
    .ok (revealProgram throughText) :=
  GivenText.throughText.read

theorem meaning_group {c : Tree} {v : Value} {k : Nat} {m m₁ : Machine}
    (hc : c.meaning k m = (.done (.rune v), m₁)) :
    (Tree.form .group [c]).meaning (k + 1) m = (.done (.rune v), m₁) := by
  have hvalue : runValue (Tree.meaning k) [c] 0 m = (.done v, m₁) := Spell.bind_of_done hc
  exact Spell.bind_of_done hvalue

section
variable {n : ℤ} (hn : n.natAbs < 10 ^ Numeral.digitLimit)
include hn

/-- The program holds the number and reveals its digits. -/
theorem meaning_numeralProgram {m : Machine} (hnew : m.scope.find? "x" = none) (k : Nat) :
    (numeralProgram (toString n)).meaning (k + 4) m = (.done .nothing, { m with
      scope := m.scope.write "x" (.fresh (some (.int n)) false)
      output := m.output ++ toString n }) := by
  have hkeyword : isKeyword "x" = false := by decide
  have hdeclare :=
    meaning_declaration (n := k) hkeyword (meaning_numeral (Value.readInt_toString hn)) hnew
  have hwritten : (m.mapScope (·.write "x" (.fresh (some (.int n)) false))).scope.find? "x" =
      some (.fresh (some (.int n)) false) := by
    rw [Machine.mapScope_scope, Scope.find?_write, if_pos rfl]
  have hreveal :=
    meaning_revelation (meaning_rune (n := k) hkeyword hwritten rfl) (Value.runeText_int hn)
  have hprogram : (numeralProgram (toString n)).meaning (k + 4) m = runEach (Tree.meaning (k + 3))
      [declaration "x" (.leaf .whole (toString n)), revelation (.form .rune [.leaf .name "x"])] m :=
        rfl
  rw [hprogram, runEach, Spell.bind_of_done hdeclare, runEach, Spell.bind_of_done hreveal]
  rfl

/-- A rune that holds a whole number is transmuted to its text and back. -/
theorem meaning_throughText {m : Machine} {e : Entry} (hold : m.scope.find? "x" = some e)
    (hv : e.value = some (.int n)) (k : Nat) :
    throughText.meaning (k + 5) m = (.done (.rune (.int n)), m) := by
  have hrune := meaning_rune (n := k) (m := m) (by decide) hold hv
  have hstring : (transmutation (.form .rune [.leaf .name "x"]) "string").meaning (k + 3) m =
      (.done (.rune (.text (toString n))), m) :=
    meaning_transmutation_of_ok hrune (transmute_string hn)
  have hgroup : (Tree.form .group [transmutation (.form .rune [.leaf .name "x"]) "string"]).meaning
      (k + 4) m = (.done (.rune (.text (toString n))), m) := meaning_group hstring
  exact meaning_transmutation_of_ok hgroup (transmute_int hn)

end

/-- **Whole numbers survive text.** A whole number of at most as many digits as the limit says is
revealed as the text that declares it, whether it is negative or not. If a rune holds it, then
transmuting the rune to a text and that to a whole number gives it again. -/
theorem whole_number_survives_text {n : ℤ}
    (hn : (Nat.toDigits 10 n.natAbs).length ≤ Numeral.digitLimit) (input : String)
    (draws : List Float) :
    (Machine.fresh input draws).perform ("rune x = " ++ toString n ++ "; reveal x;") =
      (.ended (.done .nothing), { Machine.fresh input draws with
        scope := [{ own := [("x", ⟨some (.int n), some .int, false, none⟩)] }]
        output := toString n }) ∧
    Tree.read "reveal transmute (transmute x -> string) -> int;" = .ok (revealProgram throughText) ∧
    ∀ (m : Machine) (e : Entry) (k : Nat), m.scope.find? "x" = some e → e.value = some (.int n) →
      throughText.meaning (k + 5) m = (.done (.rune (.int n)), m) := by
  have hn := (Nat.length_toDigits_le_iff (by decide) (by decide)).mp hn
  refine ⟨?_, read_throughText, fun m e k hold hv => meaning_throughText hn hold hv k⟩
  obtain ⟨k, hk⟩ : ∃ k, endurance = k + 4 := ⟨endurance - 4, (Nat.sub_add_cancel (by decide)).symm⟩
  rw [Machine.perform_of_read (read_numeralProgram n), Machine.run, hk,
    meaning_numeralProgram hn rfl]
  simp [Machine.fresh, Scope.empty, Scope.write, Table.put, Entry.fresh, Value.kind]

/-- A negative number. -/
theorem whole_number_survives_text_minus_forty_two :
    (Machine.fresh "" []).perform "rune x = -42; reveal x;" =
      (.ended (.done .nothing), { Machine.fresh "" [] with
        scope := [{ own := [("x", ⟨some (.int (-42)), some .int, false, none⟩)] }]
        output := "-42" }) ∧
    throughText.meaning 5 { Machine.fresh "" [] with
        scope := [{ own := [("x", ⟨some (.int (-42)), some .int, false, none⟩)] }]
        output := "-42" } =
      (.done (.rune (.int (-42))), { Machine.fresh "" [] with
        scope := [{ own := [("x", ⟨some (.int (-42)), some .int, false, none⟩)] }]
        output := "-42" }) := by
  obtain ⟨hperform, -, hback⟩ := whole_number_survives_text (n := -42) (by decide) "" []
  exact ⟨hperform, hback _ _ 0 rfl rfl⟩

end Spellbook
