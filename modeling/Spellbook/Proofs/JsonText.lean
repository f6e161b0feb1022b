import Spellbook.Json.Reader
import Spellbook.Json.Writer
import Mathlib.Tactic.IntervalCases

/-!
# Texts in JSON are read back

A text is written in ASCII, its other characters as escapes of their UTF-16 units, and the reader
collects units before it makes characters of them. So a character is followed through its units:
what is written for it is read as its units, whatever comes after (`units_escapedChar`), and its
units are one character again (`charsOfUnits_append`). `quotedText_textText` is the two for a text.
-/

namespace Spellbook
namespace JsonValue

/-! ## Escapes -/

theorem hexDigit?_hexDigit {n : Nat} (hn : n < 16) : hexDigit? (Text.hexDigit n) = some n := by
  interval_cases n <;> decide

theorem hexText_four (n : Nat) :
    Text.hexText 4 n =
      [Text.hexDigit (n / 4096 % 16), Text.hexDigit (n / 256 % 16), Text.hexDigit (n / 16 % 16),
      Text.hexDigit (n % 16)] := by
  simp [Text.hexText, Nat.div_div_eq_div_mul]

theorem unit?_hexDigits {n : Nat} (hn : n < 65536) :
    unit? (Text.hexDigit (n / 4096 % 16)) (Text.hexDigit (n / 256 % 16))
    (Text.hexDigit (n / 16 % 16)) (Text.hexDigit (n % 16)) = some n := by
  have h (k : Nat) : hexDigit? (Text.hexDigit (k % 16)) = some (k % 16) :=
    hexDigit?_hexDigit (Nat.mod_lt _ (by decide))
  simp only [unit?, h]
  show some _ = some n
  congr 1
  omega

/-! ## Units -/

def unitsOf (c : Char) : List Nat :=
  if c.toNat < 0x10000 then [c.toNat]
  else [0xd800 + (c.toNat - 0x10000) / 0x400, 0xdc00 + (c.toNat - 0x10000) % 0x400]

section
variable {whole cs rest : List Char} {ns : List Nat} (h : units whole cs = .ok (ns, rest))
include h

theorem units_unitEscape {n : Nat} (hn : n < 65536) :
    units whole (unitEscape n ++ cs) = .ok (n :: ns, rest) := by
  rw [unitEscape, hexText_four]
  simp only [List.cons_append, List.nil_append, units, unit?_hexDigits hn, h]
  rfl

theorem units_plainEscape {c e : Char} (he : plainEscape? c = some e) :
    units whole ('\\' :: c :: cs) = .ok (e.toNat :: ns, rest) := by
  have hu : c ≠ 'u' := by
    rintro rfl
    simp [plainEscape?] at he
  rw [units.eq_6 _ _ _ (fun _ _ _ _ _ hc _ => hu hc) hu, he]
  simp only [h]
  rfl

theorem units_plainChar {c : Char} (hquote : c ≠ '"') (hslash : c ≠ '\\') (hlow : 32 ≤ c.toNat) :
    units whole (c :: cs) = .ok (c.toNat :: ns, rest) := by
  rw [units.eq_7 _ _ _ hquote (fun _ _ _ _ _ hc _ => hslash hc) (fun _ hc _ => hslash hc)
    (fun hc _ => hslash hc) (fun _ _ hc _ => hslash hc), if_neg (by omega)]
  simp only [h]
  rfl

/-- What is written for a character is read as its units. -/
theorem units_escapedChar (c : Char) :
    units whole (escapedChar c ++ cs) = .ok (unitsOf c ++ ns, rest) := by
  let Read (text : List Char) : Prop := units whole (text ++ cs) = .ok (unitsOf c ++ ns, rest)
  -- an escape of one letter gives back a character below the pairs
  have hplain {a e : Char} (he : plainEscape? a = some e) (hlow : e.toNat < 0x10000)
      (hc : c.toNat = e.toNat) : Read ['\\', a] := by
    show units _ _ = _
    rw [unitsOf, hc, if_pos hlow]
    exact units_plainEscape h he
  have hletter {a e : Char} (he : plainEscape? a = some e) (hlow : e.toNat < 0x10000)
      (hc : c = e) : Read ['\\', a] :=
    hplain he hlow (congrArg Char.toNat hc)
  show Read (escapedChar c)
  unfold escapedChar
  -- a case split simplifies all that comes after it, so the cases are taken one by one
  refine iteInduction (motive := Read) (hletter rfl (by decide)) fun hquote => ?_
  refine iteInduction (motive := Read) (hletter rfl (by decide)) fun hslash => ?_
  refine iteInduction (motive := Read) (hletter rfl (by decide)) fun _ => ?_
  refine iteInduction (motive := Read) (hletter rfl (by decide)) fun _ => ?_
  refine iteInduction (motive := Read) (hletter rfl (by decide)) fun _ => ?_
  refine iteInduction (motive := Read) (hplain (e := '\x08') rfl (by decide)) fun _ => ?_
  refine iteInduction (motive := Read) (hplain (e := '\x0c') rfl (by decide)) fun _ => ?_
  refine iteInduction (motive := Read) (fun hshown => ?_) fun _ =>
    iteInduction (motive := Read) (fun hlow => ?_) fun hlow => ?_
  · simp only [Bool.and_eq_true, decide_eq_true_eq] at hshown
    show units _ _ = _
    rw [unitsOf, if_pos (by omega)]
    exact units_plainChar h hquote hslash hshown.1
  · show units _ _ = _
    rw [unitsOf, if_pos hlow]
    exact units_unitEscape h hlow
  · have hvalid : c.toNat < 0xd800 ∨ 0xdfff < c.toNat ∧ c.toNat < 0x110000 := c.valid
    show units _ _ = _
    rw [unitsOf, if_neg hlow, List.append_assoc]
    exact units_unitEscape (units_unitEscape h (by omega)) (by omega)

theorem units_flatMap (text : List Char) :
    units whole (text.flatMap escapedChar ++ cs) = .ok (text.flatMap unitsOf ++ ns, rest) := by
  induction text with
  | nil => exact h
  | cons c text ih =>
    rw [List.flatMap_cons, List.flatMap_cons, List.append_assoc, List.append_assoc]
    exact units_escapedChar ih c
end

/-- The units of a character are put together to it. A character above the first plane is a pair,
and no other one is taken for half of a pair. -/
theorem charsOfUnits_append (c : Char) (ns : List Nat) :
    charsOfUnits (unitsOf c ++ ns) = c :: charsOfUnits ns := by
  have hvalid : c.toNat < 0xd800 ∨ 0xdfff < c.toNat ∧ c.toNat < 0x110000 := c.valid
  rw [unitsOf]
  split
  case isTrue hlow =>
    have hopens : opensPair c.toNat = false := by
      simp only [opensPair, Bool.and_eq_false_iff, decide_eq_false_iff_not]
      omega
    have hcloses : closesPair c.toNat = false := by
      simp only [closesPair, Bool.and_eq_false_iff, decide_eq_false_iff_not]
      omega
    have hlone : loneUnit c.toNat = c := by
      rw [loneUnit, hopens, hcloses]
      exact Char.ofNat_toNat c
    cases ns with
    | nil => rw [List.append_nil, charsOfUnits, charsOfUnits, hlone]
    | cons n ns =>
      rw [List.singleton_append, charsOfUnits, hopens, hlone]
      rfl
  case isFalse hhigh =>
    have hopens : opensPair (0xd800 + (c.toNat - 0x10000) / 0x400) = true := by
      simp only [opensPair, Bool.and_eq_true, decide_eq_true_eq]
      omega
    have hcloses : closesPair (0xdc00 + (c.toNat - 0x10000) % 0x400) = true := by
      simp only [closesPair, Bool.and_eq_true, decide_eq_true_eq]
      omega
    have hjoin : 0x10000 + (0xd800 + (c.toNat - 0x10000) / 0x400 - 0xd800) * 0x400 +
        (0xdc00 + (c.toNat - 0x10000) % 0x400 - 0xdc00) = c.toNat := by omega
    rw [List.cons_append, List.singleton_append, charsOfUnits, hopens, hcloses, hjoin,
      Char.ofNat_toNat]
    rfl

theorem charsOfUnits_flatMap (text : List Char) : charsOfUnits (text.flatMap unitsOf) = text := by
  induction text with
  | nil => rfl
  | cons c text ih => rw [List.flatMap_cons, charsOfUnits_append, ih]

/-- A written text is read back. -/
theorem quotedText_textText (s : String) (rest : List Char) :
    quotedText ((textText s).toList ++ rest) = .ok (s, rest) := by
  have htext : (textText s).toList ++ rest =
      '"' :: (s.toList.flatMap escapedChar ++ '"' :: rest) := by
    simp [textText]
  have hend (whole : List Char) : units whole ('"' :: rest) = .ok ([], rest) := rfl
  rw [htext, quotedText, List.tail_cons, units_flatMap (hend _) s.toList]
  show Except.ok (String.ofList (charsOfUnits (s.toList.flatMap unitsOf ++ [])), rest) = _
  rw [List.append_nil, charsOfUnits_flatMap, String.ofList_toList]

end JsonValue
end Spellbook
