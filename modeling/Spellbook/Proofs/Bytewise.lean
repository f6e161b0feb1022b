import Spellbook.Proofs.Prose
import Spellbook.Proofs.Truth

/-!
# Literals byte by byte

Escapes are looked for in the bytes of a literal, and each byte that belongs to none becomes a
character. A literal without a backslash has no escapes (`Text.Escape.decode_eq_bytewise`): no byte
of a character beyond ASCII is that of a backslash. But such a character has several bytes, each of
which becomes a character of its own. So only ASCII texts stand for themselves
(`Text.bytewise_eq_self_iff`), and the others for longer ones (`literal_bytewise`).
-/

namespace Spellbook
namespace Text

/-- The bytes of a character, each as the character with its number. -/
def byteChars (c : Char) : List Char := (String.utf8EncodeChar c).map fun b => Char.ofNat b.toNat

/-- The text with a character for each byte of another. -/
def bytewise (s : String) : String := String.ofList (s.toList.flatMap byteChars)

theorem byteChars_of_lt {c : Char} (hc : c.toNat < 128) : byteChars c = [c] := by
  have hbyte : c.val.toUInt8.toNat = c.toNat := Nat.mod_eq_of_lt (Nat.lt_trans hc (by decide))
  rw [byteChars, String.utf8EncodeChar_eq_singleton (Escape.utf8Size_eq_one_iff.mpr hc),
    List.map_singleton, hbyte, c.ofNat_toNat]

theorem length_byteChars (c : Char) : (byteChars c).length = c.utf8Size := by
  rw [byteChars, List.length_map, String.length_utf8EncodeChar]

theorem length_le_flatMap_byteChars (cs : List Char) :
    cs.length ≤ (cs.flatMap byteChars).length := by
  induction cs with
  | nil => exact Nat.zero_le _
  | cons c cs ih =>
    have hpos := c.utf8Size_pos
    rw [List.flatMap_cons, List.length_append, length_byteChars, List.length_cons]
    omega

/-- Only ASCII characters have one byte. -/
theorem length_flatMap_byteChars_eq_iff (cs : List Char) :
    (cs.flatMap byteChars).length = cs.length ↔ ∀ c ∈ cs, c.toNat < 128 := by
  induction cs with
  | nil => exact ⟨fun _ => nofun, fun _ => rfl⟩
  | cons c cs ih =>
    have hpos := c.utf8Size_pos
    have hle := length_le_flatMap_byteChars cs
    rw [List.flatMap_cons, List.length_append, length_byteChars, List.length_cons,
      List.forall_mem_cons, ← ih, ← Escape.utf8Size_eq_one_iff]
    omega

theorem length_bytewise (s : String) : (bytewise s).length = s.utf8ByteSize := by
  have hbytes := congrArg List.length (Escape.bytesOf_ofList s.toList)
  have hsize : (Escape.bytesOf s).length = s.utf8ByteSize := by
    rw [Escape.bytesOf, List.length_map, ByteArray.toList, Escape.toList_loop]
    rfl
  rw [s.ofList_toList, hsize, List.length_flatMap] at hbytes
  rw [hbytes, bytewise, String.length_ofList, List.length_flatMap]
  simp only [byteChars, List.length_map]

theorem utf8ByteSize_eq_length_iff (s : String) :
    s.utf8ByteSize = s.length ↔ ∀ c ∈ s.toList, c.toNat < 128 := by
  rw [← length_bytewise, bytewise, String.length_ofList, ← s.length_toList]
  exact length_flatMap_byteChars_eq_iff s.toList

/-- **Just the ASCII texts are the same byte by byte.** -/
theorem bytewise_eq_self_iff (s : String) : bytewise s = s ↔ ∀ c ∈ s.toList, c.toNat < 128 := by
  refine ⟨fun h => ?_, fun h => ?_⟩
  · rw [← utf8ByteSize_eq_length_iff, ← length_bytewise, h]
  · have hchars : s.toList.flatMap byteChars = s.toList := by
      rw [List.flatMap_congr fun c hc => byteChars_of_lt (h c hc), List.flatMap_singleton']
    rw [bytewise, hchars, s.ofList_toList]

namespace Escape

/-- The bytes of a character beyond ASCII all have their first bit set. -/
theorem le_of_mem_utf8EncodeChar {c : Char} (hc : c.utf8Size ≠ 1) {b : UInt8}
    (hb : b ∈ String.utf8EncodeChar c) :
    128 ≤ b.toNat := by
  have hor (x y : UInt8) (hy : 128 ≤ y.toNat) : 128 ≤ (x ||| y).toNat := by
    rw [UInt8.toNat_or]
    exact hy.trans Nat.right_le_or
  obtain hsize | hsize | hsize | hsize := c.utf8Size_eq
  · exact absurd hsize hc
  · rw [String.utf8EncodeChar_eq_cons_cons hsize] at hb
    simp only [List.mem_cons, List.not_mem_nil, or_false] at hb
    obtain rfl | rfl := hb <;> exact hor _ _ (by decide)
  · rw [String.utf8EncodeChar_eq_cons_cons_cons hsize] at hb
    simp only [List.mem_cons, List.not_mem_nil, or_false] at hb
    obtain rfl | rfl | rfl := hb <;> exact hor _ _ (by decide)
  · rw [String.utf8EncodeChar_eq_cons_cons_cons_cons hsize] at hb
    simp only [List.mem_cons, List.not_mem_nil, or_false] at hb
    obtain rfl | rfl | rfl | rfl := hb <;> exact hor _ _ (by decide)

/-- Only a backslash has the byte of a backslash. -/
theorem eq_backslash_of_mem {c : Char} {b : UInt8} (hb : b ∈ String.utf8EncodeChar c)
    (h : b.toNat = 92) :
    c = '\\' := by
  by_cases hc : c.utf8Size = 1
  · have hlt := utf8Size_eq_one_iff.mp hc
    have hbyte : c.val.toUInt8.toNat = c.toNat := Nat.mod_eq_of_lt (Nat.lt_trans hlt (by decide))
    rw [String.utf8EncodeChar_eq_singleton hc, List.mem_singleton] at hb
    rw [← c.ofNat_toNat, ← hbyte, ← hb, h]
  · have hle := le_of_mem_utf8EncodeChar hc hb
    omega

/-- Bytes without a backslash are read one by one. -/
theorem decodeFrom_of_not_mem (t : Characters) {bs : List Nat} (h : 92 ∉ bs) (pos : Nat) :
    decodeFrom t bs.length pos bs = .ok (bs.map Char.ofNat) := by
  induction bs generalizing pos with
  | nil => rfl
  | cons b bs ih =>
    rw [List.mem_cons, not_or] at h
    obtain ⟨hb, hbs⟩ := h
    rw [List.length_cons, decodeFrom, if_neg (Ne.symm hb), ih hbs]
    rfl

/-- **A text without backslashes is read byte by byte.** -/
theorem decode_eq_bytewise {s : String} (h : '\\' ∉ s.toList) (t : Characters := {}) :
    decode s t = .ok (bytewise s) := by
  have hbytes := bytesOf_ofList s.toList
  rw [s.ofList_toList] at hbytes
  have hnone : 92 ∉ bytesOf s := by
    rw [hbytes]
    intro hmem
    obtain ⟨c, hc, hmem⟩ := List.mem_flatMap.mp hmem
    obtain ⟨b, hb, hvalue⟩ := List.mem_map.mp hmem
    exact h (eq_backslash_of_mem hb hvalue ▸ hc)
  show (decodeFrom t _ 0 _).map String.ofList = _
  rw [decodeFrom_of_not_mem t hnone, hbytes, List.map_flatMap]
  simp only [List.map_map]
  rfl

end Escape
end Text

/-! ## Literals -/

section
variable {s : String} (hbackslash : '\\' ∉ s.toList)
include hbackslash

theorem meaning_literal_bytewise (n : Nat) (m : Machine) :
    (Tree.leaf .quoted ("\"" ++ s ++ "\"")).meaning (n + 1) m =
      (.done (.rune (.text (Text.bytewise s))), m) := by
  have htoken : "\"" ++ s ++ "\"" = String.ofList ('"' :: s.toList ++ ['"']) := by
    apply String.toList_injective
    simp
  rw [htoken, meaning_quoted, String.ofList_toList, literalText,
    Text.Escape.decode_eq_bytewise hbackslash]
  rfl

theorem meaning_measurement_literal (n : Nat) (m : Machine) :
    (measurement (.leaf .quoted ("\"" ++ s ++ "\""))).meaning (n + 2) m =
      (.done (.rune (.int s.utf8ByteSize)), m) := by
  rw [meaning_measurement (meaning_literal_bytewise hbackslash n m), Value.runeLength,
    Text.length_bytewise]
  rfl

variable (hquote : '"' ∉ s.toList) (hreturn : '\r' ∉ s.toList)
include hquote hreturn

theorem perform_reveal_literal (m : Machine) : m.perform ("reveal \"" ++ s ++ "\";") =
    (.ended (.done .nothing), { m with output := m.output ++ Text.bytewise s }) := by
  have hplain : plainBreaks s.toList = s.toList := plainBreaks_of_not_mem hreturn
  have hread := read_quoted (s := s) (by rwa [hplain])
  rw [hplain, s.ofList_toList] at hread
  have hrun := run_revealProgram (fun n => TextPart.meaning_value_prose s (n + 2)) m
  rw [Machine.perform_of_read hread, hrun, Machine.revealWritten,
    Text.Escape.decode_eq_bytewise hbackslash]

/-- **What a literal without escapes stands for.** It evaluates to the text with a character for
each of its bytes, a program that reveals it reveals that text, and it measures as many characters
as it has bytes. It stands for itself, and measures its own length, just if it is ASCII. -/
theorem literal_bytewise :
    (∀ n m, (Tree.leaf .quoted ("\"" ++ s ++ "\"")).meaning (n + 1) m =
      (.done (.rune (.text (Text.bytewise s))), m)) ∧
    (∀ m : Machine, m.perform ("reveal \"" ++ s ++ "\";") =
      (.ended (.done .nothing), { m with output := m.output ++ Text.bytewise s })) ∧
    (∀ n m, (measurement (.leaf .quoted ("\"" ++ s ++ "\""))).meaning (n + 2) m =
      (.done (.rune (.int s.utf8ByteSize)), m)) ∧
    (Text.bytewise s = s ↔ ∀ c ∈ s.toList, c.toNat < 128) ∧
    (s.utf8ByteSize = s.length ↔ ∀ c ∈ s.toList, c.toNat < 128) :=
  ⟨meaning_literal_bytewise hbackslash, perform_reveal_literal hbackslash hquote hreturn,
    meaning_measurement_literal hbackslash, Text.bytewise_eq_self_iff s,
    Text.utf8ByteSize_eq_length_iff s⟩

end

/-- A text with a line break and characters of two, three and four bytes. -/
theorem literal_bytewise_sizes :
    '\\' ∉ ['\n', 'é', '€', '😀'] ∧ '"' ∉ ['\n', 'é', '€', '😀'] ∧ '\r' ∉ ['\n', 'é', '€', '😀'] ∧
      (measurement (.leaf .quoted ("\"" ++ String.ofList ['\n', 'é', '€', '😀'] ++ "\""))).meaning 2
        {} = (.done (.rune (.int 10)), {}) :=
  ⟨by decide, by decide, by decide,
    (literal_bytewise (s := String.ofList ['\n', 'é', '€', '😀']) (by simp) (by simp)
      (by simp)).2.2.1 0 {}⟩

/-- A letter with an accent is a text without escapes. But it is revealed as two letters, and
measures two. -/
theorem accent_is_taken_apart :
    '\\' ∉ "é".toList ∧ '"' ∉ "é".toList ∧ '\r' ∉ "é".toList ∧
      ({} : Machine).perform "reveal \"é\";" = (.ended (.done .nothing), { output := "Ã©" }) ∧
      (measurement (.leaf .quoted "\"é\"")).meaning 2 {} = (.done (.rune (.int 2)), {}) ∧
      "é".length = 1 := by
  have hbackslash : '\\' ∉ "é".toList := by decide
  have hquote : '"' ∉ "é".toList := by decide
  have hreturn : '\r' ∉ "é".toList := by decide
  exact ⟨hbackslash, hquote, hreturn, perform_reveal_literal hbackslash hquote hreturn {},
    meaning_measurement_literal hbackslash 0 {}, rfl⟩

end Spellbook
