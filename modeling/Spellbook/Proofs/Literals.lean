import Mathlib.Algebra.Group.Nat.Defs
import Spellbook.Proofs.Names

/-!
# Texts as literals

Every text can be written as a literal. `Text.Escape.written` writes the characters that cannot
stand between quotes as they are by their numbers, with two, four or eight hexadecimal digits. What
is written is ASCII, so its bytes are its characters (`bytesOf_ascii`), and each character is read
back from the front of what is written, whatever follows it (`decodeFrom_written`).

A literal ends at the first quote, and none is written: a program that reveals a literal is read as
such (`read_literal`).
-/

namespace Spellbook
namespace Text.Escape

/-! ## Hexadecimal digits -/

/-- The digit of a value below sixteen. -/
def hexDigit (d : Nat) : Char := Char.ofNat (if d < 10 then 48 + d else 87 + d)

/-- The last `count` hexadecimal digits of a number. -/
def hexDigits : Nat → Nat → List Char
  | 0, _ => []
  | count + 1, n => hexDigit (n / 16 ^ count % 16) :: hexDigits count n

/-- A hexadecimal digit has the value that it was made for. -/
theorem hexValue?_hexDigit : ∀ d < 16, hexValue? (hexDigit d).toNat = some d := by
  decide

/-- Digits are read as the number that they were made of, and nothing behind them is. -/
theorem takeHex_hexDigits (count n taken value : Nat) (rest : List Nat) :
    takeHex count taken value ((hexDigits count n).map Char.toNat ++ rest) =
      (taken + count, value * 16 ^ count + n % 16 ^ count, rest) := by
  induction count generalizing taken value with
  | zero => simp [takeHex, hexDigits, Nat.mod_one]
  | succ count ih =>
    have hdigit := hexValue?_hexDigit (n / 16 ^ count % 16) (Nat.mod_lt _ (by decide))
    rw [hexDigits, List.map_cons, List.cons_append, takeHex, hdigit]
    show takeHex count (taken + 1) (value * 16 + n / 16 ^ count % 16) _ = _
    rw [ih, Nat.mod_pow_succ]
    have hvalue : (value * 16 + n / 16 ^ count % 16) * 16 ^ count + n % 16 ^ count =
        value * 16 ^ (count + 1) + (n % 16 ^ count + 16 ^ count * (n / 16 ^ count % 16)) := by
      rw [Nat.add_mul, Nat.mul_assoc, ← Nat.pow_succ', Nat.mul_comm (n / 16 ^ count % 16),
        Nat.add_assoc, Nat.add_comm (n % 16 ^ count)]
    rw [hvalue, Nat.add_assoc, Nat.add_comm 1]

theorem toNat_le (c : Char) : c.toNat ≤ 0x10ffff := by
  have hvalid : c.toNat < 0xd800 ∨ 0xdfff < c.toNat ∧ c.toNat < 0x110000 := c.valid
  omega

/-- An escape of enough hexadecimal digits gives its character. -/
theorem hexEscape_hexDigits (t : Characters) {count : Nat} {c : Char}
    (hc : c.toNat < 16 ^ count) (pos : Nat) (short : Reason) (rest : List Nat) :
    hexEscape t pos count short ((hexDigits count c.toNat).map Char.toNat ++ rest) =
      .ok ([c], count + 1, rest) := by
  have hrange := toNat_le c
  have hvalid : c.toNat.isValidChar := c.valid
  rw [hexEscape, takeHex_hexDigits, Nat.mod_eq_of_lt hc]
  simp only [Nat.zero_add, Nat.zero_mul, Nat.lt_irrefl, if_false, Nat.not_lt.mpr hrange,
    hvalid, if_true, Char.ofNat_toNat]

/-! ## Writing -/

def written (c : Char) : List Char :=
  if c = '\\' then ['\\', '\\']
  else if c = '"' then ['\\', 'x', '2', '2']
  else if 0x20 ≤ c.toNat ∧ c.toNat ≤ 0x7e then [c]
  else if c.toNat ≤ 0xff then '\\' :: 'x' :: hexDigits 2 c.toNat
  else if c.toNat ≤ 0xffff then '\\' :: 'u' :: hexDigits 4 c.toNat
  else '\\' :: 'U' :: hexDigits 8 c.toNat

def writtenText (s : String) : List Char := s.toList.flatMap written

/-- The characters that can be written: printable ASCII without the quote. -/
def isWritable (c : Char) : Bool := 0x20 ≤ c.toNat && c.toNat ≤ 0x7e && c != '"'

/-- The letter `k` after a backslash announces `count` hexadecimal digits. -/
def Announces (k : Char) (count : Nat) : Prop :=
  ∃ short, ∀ t pos bs, escape t pos (k.toNat :: bs) = hexEscape t pos count short bs

/-- A character is written as two backslashes, as it is, or by its number. -/
theorem written_cases (c : Char) :
    (c = '\\' ∧ written c = ['\\', '\\']) ∨
    (c ≠ '\\' ∧ isWritable c = true ∧ written c = [c]) ∨
    ∃ k count, isWritable k = true ∧ Announces k count ∧ c.toNat < 16 ^ count ∧
      written c = '\\' :: k :: hexDigits count c.toNat := by
  have hle := toNat_le c
  rw [written]
  split
  · next h => exact .inl ⟨h, rfl⟩
  · next hbackslash =>
    refine .inr ?_
    split
    · next h =>
        exact .inr ⟨'x', 2, rfl, ⟨.shortX, fun _ _ _ => rfl⟩, by rw [h]; decide, by rw [h]; rfl⟩
    · next hquote =>
      split
      · next hprintable => exact .inl ⟨hbackslash, by simp [isWritable, hprintable, hquote], rfl⟩
      · refine .inr ?_
        split
        · exact ⟨'x', 2, rfl, ⟨.shortX, fun _ _ _ => rfl⟩, by omega, rfl⟩
        · split
          · exact ⟨'u', 4, rfl, ⟨.shortU, fun _ _ _ => rfl⟩, by omega, rfl⟩
          · exact ⟨'U', 8, rfl, ⟨.shortLongU, fun _ _ _ => rfl⟩, by omega, rfl⟩

theorem written_ne_nil (c : Char) : written c ≠ [] := by
  rcases written_cases c with ⟨-, hc⟩ | ⟨-, -, hc⟩ | ⟨k, count, -, -, -, hc⟩ <;>
    exact hc ▸ List.cons_ne_nil _ _

theorem isWritable_hexDigits (count n : Nat) : ∀ c ∈ hexDigits count n, isWritable c = true := by
  have hdigit : ∀ d < 16, isWritable (hexDigit d) = true := by decide
  induction count with
  | zero => exact nofun
  | succ count ih => exact List.forall_mem_cons.mpr ⟨hdigit _ (Nat.mod_lt _ (by decide)), ih⟩

/-- A character is written with characters that need no escape. -/
theorem isWritable_written (c : Char) : ∀ d ∈ written c, isWritable d = true := by
  rcases written_cases c with ⟨-, hc⟩ | ⟨-, hwritable, hc⟩ | ⟨k, count, hk, -, -, hc⟩
  · rw [hc]
    exact List.forall_mem_cons.mpr ⟨rfl, List.forall_mem_singleton.mpr rfl⟩
  · rw [hc]
    exact List.forall_mem_singleton.mpr hwritable
  · rw [hc]
    exact List.forall_mem_cons.mpr
      ⟨rfl, List.forall_mem_cons.mpr ⟨hk, isWritable_hexDigits count c.toNat⟩⟩

theorem isWritable_writtenText {s : String} {c : Char} (h : c ∈ writtenText s) :
    isWritable c = true := by
  obtain ⟨d, -, hd⟩ := List.mem_flatMap.mp h
  exact isWritable_written d c hd

/-! ## Reading back -/

section
variable (t : Characters)

/-- An escape by number is read back. -/
theorem decodeFrom_escape {k : Char} {count : Nat} (hk : Announces k count) {c : Char}
    (hc : c.toNat < 16 ^ count) (fuel pos : Nat) (rest : List Nat) :
    decodeFrom t (fuel + 1) pos (('\\' :: k :: hexDigits count c.toNat).map Char.toNat ++ rest) =
      (decodeFrom t fuel (pos + 1 + (count + 1)) rest).map (c :: ·) := by
  obtain ⟨short, hk⟩ := hk
  have hescape : escape t pos (k.toNat :: ((hexDigits count c.toNat).map Char.toNat ++ rest)) =
      .ok ([c], count + 1, rest) := by
    rw [hk, hexEscape_hexDigits t hc]
  show decodeFrom t (fuel + 1) pos
    (92 :: (k.toNat :: ((hexDigits count c.toNat).map Char.toNat ++ rest))) = _
  rw [decodeFrom, if_pos rfl, hescape]
  rfl

/-- **A written character is read back**, whatever follows it. -/
theorem decodeFrom_written (c : Char) (fuel pos : Nat) (rest : List Nat) :
    ∃ pos', decodeFrom t (fuel + 1) pos ((written c).map Char.toNat ++ rest) =
      (decodeFrom t fuel pos' rest).map (c :: ·) := by
  rcases written_cases c with ⟨rfl, hc⟩ | ⟨hne, -, hc⟩ | ⟨k, count, -, hk, hlt, hc⟩
  · exact ⟨pos + 2, rfl⟩
  · have hbackslash : c.toNat ≠ 92 := fun h => hne (by rw [← c.ofNat_toNat, h])
    refine ⟨pos + 1, ?_⟩
    rw [hc, List.map_singleton, List.singleton_append, decodeFrom, if_neg hbackslash, c.ofNat_toNat]
  · rw [hc]
    exact ⟨pos + 1 + (count + 1), decodeFrom_escape t hk hlt fuel pos rest⟩

/-- A written text is decoded, by induction on its characters. -/
theorem decodeFrom_flatMap_written {fuel : Nat} {cs : List Char}
    (hfuel : cs.length ≤ fuel) (pos : Nat) :
    decodeFrom t fuel pos ((cs.flatMap written).map Char.toNat) = .ok cs := by
  induction cs generalizing fuel pos with
  | nil => cases fuel <;> rfl
  | cons c cs ih =>
    obtain ⟨fuel, rfl⟩ : ∃ n, fuel = n + 1 := ⟨fuel - 1, by rw [List.length_cons] at hfuel; omega⟩
    rw [List.flatMap_cons, List.map_append]
    obtain ⟨pos', hc⟩ := decodeFrom_written t c fuel pos ((cs.flatMap written).map Char.toNat)
    rw [hc, ih (Nat.le_of_succ_le_succ hfuel)]
    rfl

end

theorem toList_loop (bs : ByteArray) (i : Nat) (r : List UInt8) :
    ByteArray.toList.loop bs i r = r.reverse ++ bs.data.toList.drop i := by
  fun_induction ByteArray.toList.loop bs i r with
  | case1 i r h ih =>
    have hlt : i < bs.data.toList.length := h
    have hget : bs.get! i = bs.data.toList[i] := getElem!_pos bs.data i h
    rw [ih, List.drop_eq_getElem_cons hlt, List.reverse_cons, List.append_assoc, hget]
    rfl
  | case2 i r h =>
    have hle : bs.data.toList.length ≤ i := Nat.not_lt.mp h
    rw [List.drop_eq_nil_of_le hle, List.append_nil]

/-- The bytes of a text are those of its characters. -/
theorem bytesOf_ofList (cs : List Char) :
    bytesOf (String.ofList cs) = cs.flatMap fun c => (String.utf8EncodeChar c).map UInt8.toNat := by
  have hbytes : (String.ofList cs).toUTF8.toList = cs.flatMap String.utf8EncodeChar := by
    rw [String.toUTF8_eq_toByteArray, String.toByteArray_ofList, ByteArray.toList, toList_loop,
      List.utf8Encode, List.data_toByteArray]
    rfl
  rw [bytesOf, hbytes, List.map_flatMap]

/-- The characters of one byte are those below 128. -/
theorem utf8Size_eq_one_iff {c : Char} : c.utf8Size = 1 ↔ c.toNat < 128 := by
  rw [Char.utf8Size_eq_one_iff, UInt32.le_iff_toNat_le]
  exact Nat.lt_succ_iff.symm

/-- The bytes of an ASCII text are the numbers of its characters. -/
theorem bytesOf_ascii {cs : List Char} (h : ∀ c ∈ cs, c.toNat < 128) :
    bytesOf (String.ofList cs) = cs.map Char.toNat := by
  rw [bytesOf_ofList]
  induction cs with
  | nil => rfl
  | cons c cs ih =>
    obtain ⟨hc, hcs⟩ := List.forall_mem_cons.mp h
    have hbyte : c.val.toUInt8.toNat = c.toNat := Nat.mod_eq_of_lt (Nat.lt_trans hc (by decide))
    rw [List.flatMap_cons, String.utf8EncodeChar_eq_singleton (utf8Size_eq_one_iff.mpr hc),
      List.map_singleton, List.singleton_append, ih hcs, hbyte, List.map_cons]

theorem length_le_flatMap_written (cs : List Char) : cs.length ≤ (cs.flatMap written).length := by
  induction cs with
  | nil => exact Nat.zero_le _
  | cons c cs ih =>
    have hpos := List.length_pos_iff.mpr (written_ne_nil c)
    rw [List.flatMap_cons, List.length_append, List.length_cons]
    omega

/-- A text that is written is decoded to itself, whatever names of characters are known. -/
theorem decode_writtenText (s : String) (t : Characters := {}) :
    decode (String.ofList (writtenText s)) t = .ok s := by
  have hascii : ∀ c ∈ writtenText s, c.toNat < 128 := by
    intro c hc
    have hwritable := isWritable_writtenText hc
    simp only [isWritable, Bool.and_eq_true, decide_eq_true_eq] at hwritable
    omega
  have hback : decodeFrom t ((writtenText s).map Char.toNat).length 0
      ((writtenText s).map Char.toNat) = .ok s.toList := by
    refine decodeFrom_flatMap_written t ?_ 0
    rw [List.length_map]
    exact length_le_flatMap_written s.toList
  show (decodeFrom t _ 0 _).map String.ofList = _
  rw [bytesOf_ascii hascii, hback]
  exact congrArg Except.ok s.ofList_toList

end Text.Escape

/-! ## Revealing a literal -/

open Reader (Derives)
open Grammar (rule pass list)
open Text.Escape

/-- A literal ends at the first quote. -/
theorem Fragment.Checked.separates_quoted {f : Fragment} (hf : f.Checked) {body : List Char}
    (hbody : '"' ∉ body) (v : List Char) : f.Separates ⟨.quoted, '"' :: body ++ ['"']⟩ v := by
  intro state hs hexp
  have hquoted : Terminal.quoted ∈ Terminal.trialOrder ∧ Terminal.quoted.isSkipped = false := by
    decide
  have hsplit : Pattern.quoted.split ('"' :: body ++ ['"'] ++ v) = some ('"' :: body ++ ['"'], v) :=
    Pattern.split_quoted_eq_some.mpr ⟨body, rfl, rfl, hbody⟩
  refine hf.startsWith (l := ⟨.quoted, '"' :: body ++ ['"']⟩) hs (.of_nil rfl) hexp hsplit
    (fun s hmem hlt => ?_) hquoted
  show s.pattern.split ('"' :: (body ++ ['"'] ++ v)) = none
  cases hother : s.pattern.split ('"' :: (body ++ ['"'] ++ v)) with
  | none => rfl
  | some pair =>
    rcases Terminal.eq_of_split_quote hother with rfl | rfl
    · exact absurd hlt (Nat.lt_irrefl _)
    · exact absurd hlt (by decide : ¬Terminal.quote.code < Terminal.quoted.code)

/-- The program that reveals a literal, cut into its tokens. -/
def literalCut (body : List Char) : Cut :=
  .cons ⟨[], ⟨.reveal, "reveal".toList⟩⟩ (.cons ⟨[' '], ⟨.quoted, '"' :: body ++ ['"']⟩⟩
    (.cons ⟨[], ⟨.semicolon, [';']⟩⟩ (.tail [])))

def literalProgram (body : List Char) : Tree :=
  .form .start [revelation (.leaf .quoted (String.ofList ('"' :: body ++ ['"'])))]

/-- A part of a program that reveals literals, derived from its tokens. -/
abbrev DerivesLiteral (n : Nonterminal) (t : Tree) (ls : List Lexeme) : Prop :=
  Derives literalPrograms.productions [.nonterminal n] [.tree t] ls

theorem DerivesLiteral.pass {n n' : Nonterminal} {t : Tree} {ls : List Lexeme}
    (h : DerivesLiteral n' t ls) (hp : Grammar.pass n [.part n'] ∈ Grammar.productions)
    (hhas : literalPrograms.hasProduction (Grammar.pass n [.part n']) = true) :
    DerivesLiteral n t ls :=
  .closed (Fragment.mem_productions hp hhas) h

/-- The program that reveals a literal is derived. -/
theorem derives_literal (body : List Char) :
    DerivesLiteral .start (literalProgram body) (literalCut body).lexemes := by
  have hprimary : DerivesLiteral .primary (.leaf .quoted (String.ofList ('"' :: body ++ ['"'])))
      [⟨.quoted, '"' :: body ++ ['"']⟩] :=
    .closed (Fragment.mem_productions (by decide) (by decide) : pass .primary [.kept .quoted] ∈ _)
      (.single ⟨.quoted, '"' :: body ++ ['"']⟩)
  have hsum : DerivesLiteral .sumExpr _ _ :=
    (((hprimary.pass (n := .powerExpr) (by decide) (by decide)).pass (n := .unaryExpr) (by decide)
      (by decide)).pass (n := .productExpr) (by decide) (by decide)).pass (by decide) (by decide)
  have hexpression : DerivesLiteral .expression _ _ :=
    (((hsum.pass (n := .compareExpr) (by decide) (by decide)).pass (n := .bothExpr) (by decide)
      (by decide)).pass (n := .eitherExpr) (by decide) (by decide)).pass (by decide) (by decide)
  have hreveal : DerivesLiteral .reveal _ _ :=
    .closed (Fragment.mem_productions (by decide) (by decide) :
      rule .reveal .reveal [.kept .reveal, .part .expression] ∈ _)
      (.token ⟨.reveal, "reveal".toList⟩ hexpression)
  have hinstruction : DerivesLiteral .instruction _ _ :=
    .closed (Fragment.mem_productions (by decide) (by decide) :
      pass .instruction [.part .reveal, .dropped .semicolon] ∈ _)
      (hreveal.append (.single ⟨.semicolon, [';']⟩))
  have hinstructions : Derives literalPrograms.productions [.nonterminal .instructions] _ _ :=
    .closed (Fragment.mem_productions (by decide) (by decide) :
      list .instructions [.part .instruction] ∈ _) hinstruction
  exact .closed (Fragment.mem_productions (by decide) (by decide) :
    rule .start .start [.part .instructions] ∈ _) hinstructions

/-- A literal without a quote inside is read. -/
theorem reads_literalCut {body : List Char} (hbody : '"' ∉ body) :
    Reader.Reads [] (literalCut body) (literalProgram body) := by
  refine literalPrograms_checked.reads (derives_literal body) ?_
  exact .cons .nil (literalPrograms_checked.separates_sign (.of_nil rfl) (by decide) (.cons rfl))
    (.cons (.blank rfl .nil) (literalPrograms_checked.separates_quoted hbody _)
      (.cons .nil (literalPrograms_checked.separates_mark (by decide)) (.tail (.layout .nil))))

/-- The text of a program that reveals a literal. -/
def literalSource (s : String) : String := "reveal \"" ++ String.ofList (writtenText s) ++ "\";"

/-- The program that reveals a written text is read. -/
theorem read_literal (s : String) :
    Tree.read (literalSource s) = .ok (literalProgram (writtenText s)) := by
  have hquote : '"' ∉ writtenText s := fun h => by cases isWritable_writtenText h
  have hbreak : '\r' ∉ (literalCut (writtenText s)).text := by
    have hbody : '\r' ∉ writtenText s := fun h => by cases isWritable_writtenText h
    simp [literalCut, Cut.text, hbody]
  have htext : literalSource s = String.ofList (literalCut (writtenText s)).text := by
    apply String.toList_injective
    simp [literalSource, literalCut, Cut.text]
  rw [htext, Tree.read, String.toList_ofList, plainBreaks_of_not_mem hbreak]
  exact Reader.read_of_reads (reads_literalCut hquote)

/-- A literal means what stands between its quotes, with the escapes read. -/
theorem meaning_quoted (body : List Char) (n : Nat) :
    (Tree.leaf .quoted (String.ofList ('"' :: body ++ ['"']))).meaning (n + 1) =
      (liftM (literalText (String.ofList body)) : Spell Datum) := by
  have hbetween : betweenQuotes (String.ofList ('"' :: body ++ ['"'])) = String.ofList body := by
    simp [betweenQuotes]
  show (liftM (literalText (betweenQuotes (String.ofList ('"' :: body ++ ['"'])))) : Spell Datum) =
    _
  rw [hbetween]

/-- A written text means the text. -/
theorem meaning_literal (s : String) (n : Nat) (m : Machine) :
    (Tree.leaf .quoted (String.ofList ('"' :: writtenText s ++ ['"']))).meaning (n + 1) m =
      (.done (.rune (.text s)), m) := by
  rw [meaning_quoted, literalText, decode_writtenText]
  rfl

/-- **Every text can be written as a literal.** A program that reveals it is read, and reveals just
that text. -/
theorem literal_reveals_text (s input : String) (draws : List Float) :
    (Machine.fresh input draws).perform (literalSource s) =
      (.ended (.done .nothing), { Machine.fresh input draws with output := s }) := by
  obtain ⟨n, hn⟩ : ∃ n, endurance = n + 3 :=
    ⟨endurance - 3, (Nat.sub_add_cancel (by decide)).symm⟩
  have hreveal := meaning_revelation (meaning_literal s n (Machine.fresh input draws)) rfl
  have hrun : (literalProgram (writtenText s)).meaning (n + 3) (Machine.fresh input draws) =
      (.done .nothing, { Machine.fresh input draws with output := s }) := by
    show runEach (Tree.meaning (n + 2)) [revelation _] (Machine.fresh input draws) = _
    rw [runEach, Spell.bind_of_done hreveal]
    exact congrArg (fun output => (_, { Machine.fresh input draws with output }))
      String.empty_append
  rw [Machine.perform_of_read (read_literal s), Machine.run, hn, hrun]

end Spellbook
