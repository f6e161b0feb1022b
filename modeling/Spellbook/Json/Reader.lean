import Spellbook.Json.Value
import Spellbook.Number.Numeral

/-!
# Reading JSON

A text is read from the left, blanks around values being skipped. Reading stops at the first place
that no value can continue, and the refusal says what was expected and where. `NaN` and `Infinity`
are numbers here, since the writer has words for them.
-/

namespace Spellbook
namespace JsonValue

/-! ### Refusals -/

/-- What was wrong where reading stopped. -/
inductive Expected where
  | value
  | name
  | colon
  | comma
  | nothingMore
  | closingQuote
  | plainChar
  | escape
  | unitDigits
  | noMark
  deriving DecidableEq, Repr

/-- A refused text: the cause, and what was still to be read at the place of the fault. -/
structure Refusal where
  expected : Expected
  rest : List Char

/-! ### Blanks, numbers and texts -/

/-- Whether a character is skipped between values. -/
def isBlank (c : Char) : Bool := c == ' ' || c == '\t' || c == '\n' || c == '\r'

/-- What follows the blanks. -/
def skip (cs : List Char) : List Char := cs.dropWhile isBlank

def isDigit (c : Char) : Bool := '0' ≤ c && c ≤ '9'

/-- The digits of a whole number: a zero alone, or digits that start with another one. -/
def wholeDigits : List Char → List Char × List Char
  | '0' :: cs => (['0'], cs)
  | cs => (cs.takeWhile isDigit, cs.dropWhile isDigit)

/-- The decimals of a number, with their point. -/
def decimals : List Char → List Char × List Char
  | '.' :: c :: cs =>
    if isDigit c then ('.' :: c :: cs.takeWhile isDigit, cs.dropWhile isDigit)
      else ([], '.' :: c :: cs)
  | cs => ([], cs)

/-- The exponent of a number, with its letter. -/
def exponent (cs : List Char) : List Char × List Char :=
  match cs with
  | e :: rest =>
    if e == 'e' || e == 'E' then
      let sign := rest.takeWhile fun c => c == '+' || c == '-'
      let digits := rest.drop sign.length
      if sign.length ≤ 1 && (digits.head?.map isDigit).getD false then
        (e :: sign ++ digits.takeWhile isDigit, digits.dropWhile isDigit)
      else ([], cs)
    else ([], cs)
  | [] => ([], cs)

def number? (negative : Bool) (cs : List Char) : Option (JsonValue × List Char) :=
  let (whole, rest) := wholeDigits cs
  if whole.isEmpty then none
  else
    let (fraction, rest) := decimals rest
    let (power, rest) := exponent rest
    if fraction.isEmpty && power.isEmpty then
      let n : Int := Numeral.natOfDigits whole
      some (.int (if negative then -n else n), rest)
    else (Numeral.readDigits? negative (whole ++ fraction ++ power)).map fun x => (.float x, rest)

/-- What an escape of one letter stands for. -/
def plainEscape? : Char → Option Char
  | '"' => some '"'
  | '\\' => some '\\'
  | '/' => some '/'
  | 'b' => some (Char.ofNat 8)
  | 'f' => some (Char.ofNat 12)
  | 'n' => some '\n'
  | 'r' => some '\r'
  | 't' => some '\t'
  | _ => none

/-- The value of a digit to the base sixteen. -/
def hexDigit? (c : Char) : Option Nat :=
  if isDigit c then some (c.toNat - 48)
  else if 'a' ≤ c && c ≤ 'f' then some (c.toNat - 87)
  else if 'A' ≤ c && c ≤ 'F' then some (c.toNat - 55)
  else none

/-- The UTF-16 unit of four digits. -/
def unit? (a b c d : Char) : Option Nat := do
  return (((← hexDigit? a) * 16 + (← hexDigit? b)) * 16 + (← hexDigit? c)) * 16 + (← hexDigit? d)

/-- The units of a text up to its closing quote; a character that was written as itself counts as
one unit. `whole` is the text from its opening quote on. -/
def units (whole : List Char) : List Char → Except Refusal (List Nat × List Char)
  | [] => .error ⟨.closingQuote, whole⟩
  | '"' :: cs => .ok ([], cs)
  | '\\' :: 'u' :: a :: b :: c :: d :: cs =>
    match unit? a b c d with
    | some n => do
      let (ns, rest) ← units whole cs
      .ok (n :: ns, rest)
    | none => .error ⟨.unitDigits, 'u' :: a :: b :: c :: d :: cs⟩
  | '\\' :: 'u' :: cs => .error ⟨.unitDigits, 'u' :: cs⟩
  | ['\\'] => .error ⟨.closingQuote, whole⟩
  | '\\' :: c :: cs =>
    match plainEscape? c with
    | some e => do
      let (ns, rest) ← units whole cs
      .ok (e.toNat :: ns, rest)
    | none => .error ⟨.escape, '\\' :: c :: cs⟩
  | c :: cs =>
    if c.toNat < 32 then .error ⟨.plainChar, c :: cs⟩
    else do
      let (ns, rest) ← units whole cs
      .ok (c.toNat :: ns, rest)

def opensPair (n : Nat) : Bool := 0xd800 ≤ n && n < 0xdc00

def closesPair (n : Nat) : Bool := 0xdc00 ≤ n && n < 0xe000

/-- The character of a unit that is not part of a pair. -/
def loneUnit (n : Nat) : Char :=
  if opensPair n || closesPair n then Char.ofNat 0xfffd else Char.ofNat n

def charsOfUnits : List Nat → List Char
  | [] => []
  | [n] => [loneUnit n]
  | n :: k :: rest =>
    if opensPair n && closesPair k then
      Char.ofNat (0x10000 + (n - 0xd800) * 0x400 + (k - 0xdc00)) :: charsOfUnits rest
    else loneUnit n :: charsOfUnits (k :: rest)

def quotedText (cs : List Char) : Except Refusal (String × List Char) := do
  let (ns, rest) ← units cs cs.tail
  .ok (String.ofList (charsOfUnits ns), rest)

/-! ### Values -/

/-- What follows a word, if the text starts with it. -/
def afterWord? (word : String) (cs : List Char) : Option (List Char) :=
  if word.toList.isPrefixOf cs then some (cs.drop word.length) else none

def words : List (String × JsonValue) :=
  [("null", .null), ("true", .truth true), ("false", .truth false), ("NaN", .float notANumber),
   ("Infinity", .float (infinity false)), ("-Infinity", .float (infinity true))]

/-- A value that is one word or one number. -/
def simple (cs : List Char) : Except Refusal (JsonValue × List Char) :=
  match words.findSome? fun (w, v) => (afterWord? w cs).map fun rest => (v, rest) with
  | some r => .ok r
  | none =>
    let found := match cs with
      | '-' :: rest => number? true rest
      | _ => number? false cs
    match found with
    | some r => .ok r
    | none => .error ⟨.value, cs⟩

mutual

/-- A value at the start of a text. The fuel bounds the number of values and fields. -/
def valueFrom : Nat → List Char → Except Refusal (JsonValue × List Char)
  | 0, cs => .error ⟨.value, cs⟩
  | fuel + 1, cs =>
    match cs with
    | '"' :: _ => do
      let (s, rest) ← quotedText cs
      .ok (.text s, rest)
    | '[' :: rest =>
      match skip rest with
      | ']' :: rest => .ok (.list [], rest)
      | rest => do
        let (items, rest) ← itemsFrom fuel rest
        .ok (.list items, rest)
    | '\x7b' :: rest =>
      match skip rest with
      | '\x7d' :: rest => .ok (.object [], rest)
      | rest => do
        let (fields, rest) ← fieldsFrom fuel [] rest
        .ok (.object fields, rest)
    | _ => simple cs

def itemsFrom : Nat → List Char → Except Refusal (List JsonValue × List Char)
  | 0, cs => .error ⟨.value, cs⟩
  | fuel + 1, cs => do
    let (v, rest) ← valueFrom fuel cs
    match skip rest with
    | ']' :: rest => .ok ([v], rest)
    | ',' :: rest => do
      let (vs, rest) ← itemsFrom fuel (skip rest)
      .ok (v :: vs, rest)
    | rest => .error ⟨.comma, rest⟩

/-- The fields of an object up to its closing brace, put after those already read; a repeated name
keeps its place and takes the later value. -/
def fieldsFrom : Nat → List (String × JsonValue) → List Char →
    Except Refusal (List (String × JsonValue) × List Char)
  | 0, _, cs => .error ⟨.name, cs⟩
  | fuel + 1, before, cs =>
    match cs with
    | '"' :: _ => do
      let (name, rest) ← quotedText cs
      match skip rest with
      | ':' :: rest => do
        let (v, rest) ← valueFrom fuel (skip rest)
        let fields := setField name v before
        match skip rest with
        | '\x7d' :: rest => .ok (fields, rest)
        | ',' :: rest => fieldsFrom fuel fields (skip rest)
        | rest => .error ⟨.comma, rest⟩
      | rest => .error ⟨.colon, rest⟩
    | _ => .error ⟨.name, cs⟩

end

def readChars (cs : List Char) : Except Refusal JsonValue :=
  if cs.head? = some (Char.ofNat 0xfeff) then .error ⟨.noMark, cs⟩
  else do
    let (v, rest) ← valueFrom (cs.length + 1) (skip cs)
    match skip rest with
    | [] => .ok v
    | rest => .error ⟨.nothingMore, rest⟩

/-! ### Messages -/

def Expected.words : Expected → String
  | .value => "Expecting value"
  | .name => "Expecting property name enclosed in double quotes"
  | .colon => "Expecting ':' delimiter"
  | .comma => "Expecting ',' delimiter"
  | .nothingMore => "Extra data"
  | .closingQuote => "Unterminated string starting at"
  | .plainChar => "Invalid control character at"
  | .escape => "Invalid \\escape"
  | .unitDigits => "Invalid \\uXXXX escape"
  | .noMark => "Unexpected UTF-8 BOM (decode using utf-8-sig)"

/-- What a refusal of a text says: the cause, then line, column and number of the character. -/
def Refusal.message (r : Refusal) (whole : List Char) : String :=
  let before := whole.take (whole.length - r.rest.length)
  let line := before.count '\n' + 1
  let column := (before.reverse.takeWhile (· != '\n')).length + 1
  r.expected.words ++ ": line " ++ Decimal.natText line ++ " column " ++ Decimal.natText column ++
    " (char " ++ Decimal.natText before.length ++ ")"

/-- Reads a text; a refusal is given by its message. -/
def read (s : String) : Except String JsonValue :=
  (readChars s.toList).mapError fun r => r.message s.toList

end JsonValue
end Spellbook
