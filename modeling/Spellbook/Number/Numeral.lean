import Spellbook.Number.Shortest
import Spellbook.Text.Space

/-!
# Reading numerals

Texts that stand for numbers: spaces around, a sign, digits of any script, and single underscores
between digits. A float may have a point and an exponent, or be one of the words for infinity and
for what is not a number.
-/

namespace Spellbook
namespace Numeral

/-- A character as it counts in a numeral: digits of all scripts alike, and wide spaces as the
space; characters that no numeral has are `none`. -/
def plainChar? (c : Char) : Option Char :=
  if c.toNat < 127 then some c
  else if Text.isWideSpace c then some ' '
  else (Text.digitValue? c).map fun d => Char.ofNat (48 + d)

/-- A text as it counts in a numeral, without the spaces around it. -/
def plain? (s : String) : Option (List Char) :=
  (s.toList.mapM plainChar?).map (Text.trim Text.isNumeralSpace)

def isPlainDigit (c : Char) : Bool := '0' ≤ c && c ≤ '9'

/-- Whether every underscore stands between two digits; `prev` is the character before. -/
def barsBetweenDigits : Char → List Char → Bool
  | prev, [] => prev != '_'
  | prev, c :: cs =>
    (if c == '_' then isPlainDigit prev else prev != '_' || isPlainDigit c) &&
      barsBetweenDigits c cs

/-- The text without underscores, if each stands between two digits. -/
def withoutBars? (cs : List Char) : Option (List Char) :=
  if barsBetweenDigits ' ' cs then some (cs.filter (· != '_')) else none

def takeSign : List Char → Bool × List Char
  | '-' :: cs => (true, cs)
  | '+' :: cs => (false, cs)
  | cs => (false, cs)

def natOfDigits (cs : List Char) : Nat := cs.foldl (fun n c => n * 10 + (c.toNat - 48)) 0

/-! ### Whole numbers -/

/-- The most digits that a whole number may have where it becomes text or comes from text. -/
def digitLimit : Nat := 4300

/-- Why a text does not give a whole number. -/
inductive IntRefusal where
  | notNumeral
  | tooManyDigits (count : Nat)
  deriving DecidableEq, Repr

def readInt (s : String) : Except IntRefusal Int :=
  match (plain? s).map takeSign with
  | none => .error .notNumeral
  | some (negative, cs) =>
    match withoutBars? cs with
    | none => .error .notNumeral
    | some ds =>
      if ds.isEmpty || !ds.all isPlainDigit then .error .notNumeral
      else if digitLimit < ds.length then .error (.tooManyDigits ds.length)
      else .ok (if negative then -(natOfDigits ds) else natOfDigits ds)

/-- The text of a whole number, unless it has too many digits. -/
def intText? (n : Int) : Option String :=
  if Nat.pow 10 digitLimit ≤ n.natAbs then none
  else some (signText (n < 0) ++ Decimal.natText n.natAbs)

/-! ### Floats -/

/-- Beyond this many places a decimal is too large or too small for a float. -/
def placeLimit : Int := 400

/-- The float nearest to `± m · 10 ^ e`. -/
def floatOfDecimal (negative : Bool) (m : Nat) (e : Int) : Float :=
  let places := ((Decimal.natText m).length : Int) + e
  if m = 0 ∨ places < -placeLimit then nearestFloat negative 0 1
  else if placeLimit < places then infinity negative
  else
    let (n, d) := Decimal.scaleByTen m 1 e
    nearestFloat negative n d

def readExponent? : List Char → Option Int
  | [] => some 0
  | c :: cs =>
    if c == 'e' || c == 'E' then
      let (negative, ds) := takeSign cs
      if ds.isEmpty || !ds.all isPlainDigit then none
      else some (if negative then -(natOfDigits ds) else natOfDigits ds)
    else none

/-- Reads a float without a sign that is written in digits. -/
def readDigits? (negative : Bool) (cs : List Char) : Option Float :=
  let whole := cs.takeWhile isPlainDigit
  let rest := cs.dropWhile isPlainDigit
  let (fraction, rest) := match rest with
    | '.' :: rest => (rest.takeWhile isPlainDigit, rest.dropWhile isPlainDigit)
    | rest => ([], rest)
  if whole.isEmpty && fraction.isEmpty then none
  else (readExponent? rest).map fun e =>
    floatOfDecimal negative (natOfDigits (whole ++ fraction)) (e - fraction.length)

def readFloat? (s : String) : Option Float := do
  let (negative, cs) := takeSign (← plain? s)
  let cs ← withoutBars? cs
  let word := String.ofList (cs.map Char.toLower)
  if word == "inf" || word == "infinity" then return infinity negative
  if word == "nan" then return notANumber
  readDigits? negative cs

end Numeral
end Spellbook
