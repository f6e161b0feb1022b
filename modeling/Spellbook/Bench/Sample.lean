import Spellbook.Number.Shortest
import Spellbook.Text.Quoted

/-!
# What a benchmark returns

A benchmark may return any value of its host: plain values, containers, dates, exact numbers and
arrays. This module says what kind each is and how it is shown, both alone and inside a container.
-/

namespace Spellbook

/-- A value that a benchmark returns or takes. -/
inductive Sample where
  | nothing
  | truth (b : Bool)
  | int (n : Int)
  | float (x : Float)
  | text (s : String)
  | bytes (bs : List Nat)
  | byteArray (bs : List Nat)
  | complex (re im : Float)
  | list (items : List Sample)
  | tuple (items : List Sample)
  | set (items : List Sample)
  | frozenSet (items : List Sample)
  | dict (entries : List (Sample × Sample))
  | date (year month day : Nat)
  | span (microseconds : Int)
  | decimal (numeral : String)
  | fraction (num : Int) (den : Nat)
  | path (s : String)
  | uuid (digits : String)
  | record (fields : List (String × Sample))
  | opaqueObject
  | array (dtype : String) (shape : List Nat) (content : List Nat)
  deriving Inhabited

namespace Sample

def kindName : Sample → String
  | .nothing => "NoneType"
  | .truth _ => "bool"
  | .int _ => "int"
  | .float _ => "float"
  | .text _ => "str"
  | .bytes _ => "bytes"
  | .byteArray _ => "bytearray"
  | .complex _ _ => "complex"
  | .list _ => "list"
  | .tuple _ => "tuple"
  | .set _ => "set"
  | .frozenSet _ => "frozenset"
  | .dict _ => "dict"
  | .date _ _ _ => "date"
  | .span _ => "timedelta"
  | .decimal _ => "Decimal"
  | .fraction _ _ => "Fraction"
  | .path _ => "PurePosixPath"
  | .uuid _ => "UUID"
  | .record _ => "Record"
  | .opaqueObject => "object"
  | .array _ _ _ => "ndarray"

def intDigits (n : Int) : String := signText (n < 0) ++ Decimal.natText n.natAbs

def truthWord (b : Bool) : String := if b then "True" else "False"

/-! ### Bytes and complex numbers -/

def shownByte (quote : Char) (b : Nat) : List Char :=
  let c := Char.ofNat b
  if c == quote || c == '\\' then ['\\', c]
  else if c == '\t' then ['\\', 't']
  else if c == '\n' then ['\\', 'n']
  else if c == '\r' then ['\\', 'r']
  else if 32 ≤ b && b < 127 then [c]
  else '\\' :: 'x' :: Text.hexText 2 b

def shownBytes (bs : List Nat) : String :=
  let quote := Text.quoteFor (bs.map Char.ofNat)
  String.ofList ('b' :: quote :: bs.flatMap (shownByte quote) ++ [quote])

/-- A float without the decimals of a whole number. -/
def bareFloat (x : Float) : String :=
  let s := floatText x
  if s.endsWith ".0" then String.ofList (s.toList.take (s.length - 2)) else s

/-- A complex number: the real part is left out if it is zero. -/
def shownComplex (re im : Float) : String :=
  if re.toBits == 0 then bareFloat im ++ "j"
  else
    let s := bareFloat im
    "(" ++ bareFloat re ++ (if s.startsWith "-" then "" else "+") ++ s ++ "j)"

/-! ### Dates and spans of time -/

def twoDigits (n : Nat) : String := Decimal.padLeft 2 (Decimal.natText n)

/-- Days, seconds and microseconds of a span; only the days may be negative. -/
def spanParts (microseconds : Int) : Int × Nat × Nat :=
  let day : Int := 86400000000
  let within := (microseconds.emod day).toNat
  (microseconds.ediv day, within / 1000000, within % 1000000)

def shownSpan (microseconds : Int) : String :=
  let (days, seconds, rest) := spanParts microseconds
  let parts :=
    (if days = 0 then [] else ["days=" ++ intDigits days]) ++
    (if seconds = 0 then [] else ["seconds=" ++ Decimal.natText seconds]) ++
    (if rest = 0 then [] else ["microseconds=" ++ Decimal.natText rest])
  "datetime.timedelta(" ++ (if parts.isEmpty then "0" else String.intercalate ", " parts) ++ ")"

/-- A span as it is shown alone. -/
def spanText (microseconds : Int) : String :=
  let (days, seconds, rest) := spanParts microseconds
  (if days = 0 then ""
   else intDigits days ++ (if days.natAbs = 1 then " day, " else " days, ")) ++
    Decimal.natText (seconds / 3600) ++ ":" ++ twoDigits (seconds / 60 % 60) ++ ":" ++
      twoDigits (seconds % 60) ++
    (if rest = 0 then "" else "." ++ Decimal.padLeft 6 (Decimal.natText rest))

/-- The digits of an identifier in groups. -/
def uuidText (digits : String) : String :=
  let cs := digits.toList
  let group (start size : Nat) : String := String.ofList ((cs.drop start).take size)
  String.intercalate "-" [group 0 8, group 8 4, group 12 4, group 16 4, group 20 12]

def shapeText (shape : List Nat) : String :=
  match shape with
  | [n] => "(" ++ Decimal.natText n ++ ",)"
  | ns => "(" ++ String.intercalate ", " (ns.map Decimal.natText) ++ ")"

/-! ### Exact numbers and arrays -/

/-- The fraction of two whole numbers in lowest terms. -/
def ofQuotient (num : Int) (den : Nat) : Sample :=
  let g := Nat.gcd num.natAbs den
  .fraction (num / (g : Int)) (den / g)

/-- The low bytes of a number, the lowest first. -/
def littleEndian : Nat → Nat → List Nat
  | 0, _ => []
  | count + 1, n => n % 256 :: littleEndian count (n / 256)

/-- A number as an element of an array whose type is given by a letter and a number of bytes. -/
def elementBytes (letter : Char) (size : Nat) (v : Sample) : List Nat :=
  let float : Float := match v with
    | .float x => x
    | .int n => (floatOfInt? n).getD 0.0
    | _ => 0.0
  let whole : Int := match v with
    | .int n => n
    | .truth b => if b then 1 else 0
    | _ => 0
  match letter with
  | 'f' => littleEndian size (if size = 4 then float.toFloat32.toBits.toNat else float.toBits.toNat)
  | _ => littleEndian size (whole.emod (Nat.pow 256 size)).toNat

/-- The array of some elements in one row after another. -/
def ofElements (dtype : String) (shape : List Nat) (elements : List Sample) : Sample :=
  let letter := (dtype.toList[1]?).getD 'i'
  let size := (((dtype.toList.drop 2).map fun c => c.toNat - 48).foldl (fun n d => n * 10 + d) 0)
  .array dtype shape (elements.flatMap (elementBytes letter size))

/-! ### Values -/

/-- Items between brackets; a single item of a tuple is followed by a comma. -/
def bracketed (opening closing : String) (items : List String) : String :=
  opening ++ String.intercalate ", " items ++ closing

mutual

/-- How a value is shown inside a container. -/
def shown : Sample → String
  | .nothing => "None"
  | .truth b => truthWord b
  | .int n => intDigits n
  | .float x => floatText x
  | .text s => Text.quoted s
  | .bytes bs => shownBytes bs
  | .byteArray bs => "bytearray(" ++ shownBytes bs ++ ")"
  | .complex re im => shownComplex re im
  | .list items => bracketed "[" "]" (shownItems items)
  | .tuple items => bracketed "(" (if items.length = 1 then ",)" else ")") (shownItems items)
  | .set items => if items.isEmpty then "set()" else bracketed "\x7b" "\x7d" (shownItems items)
  | .frozenSet items =>
    if items.isEmpty then "frozenset()" else bracketed "frozenset(\x7b" "\x7d)" (shownItems items)
  | .dict entries => bracketed "\x7b" "\x7d" (shownEntries entries)
  | .date y m d =>
    "datetime.date(" ++ String.intercalate ", " [Decimal.natText y, Decimal.natText m,
      Decimal.natText d] ++ ")"
  | .span us => shownSpan us
  | .decimal s => "Decimal('" ++ s ++ "')"
  | .fraction n d => "Fraction(" ++ intDigits n ++ ", " ++ Decimal.natText d ++ ")"
  | .path s => "PurePosixPath(" ++ Text.quoted s ++ ")"
  | .uuid ds => "UUID('" ++ uuidText ds ++ "')"
  | .record fields => bracketed "Record(" ")" (shownFields fields)
  | .opaqueObject => "<object object>"
  | .array dtype shape _ => "array(" ++ dtype ++ ", " ++ shapeText shape ++ ")"

def shownItems : List Sample → List String
  | [] => []
  | v :: rest => v.shown :: shownItems rest

def shownEntries : List (Sample × Sample) → List String
  | [] => []
  | (k, v) :: rest => (k.shown ++ ": " ++ v.shown) :: shownEntries rest

def shownFields : List (String × Sample) → List String
  | [] => []
  | (k, v) :: rest => (k ++ "=" ++ v.shown) :: shownFields rest

end

/-- How a value is shown alone. -/
def display : Sample → String
  | .text s => s
  | .date y m d => Decimal.padLeft 4 (Decimal.natText y) ++ "-" ++ twoDigits m ++ "-" ++ twoDigits d
  | .span us => spanText us
  | .decimal s => s
  | .fraction n d => if d = 1 then intDigits n else intDigits n ++ "/" ++ Decimal.natText d
  | .path s => s
  | .uuid ds => uuidText ds
  | v => v.shown

end Sample
end Spellbook
