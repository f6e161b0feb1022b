import Spellbook.Bench.Sample
import Spellbook.Number.Numeral
import Spellbook.Sha256

/-!
# Fingerprints

A fingerprint is the digest of a walk through a value. The walk writes floats with six digits, so
that rounding noise does not show, and takes the entries of dictionaries and sets in the order of
their own fingerprints, so that the order of iteration does not show. It looks at the first items
of a long list and does not go below a certain depth.
-/

namespace Spellbook

/-- The float nearest to `x` written with the given number of digits. -/
def floatWithDigits (x : Float) (count : Nat) : Float :=
  match FloatView.of x with
  | .finite d =>
    if d.mantissa = 0 then x
    else
      let (num, den) := d.fraction
      let e : Int := count - Decimal.decimalOrder num den
      let (n, k) := Decimal.scaleByTen num den e
      Numeral.floatOfDecimal d.negative (divRound n k) (-e)
  | _ => x

namespace Sample

def bytesOfText (s : String) : List UInt8 := s.toUTF8.toList

def bytesOfNats (bs : List Nat) : List UInt8 := bs.map Nat.toUInt8

/-- The deepest level that is walked. -/
def depthLimit : Nat := 8

/-- The number of items of a list that are walked. -/
def itemLimit : Nat := 1000

def floatDigits : Nat := 6

def floatBytes (x : Float) : List UInt8 := bytesOfText (floatText (floatWithDigits x floatDigits))

/-- A letter for the kind of a container and the number of its items. -/
def header (letter : String) (count : Nat) : List UInt8 :=
  bytesOfText (letter ++ Decimal.natText count)

/-- Puts entries into the order of their keys; entries with one key keep their order. -/
def inKeyOrder {α : Type} (entries : List (String × α)) : List (String × α) :=
  entries.mergeSort fun a b => !(decide (b.1 < a.1))

def sorted (prints : List String) : List String := prints.mergeSort fun a b => !(decide (b < a))

/-- The items at some places of a list, without the places that it does not have. -/
def pick {α : Type} (places : List Nat) (items : List α) : List α := places.filterMap (items[·]?)

/-- What is written for a value without parts. -/
def leafBytes : Sample → List UInt8
  | .nothing => bytesOfText "None"
  | .truth b => bytesOfText (truthWord b)
  | .int n => bytesOfText (intDigits n)
  | .float x => floatBytes x
  | .text s => bytesOfText ("s" ++ s)
  | .bytes bs => bytesOfText "b" ++ bytesOfNats bs
  | .byteArray bs => bytesOfText "b" ++ bytesOfNats bs
  | .complex re im => bytesOfText "c" ++ floatBytes re ++ floatBytes im
  | .opaqueObject => bytesOfText "Obuiltins.object"
  | .array dtype shape content =>
    bytesOfText ("A" ++ dtype ++ shapeText shape) ++ bytesOfNats content
  | v => bytesOfText v.shown

/-- What is written for a record, given the names of its fields and what is written for these. -/
def recordBytes (names : List String) (fields : List (List UInt8)) : List UInt8 :=
  let entries := List.zipWith (fun name field =>
    let name := bytesOfText ("s" ++ name)
    (Sha256.digest name, name ++ field)) names fields
  bytesOfText "ORecord" ++ header "D" names.length ++ (inKeyOrder entries).flatMap (·.2)

/-- How a walk is written down. A container is written from what is written for its parts. -/
structure Style where
  digest : List UInt8 → String := Sha256.digest
  /-- what stands for everything below the deepest level -/
  cap : List UInt8 := bytesOfText "..."
  leaf : Sample → List UInt8 := leafBytes
  /-- the places of a list of a given length that are walked -/
  places : Nat → List Nat := fun n => List.range (min n itemLimit)
  /-- a list or a tuple of a given length, from the items that are walked -/
  sequence : (isTuple : Bool) → Nat → List (List UInt8) → List UInt8 :=
    fun _ n items => header "L" n ++ items.flatten
  /-- a set of a given size, from the sorted fingerprints of its elements -/
  collection : (isFrozen : Bool) → Nat → List String → List UInt8 :=
    fun _ n prints => header "S" n ++ bytesOfText (String.join prints)
  /-- a dictionary, from its keys and values in the order of the fingerprints of the keys -/
  mapping : List (List UInt8 × List UInt8) → List UInt8 :=
    fun entries => header "D" entries.length ++ entries.flatMap fun e => e.1 ++ e.2
  record : List String → List (List UInt8) → List UInt8 := recordBytes
  /-- how many levels more than the items of a list the fields of a record lie below it -/
  recordGap : Nat := 0

section
variable (style : Style)

mutual

/-- The bytes that a walk writes for a value at a depth. -/
def walk (depth : Nat) (v : Sample) : List UInt8 :=
  if depthLimit < depth then style.cap
  else match v with
    | .list items =>
      style.sequence false items.length (pick (style.places items.length) (walks (depth + 1) items))
    | .tuple items =>
      style.sequence true items.length (pick (style.places items.length) (walks (depth + 1) items))
    | .set items =>
      style.collection false items.length (sorted ((walks (depth + 1) items).map style.digest))
    | .frozenSet items =>
      style.collection true items.length (sorted ((walks (depth + 1) items).map style.digest))
    | .dict entries => style.mapping ((inKeyOrder (entryWalks (depth + 1) entries)).map (·.2))
    | .record fields =>
      style.record (fields.map (·.1)) (fieldWalks (depth + 1 + style.recordGap) fields)
    | v => style.leaf v

/-- The bytes of each item. -/
def walks (depth : Nat) : List Sample → List (List UInt8)
  | [] => []
  | v :: rest => walk depth v :: walks depth rest

/-- The bytes of each key and value under the fingerprint of the key. -/
def entryWalks (depth : Nat) : List (Sample × Sample) → List (String × List UInt8 × List UInt8)
  | [] => []
  | (k, v) :: rest =>
    (style.digest (walk depth k), walk depth k, walk depth v) :: entryWalks depth rest

def fieldWalks (depth : Nat) : List (String × Sample) → List (List UInt8)
  | [] => []
  | (_, v) :: rest => walk depth v :: fieldWalks depth rest

end

def fingerprintAt (depth : Nat) (v : Sample) : String := style.digest (v.walk style depth)

end

def fingerprint (v : Sample) : String := v.fingerprintAt {} 0

end Sample
end Spellbook
