import Spellbook.Bench.Mishap
import Spellbook.Bench.Sample
import Spellbook.Json.Writer
import Spellbook.Number.Numeral

/-!
# Fields of reports

How the values in a report are asked for, shown and laid out, and which mishaps that brings when a
value is of an unexpected kind.
-/

namespace Spellbook
namespace JsonValue

/-- A number with a fixed number of decimals. -/
def fixed (v : JsonValue) (places : Nat) : Except Mishap String :=
  match v with
  | .float x => .ok (floatFixedText x places)
  | .int n => .ok (signText (n < 0) ++ fixedText n.natAbs 1 places)
  | .truth b => .ok (fixedText (if b then 1 else 0) 1 places)
  | v => .error (Mishap.notFormatted v)

mutual

def shown : JsonValue → String
  | .null => "None"
  | .truth b => Sample.truthWord b
  | .int n => intNumeral n
  | .float x => floatText x
  | .text s => Text.quoted s
  | .list items => Sample.bracketed "[" "]" (shownItems items)
  | .object fields => Sample.bracketed "\x7b" "\x7d" (shownFields fields)

def shownItems : List JsonValue → List String
  | [] => []
  | v :: rest => v.shown :: shownItems rest

def shownFields : List (String × JsonValue) → List String
  | [] => []
  | (k, v) :: rest => (Text.quoted k ++ ": " ++ v.shown) :: shownFields rest

end

/-- How a value is shown alone. -/
def display : JsonValue → String
  | .text s => s
  | v => v.shown

def need (v : JsonValue) (name : String) : Except Mishap JsonValue :=
  match v with
  | .object fields =>
    match lookup name fields with
    | some f => .ok f
    | none => .error (.noField name)
  | v => .error (.notIndexed v)

/-- A field, or what stands for it if it is not there. -/
def getOr (v : JsonValue) (name : String) (other : JsonValue) : Except Mishap JsonValue :=
  match v with
  | .object fields => .ok ((lookup name fields).getD other)
  | v => .error (.notObject v "get")

/-- An object under a name; what is missing or counts as nothing is the empty object. -/
def part (v : JsonValue) (name : String) : Except Mishap JsonValue := do
  let f ← v.getOr name .null
  return if f.isSomething then f else .object []

/-- The fields under a name, which has to be an object. -/
def entries (v : JsonValue) : Except Mishap (List (String × JsonValue)) :=
  match v with
  | .object fields => .ok fields
  | v => .error (.notObject v "items")

/-- The items of a list; what counts as nothing is the empty list. -/
def items (v : JsonValue) : List JsonValue :=
  match v with
  | .list vs => vs
  | _ => []

/-- The float that a value stands for; a text is read. -/
def toFloat (v : JsonValue) : Except Mishap Float :=
  match v with
  | .float x => .ok x
  | .truth b => .ok (if b then 1.0 else 0.0)
  | .int n =>
    match floatOfInt? n with
    | some x => .ok x
    | none => .error ⟨"OverflowError", "int too large to convert to float"⟩
  | .text s =>
    match Numeral.readFloat? s with
    | some x => .ok x
    | none => .error (.notFloat v)
  | v => .error (.notFloat v)

/-- The difference of two numbers, whole if both are. -/
def minus (a b : JsonValue) : Except Mishap JsonValue :=
  match a.int?, b.int? with
  | some m, some n => .ok (.int (m - n))
  | _, _ =>
    match a, b with
    | .text _, _ | .null, _ | .list _, _ | .object _, _ | _, .text _ | _, .null | _,
        .list _ | _, .object _ =>
      .error ⟨"TypeError", "unsupported operand type(s) for -: '" ++ a.kindName ++ "' and '" ++
        b.kindName ++ "'"⟩
    | _, _ => do return .float ((← a.toFloat) - (← b.toFloat))

/-- A number rounded to a fixed number of decimals; a whole number stays what it is. -/
def roundTo (places : Nat) : JsonValue → JsonValue
  | .float x => .float (floatRoundTo x places)
  | v => v

end JsonValue
end Spellbook
