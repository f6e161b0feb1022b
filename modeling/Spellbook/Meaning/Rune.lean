import Spellbook.Meaning.Part
import Spellbook.Datum.Operators

/-!
# Statements on runes

Writing, assigning, dispelling, sealing and stepping runes.
-/

namespace Spellbook

/-! ### Calculations -/

/-- An operator, and how its result is rounded to a whole number, if it is. -/
structure Calculation where
  op : Value.Operator
  rounding : Option Rounding := none
  deriving DecidableEq, Repr

namespace Calculation

def apply (c : Calculation) (a b : Value) : Fallible Value := do
  let r ← (Datum.rune a).operate c.op (.rune b)
  match c.rounding with
  | none => r.toValue
  | some rounding => return .int (← (← r.content).rounded rounding)

/-- The calculations of a compound step. The one that takes a remainder and rounds it to the nearest
rounds it up instead, and there is none that takes a remainder and rounds it up. -/
def ofCompound? : String → Option Calculation
  | "+=" => some ⟨.plus, none⟩
  | "-=" => some ⟨.minus, none⟩
  | "*=" => some ⟨.times, none⟩
  | "/=" => some ⟨.divide, none⟩
  | "%=" => some ⟨.modulo, none⟩
  | "^=" => some ⟨.power, none⟩
  | "/+=" => some ⟨.plus, some .down⟩
  | "/-=" => some ⟨.minus, some .down⟩
  | "/*=" => some ⟨.times, some .down⟩
  | "//=" => some ⟨.floorDivide, none⟩
  | "/^=" => some ⟨.power, some .down⟩
  | "/%=" => some ⟨.modulo, some .down⟩
  | "^+=" => some ⟨.plus, some .up⟩
  | "^-=" => some ⟨.minus, some .up⟩
  | "^*=" => some ⟨.times, some .up⟩
  | "^/=" => some ⟨.divide, some .up⟩
  | "^^=" => some ⟨.power, some .up⟩
  | "~%=" => some ⟨.modulo, some .up⟩
  | "~+=" => some ⟨.plus, some .nearest⟩
  | "~-=" => some ⟨.minus, some .nearest⟩
  | "~*=" => some ⟨.times, some .nearest⟩
  | "~/=" => some ⟨.divide, some .nearest⟩
  | "~^=" => some ⟨.power, some .nearest⟩
  | _ => none

end Calculation

/-! ### Statements -/

/-- What an entry holds, as a datum. -/
def heldDatum : Option Value → Datum
  | some v => .rune v
  | none => .nothing

/-- Writes a rune. Its name is the part with the number `n`, and its value, if it has one, the part
after it. A rune that is written already is refused before the value is looked at. -/
def declareMeaning (isSealed : Bool) (n : Nat) (run : Run) (parts : List Tree) : Spell Datum := do
  let name ← runKey run parts n
  if (← Spell.find? name).isSome then Spell.fail (.alreadyWritten name)
  match parts[n + 1]? with
  | none | some .absent => Spell.write name (.fresh none isSealed)
  | some t =>
    let v ← (← run t).toValue
    Spell.write name (.fresh (some v) isSealed)
  return .nothing

/-- The entry of a rune after an assignment; only a value of the same kind becomes its past. -/
def Entry.assign (v : Value) (e : Entry) : Entry :=
  { e with
    past := if e.kind = some v.kind then e.value else none
    value := some v
    kind := some v.kind }

def assignMeaning (run : Run) (parts : List Tree) : Spell Datum := do
  let name ← runPart run parts 0
  let d ← runPart run parts 1
  let name ← keyOf name
  let _ ← Spell.changeable name
  let v ← d.toValue
  Spell.modify name (Entry.assign v)
  return .nothing

def dispelMeaning (run : Run) (parts : List Tree) : Spell Datum := do
  let name ← runKey run parts 1
  let _ ← Spell.written name
  Spell.dispel name
  return .nothing

def sealMeaning (run : Run) (parts : List Tree) : Spell Datum := do
  let name ← runKey run parts 1
  let _ ← Spell.changeable name
  Spell.modify name fun e => { e with isSealed := true }
  return .nothing

/-- The name of the kind that was noted for a rune. -/
def notedKind (e : Entry) : String :=
  match e.kind with
  | some k => k.name
  | none => "None"

def stepOf? : String → Option Value.Operator
  | "++" => some .plus
  | "--" => some .minus
  | _ => none

/-- Steps a rune by one. Neither its past nor its kind is noted anew. -/
def stepMeaning (run : Run) (parts : List Tree) : Spell Datum := do
  let name ← runKey run parts 0
  let _ ← Spell.changeable name
  let op ← runPart run parts 1
  let e ← Spell.known name
  let d := heldDatum e.value
  let isNumber ← d.isNumber
  if !isNumber then Spell.fail (.mismatchedStep (notedKind e) (← op.text))
  let op ← operatorText op
  match stepOf? op with
  | none => Spell.fail (.unknownSpell op)
  | some step =>
    let v ← (← d.operate step (.bare (.int 1))).toValue
    Spell.modify name fun e => { e with value := some v }
    return .nothing

/-- Changes a rune by a calculation. Its past is not noted anew. -/
def compoundMeaning (run : Run) (parts : List Tree) : Spell Datum := do
  let name ← runKey run parts 0
  let _ ← Spell.changeable name
  let op ← runPart run parts 1
  let other ← runPart run parts 2
  let e ← Spell.known name
  let d := heldDatum e.value
  let isNumber ← d.isNumber
  let kind ← other.kind
  if !isNumber || !kind.isNumber then
    Spell.fail (.mismatchedCompound (notedKind e) (← op.text) kind.name)
  let op ← operatorText op
  match Calculation.ofCompound? op with
  | none => Spell.fail (.unknownSpell op)
  | some c =>
    let v ← c.apply (← d.content) (← other.content)
    Spell.modify name fun e => { e with value := some v, kind := some v.kind }
    return .nothing

end Spellbook
