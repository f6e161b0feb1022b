import Spellbook.Meaning.Rune
import Spellbook.Datum.Order

/-!
# Expressions

All operands are evaluated before an operator looks at any of them.
-/

namespace Spellbook

/-! ### Operators -/

def Calculation.ofSum? : String → Option Calculation
  | "+" => some ⟨.plus, none⟩
  | "/+" => some ⟨.plus, some .down⟩
  | "^+" => some ⟨.plus, some .up⟩
  | "~+" => some ⟨.plus, some .nearest⟩
  | "-" => some ⟨.minus, none⟩
  | "/-" => some ⟨.minus, some .down⟩
  | "^-" => some ⟨.minus, some .up⟩
  | "~-" => some ⟨.minus, some .nearest⟩
  | _ => none

def Calculation.ofProduct? : String → Option Calculation
  | "*" => some ⟨.times, none⟩
  | "/*" => some ⟨.times, some .down⟩
  | "^*" => some ⟨.times, some .up⟩
  | "~*" => some ⟨.times, some .nearest⟩
  | "/" => some ⟨.divide, none⟩
  | "//" => some ⟨.floorDivide, none⟩
  | "^/" => some ⟨.divide, some .up⟩
  | "~/" => some ⟨.divide, some .nearest⟩
  | "%" => some ⟨.modulo, none⟩
  | "/%" => some ⟨.modulo, some .down⟩
  | "^%" => some ⟨.modulo, some .up⟩
  | "~%" => some ⟨.modulo, some .nearest⟩
  | _ => none

/-- A sum or difference of two numbers. -/
def sumMeaning (run : Run) (parts : List Tree) : Spell Datum := do
  let (a, op, b) ← runThree run parts
  let a ← a.toValue
  let b ← b.toValue
  if !(a.kind.isNumber && b.kind.isNumber) then
    Spell.fail (.mismatchedSum a.kind.name b.kind.name)
  let op ← operatorText op
  match Calculation.ofSum? op with
  | none => Spell.fail (.unknownSpell op)
  | some c => return .rune (← c.apply a b)

def productMeaning (run : Run) (parts : List Tree) : Spell Datum := do
  let (a, op, b) ← runThree run parts
  let a ← a.toValue
  let b ← b.toValue
  let op ← operatorText op
  match Calculation.ofProduct? op with
  | none => Spell.fail (.notWrappable "exceptions.UnknownSpellError")
  | some c => return .rune (← c.apply a b)

def powerMeaning (run : Run) (parts : List Tree) : Spell Datum := do
  let a ← runPart run parts 0
  let b ← runPart run parts 1
  let a ← a.toValue
  let b ← b.toValue
  (Datum.rune a).operate .power (.rune b)

/-- Whether one of two values or both of them count as true. The right one is only asked if the
left one does not decide. -/
def eitherMeaning (run : Run) (parts : List Tree) : Spell Datum := do
  let a ← runPart run parts 0
  let b ← runPart run parts 2
  let a ← a.toValue
  let b ← b.toValue
  if ← a.runeTruth then return .rune (.truth true)
  return .rune (.truth (← b.runeTruth))

/-- Whether two values both count as true. The right one is only asked if the left one does not
decide. -/
def bothMeaning (run : Run) (parts : List Tree) : Spell Datum := do
  let a ← runPart run parts 0
  let b ← runPart run parts 2
  let a ← a.toValue
  let b ← b.toValue
  if ← a.runeTruth then return .rune (.truth (← b.runeTruth))
  return .rune (.truth false)

def comparisonMeaning (run : Run) (parts : List Tree) : Spell Datum := do
  let (a, op, b) ← runThree run parts
  let op ← operatorText op
  match Comparison.ofSymbol? op with
  | none => Spell.fail (.unknownSpell op)
  | some c => return .rune (.truth (← a.compare c b))

def groupMeaning (run : Run) (parts : List Tree) : Spell Datum := do
  return .rune (← runValue run parts 0)

def negativeMeaning (run : Run) (parts : List Tree) : Spell Datum := do
  let v ← runValue run parts 0
  (Datum.rune v).negate

/-- The rounding that an operator stands for. -/
def Rounding.ofText? : String → Option Rounding
  | "~" => some .nearest
  | "/" => some .down
  | "^" => some .up
  | _ => none

/-- A value rounded to a whole number. -/
def roundingMeaning (run : Run) (parts : List Tree) : Spell Datum := do
  let op ← runPart run parts 0
  let d ← runPart run parts 1
  let op ← operatorText op
  match Rounding.ofText? op with
  | none => Spell.fail (.unknownSpell op)
  | some r => return .rune (.int (← (← d.content).rounded r))

/-- Whether a value does not count as true. -/
def denialMeaning (run : Run) (parts : List Tree) : Spell Datum := do
  let v ← runValue run parts 1
  return .rune (.truth !(← v.runeTruth))

/-- The length of a datum. -/
def measureMeaning (run : Run) (parts : List Tree) (log : Nat → Fraction := logTen) : Spell Datum :=
  do
  let d ← runPart run parts 1
  return .rune (.int (← d.length log))

/-! ### Runes and their members -/

/-- A character of the text that a rune holds. -/
def indexMeaning (run : Run) (parts : List Tree) : Spell Datum := do
  let name ← runPart run parts 0
  let index ← runPart run parts 1
  let name ← keyOf name
  let e ← Spell.known name
  match heldDatum e.value with
  | .rune (.text s) =>
    return .rune (.text (← Datum.charAt s (.bare (← index.content))))
  | d =>
    let kind ← d.kind
    Spell.fail (.mismatchedIndex kind.name (← index.kind).name)

def nameMeaning (run : Run) (parts : List Tree) : Spell Datum := do
  return .word (← (← runPart run parts 0).text)

def runeMeaning (run : Run) (parts : List Tree) : Spell Datum := do
  let name ← (← runPart run parts 0).text
  let e ← Spell.written name
  match e.value with
  | some v => return .rune v
  | none => Spell.fail (.dormant name)

/-- The value that a rune had before. -/
def pastMeaning (run : Run) (parts : List Tree) : Spell Datum := do
  let name ← (← runPart run parts 0).text
  let e ← Spell.written name
  match e.past with
  | some v => return .rune v
  | none => Spell.fail (.noPast name)

/-- A value made one of another kind. Whatever goes wrong, the transmutation fails. -/
def transmuteMeaning (run : Run) (parts : List Tree) : Spell Datum := do
  let v ← runValue run parts 1
  let target ← (← runPart run parts 3).text
  match Datum.transmute v target with
  | .ok w => return .rune w
  | .error _ => Spell.fail (.cannotTransmute v.kind.name target)

/-! ### Speech -/

def revealMeaning (run : Run) (parts : List Tree) : Spell Datum := do
  let d ← runPart run parts 1
  Spell.reveal (← d.text)
  return .nothing

def listenMeaning : Spell Datum := do
  return .word (← Spell.listen)

def promptedListenMeaning (run : Run) (parts : List Tree) : Spell Datum := do
  let d ← runPart run parts 1
  Spell.reveal (← d.text)
  return .word (← Spell.listen)

def textsOf : List Datum → Fallible (List String)
  | [] => .ok []
  | d :: ds => do
    let s ← d.text
    let ss ← textsOf ds
    return s :: ss

/-- The parts of an interpolated text, joined after all have been evaluated. -/
def interpolationMeaning (run : Run) (parts : List Tree) : Spell Datum := do
  let ds ← runAll run (parts.drop 1).dropLast
  return .rune (.text (String.join (← textsOf ds)))

/-- A part of an interpolated text: prose, or an expression in braces. -/
def partMeaning (run : Run) (parts : List Tree) : Spell Datum := do
  match ← runAll run parts with
  | [.rune (.text s)] => return .rune (.text s)
  | _ :: d :: _ => return d
  | _ => Spell.fail (.listIndexOutOfRange "list")

end Spellbook
