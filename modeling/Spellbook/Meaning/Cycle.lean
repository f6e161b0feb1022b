import Spellbook.Meaning.Rune
import Spellbook.Datum.Order

/-!
# Cycles

The four kinds of cycle. A body that shatters ends its cycle, and one that persists goes on with the
next turn. A cycle takes one unit of fuel for each turn.
-/

namespace Spellbook

/-- Whether a cycle goes on after its body came to an ending; endings that do not concern the cycle
are passed on. -/
def goesOn (body : Spell Datum) : Spell Bool := do
  match ← Spell.attempt body with
  | .done _ | .persisted => return true
  | .shattered => return false
  | .proclaimed d => Spell.finish (.proclaimed d)
  | .failed f => Spell.fail f
  | .exhausted => Spell.finish .exhausted

/-! ### Ranges -/

/-- A range of numbers for a rune. -/
structure Range where
  name : String
  kind : Kind
  start : Value
  stop : Value
  step : Value
  deriving Repr

namespace Range

def toDatum (r : Range) : Datum :=
  .tuple [.word r.name, .word r.kind.name, .rune r.start, .rune r.stop, .rune r.step]

/-- What is wrong with a number of parts that is not that of a range. -/
def wrongParts (n : Nat) : Fault := if n < 5 then .tooFewParts 5 n else .tooManyParts 5

/-- A datum as a range. A text has its characters for parts, and those of a bare text are bare, so
that the first of them can be a name. -/
def ofDatum : Datum → Fallible Range
  | .tuple [.bare (.text name), .bare (.text kind), .rune start, .rune stop, .rune step] =>
    .ok ⟨name, if kind = Kind.float.name then .float else .int, start, stop, step⟩
  | .tuple ds => .error (wrongParts ds.length)
  | .bare (.text s) =>
    match s.toList with
    | [name, _, start, stop, step] =>
      .ok ⟨.singleton name, .text, .text (.singleton start), .text (.singleton stop),
        .text (.singleton step)⟩
    | cs => .error (wrongParts cs.length)
  | .rune (.text s) =>
    if s.length =
      5 then .error (.notAKey (Value.text s).runeClass) else .error (wrongParts s.length)
  | d => .error (.notParts d.className)

end Range

/-- The kind of the numbers of a range: floats if one of its ends or its step is a float. -/
def rangeKind (start stop step : Value) : Kind :=
  if start.kind = .float ∨ stop.kind = .float ∨ step.kind = .float then .float else .int

/-- A range; without a step it goes by one. -/
def rangeMeaning (run : Run) (parts : List Tree) : Spell Datum := do
  let name ← runPart run parts 0
  let start ← runPart run parts 1
  let stop ← runPart run parts 2
  let step ← match ← part parts 3 with
    | .absent => pure (.bare (.int 1))
    | t => run t
  let start ← start.toValue
  let stop ← stop.toValue
  let step ← step.toValue
  if !(start.kind.isNumber && stop.kind.isNumber && step.kind.isNumber) then
    Spell.fail (.mismatchedRange start.kind.name stop.kind.name step.kind.name)
  let name ← keyOf name
  if (← Spell.find? name).isSome then Spell.fail (.alreadyWritten name)
  return (Range.mk name (rangeKind start stop step) start stop step).toDatum

/-- Takes the rune of a range a step further. Its past is noted even if the step then fails. -/
def stepRange (name : String) (step : Value) : Spell Unit := do
  let e ← Spell.known name
  Spell.modify name fun e => { e with past := e.value }
  let v ← ((heldDatum e.value).operateInPlace .plus (.rune step)).bind Datum.toValue
  Spell.modify name fun e => { e with value := some v }

def rangeTurns (body : Spell Datum) (name : String) (stop step : Value) : Nat → Spell Unit
  | 0 => Spell.finish .exhausted
  | fuel + 1 => do
    let e ← Spell.known name
    if ← (heldDatum e.value).compare .atMost (.rune stop) then
      if ← goesOn body then
        stepRange name step
        rangeTurns body name stop step fuel

/-- A cycle over a range. Its rune is dispelled when it ends. -/
def rangeCycleMeaning (fuel : Nat) (run : Run) (parts : List Tree) : Spell Datum := do
  let r ← Range.ofDatum (← runPart run parts 1)
  Spell.write r.name ⟨some r.start, some r.kind, false, none⟩
  let block ← part parts 2
  rangeTurns (run block) r.name r.stop r.step fuel
  let _ ← Spell.known r.name
  Spell.dispel r.name
  return .nothing

/-! ### Characters -/

/-- The turns of a cycle over the characters of a text. -/
def eachTurn (body : Spell Datum) (name : String) : List Char → Spell Unit
  | [] => return ()
  | c :: cs => do
    let _ ← Spell.known name
    Spell.modify name fun e =>
      { e with past := e.value, value := some (.text (String.singleton c)) }
    if ← goesOn body then eachTurn body name cs

/-- A cycle over the characters of a text. Its rune stays written when it ends. -/
def eachCycleMeaning (run : Run) (parts : List Tree) : Spell Datum := do
  let name ← runPart run parts 1
  let d ← runPart run parts 3
  let block ← part parts 4
  let name ← keyOf name
  if (← Spell.find? name).isSome then Spell.fail (.alreadyWritten name)
  if (← d.length) == 0 then return .nothing
  let first ← d.item (.bare (.int 0))
  let kind ← first.kind
  Spell.write name ⟨none, some kind, false, none⟩
  match d with
  | .rune (.text s) => eachTurn (run block) name s.toList
  | _ => pure ()
  return .nothing

/-! ### Conditions -/

/-- The turns of a cycle that ends when a condition becomes true. -/
def lestTurns (condition body : Spell Datum) : Nat → Spell Unit
  | 0 => Spell.finish .exhausted
  | fuel + 1 => do
    let d ← condition
    if !(← d.truth) then
      if ← goesOn body then lestTurns condition body fuel

/-- A cycle that ends when a condition becomes true. -/
def lestCycleMeaning (fuel : Nat) (run : Run) (parts : List Tree) : Spell Datum := do
  let block ← part parts 3
  lestTurns (runPart run parts 2) (run block) fuel
  return .nothing

def endlessTurns (body : Spell Datum) : Nat → Spell Unit
  | 0 => Spell.finish .exhausted
  | fuel + 1 => do
    if ← goesOn body then endlessTurns body fuel

def endlessCycleMeaning (fuel : Nat) (run : Run) (parts : List Tree) : Spell Datum := do
  let block ← part parts 3
  endlessTurns (run block) fuel
  return .nothing

end Spellbook
