import Spellbook.Machine
import Spellbook.Datum.Text

/-!
# The parts of a node

The meaning of a node is made from the meanings of its parts, which are given as a function `run`
from trees to spells. A node built by hand may lack a part.
-/

namespace Spellbook

/-- What the parts of a node mean. -/
abbrev Run := Tree → Spell Datum

/-- The part of a node with the given number. -/
def part (parts : List Tree) (n : Nat) : Spell Tree :=
  match parts[n]? with
  | some t => return t
  | none => Spell.fail (.listIndexOutOfRange "list")

/-- What the part with the given number evaluates to. -/
def runPart (run : Run) (parts : List Tree) (n : Nat) : Spell Datum := do run (← part parts n)

/-- What all trees evaluate to, in order. -/
def runAll (run : Run) : List Tree → Spell (List Datum)
  | [] => return []
  | t :: ts => do
    let d ← run t
    let ds ← runAll run ts
    return d :: ds

def runThree (run : Run) (parts : List Tree) : Spell (Datum × Datum × Datum) := do
  match ← runAll run parts with
  | [a, b, c] => return (a, b, c)
  | ds =>
    if ds.length < 3 then Spell.fail (.tooFewParts 3 ds.length) else Spell.fail (.tooManyParts 3)

/-- A datum as the name of a rune or an incantation. The parts that a reader puts where a name
belongs evaluate to texts; a tree made by hand can have others there, and all of those are
refused. -/
def keyOf : Datum → Fallible String
  | .bare (.text s) => .ok s
  | d => .error (.notAKey d.className)

/-- The name that a part evaluates to. -/
def runKey (run : Run) (parts : List Tree) (n : Nat) : Spell String := do
  keyOf (← runPart run parts n)

/-- The rune's value that a part evaluates to. -/
def runValue (run : Run) (parts : List Tree) (n : Nat) : Spell Value := do
  (← runPart run parts n).toValue

def operatorText : Datum → Fallible String
  | .bare (.text s) => .ok s
  | .rune (.truth b) => .ok (truthWord b)
  | .rune _ => .error (.noAttribute "str" "value")
  | d => d.text

/-- The members of a list of names or arguments, which is a node, or absent. -/
def members : Tree → Spell (List Tree)
  | .node _ ts => return ts
  | .absent => return []
  | .token _ text =>
    if text.isEmpty then return [] else Spell.fail (.noAttribute "Token" "children")

end Spellbook
