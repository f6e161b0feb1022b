/-!
# Values

A rune holds a whole number, a float, a text or a truth. While a program runs, other things turn up
as well: nothing at all, values that have not been made a rune's value yet, and the parts of a
range. `Datum` is everything that evaluating a tree can give.
-/

namespace Spellbook

/-- The kinds of value. -/
inductive Kind where
  | int
  | float
  | text
  | truth
  deriving DecidableEq, Repr

/-- The name of a kind, as it is kept with a rune. -/
def Kind.name : Kind → String
  | int => "int"
  | float => "float"
  | text => "str"
  | truth => "bool"

def Kind.isNumber : Kind → Bool
  | int | float => true
  | _ => false

/-- What a rune can hold. -/
inductive Value where
  | int (n : Int)
  | float (x : Float)
  | text (s : String)
  | truth (b : Bool)
  deriving Repr, Inhabited

def Value.kind : Value → Kind
  | int _ => .int
  | float _ => .float
  | text _ => .text
  | truth _ => .truth

def truthWord (b : Bool) : String := if b then "Truthsung" else "Falsehood"

/-- What evaluating a tree can give. -/
inductive Datum where
  /-- nothing at all -/
  | nothing
  /-- a value of a rune -/
  | rune (v : Value)
  /-- a value that has not been made a rune's value -/
  | bare (v : Value)
  /-- the parts of a range -/
  | tuple (items : List Datum)
  /-- a list, which no program makes -/
  | list (items : List Datum)
  /-- a rune's value without any content, which no program makes -/
  | formless
  deriving Repr, Inhabited

def Value.runeClass : Value → String
  | int _ => "ScrollInt"
  | float _ => "ScrollFloat"
  | text _ => "ScrollString"
  | truth _ => "ScrollBool"

def Datum.className : Datum → String
  | nothing => "NoneType"
  | rune v => v.runeClass
  | bare v => v.kind.name
  | tuple _ => "tuple"
  | list _ => "list"
  | formless => "ScrollValue"

abbrev Datum.word (s : String) : Datum := .bare (.text s)

end Spellbook
