import Spellbook.Value

/-!
# Scopes

The runes that a program can see. A call opens a frame on top of the caller's frames: the callee
sees the caller's runes and changes them in place, but what it writes anew or dispels, it writes and
dispels in its own frame only. Closing the frame gives the caller its names back.

A name is looked up in the frames from the top. A frame that has dispelled a rune of a frame below
it hides the name, and the search ends there.
-/

namespace Spellbook

/-- What is known of a rune. -/
structure Entry where
  /-- its value, unless it is dormant -/
  value : Option Value
  /-- the kind that was noted when it was last written -/
  kind : Option Kind
  /-- whether it is sealed -/
  isSealed : Bool
  /-- the value before, if it had the same kind -/
  past : Option Value
  deriving Repr, Inhabited

namespace Entry

/-- A rune that has just been written. -/
def fresh (value : Option Value) (isSealed : Bool) : Entry :=
  ⟨value, value.map Value.kind, isSealed, none⟩

end Entry

/-- Names and what they are bound to; no name comes twice. -/
abbrev Table (α : Type) := List (String × α)

namespace Table

def find? {α : Type} (t : Table α) (name : String) : Option α := t.lookup name

/-- Binds a name, in its place if it is bound already. -/
def put {α : Type} (name : String) (a : α) : Table α → Table α
  | [] => [(name, a)]
  | (n, b) :: t => if n = name then (name, a) :: t else (n, b) :: put name a t

def remove {α : Type} (t : Table α) (name : String) : Table α := t.filter fun p => p.1 != name

end Table

/-- The runes of one call. -/
structure Frame where
  /-- the runes written in it -/
  own : Table Entry := []
  /-- the names of runes below that were dispelled in it -/
  hidden : List String := []
  deriving Repr, Inhabited

/-- The frames of the calls under way, the innermost first. -/
abbrev Scope := List Frame

namespace Scope

/-- The scope in which nothing is written. -/
def empty : Scope := [{}]

/-- What is known of a rune. -/
def find? : Scope → String → Option Entry
  | [], _ => none
  | f :: fs, name =>
    match f.own.find? name with
    | some e => some e
    | none => if f.hidden.contains name then none else find? fs name

def isWritten (s : Scope) (name : String) : Bool := (s.find? name).isSome

/-- Writes a rune anew, in the innermost frame. -/
def write (s : Scope) (name : String) (e : Entry) : Scope :=
  match s with
  | [] => [{ own := [(name, e)] }]
  | f :: fs => { f with own := Table.put name e f.own } :: fs

/-- Changes a rune where it is written. -/
def modify (change : Entry → Entry) : Scope → String → Scope
  | [], _ => []
  | f :: fs, name =>
    match f.own.find? name with
    | some e => { f with own := Table.put name (change e) f.own } :: fs
    | none => if f.hidden.contains name then f :: fs else f :: modify change fs name

/-- Dispels a rune: its name is free again in the innermost frame. -/
def dispel (s : Scope) (name : String) : Scope :=
  match s with
  | [] => []
  | f :: fs =>
    { own := f.own.remove name
      hidden := if isWritten fs name && !f.hidden.contains name then name :: f.hidden
        else f.hidden } :: fs

def enter (s : Scope) : Scope := {} :: s

/-- Closes frames until `depth` are left. -/
def leaveTo (depth : Nat) (s : Scope) : Scope := s.drop (s.length - depth)

/-- The names written in some frame. -/
def names (s : Scope) : List String := (s.flatMap fun f => f.own.map Prod.fst).eraseDups

/-- The runes that can be seen. -/
def bindings (s : Scope) : Table Entry :=
  s.names.filterMap fun name => (s.find? name).map fun e => (name, e)

end Scope

end Spellbook
