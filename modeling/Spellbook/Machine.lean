import Spellbook.Scope
import Spellbook.Fault
import Spellbook.Tree

/-!
# Machines and spells

A `Machine` is the state of a running program. A `Spell` changes it and comes to an `Ending`: a
result, one of the three ways to leave the instructions under way, a fault, or no ending within the
fuel it was given. What a spell did before a fault stays done.
-/

namespace Spellbook

/-- An incantation: the names of its parameters, and its body. -/
structure Incantation where
  parameters : List String
  body : Tree
  deriving Repr, Inhabited

/-- The state of a running program. -/
structure Machine where
  /-- the runes -/
  scope : Scope := Scope.empty
  /-- the incantations -/
  book : Table Incantation := []
  /-- what has been revealed -/
  output : String := ""
  /-- what can still be listened to -/
  input : List Char := []
  /-- the numbers that chance will draw -/
  draws : List Float := []
  deriving Repr, Inhabited

/-- How a spell comes to an end. -/
inductive Ending (α : Type) where
  /-- with a result -/
  | done (a : α)
  /-- by proclaiming something -/
  | proclaimed (d : Datum)
  /-- by shattering a cycle -/
  | shattered
  /-- by persisting in a cycle -/
  | persisted
  /-- by a fault -/
  | failed (f : Fault)
  /-- not within the fuel -/
  | exhausted
  deriving Repr, Inhabited

/-- A change of the machine that comes to an ending. -/
def Spell (α : Type) : Type := Machine → Ending α × Machine

namespace Spell

/-- Comes to an end at once. -/
@[inline] def finish {α : Type} (e : Ending α) : Spell α := fun m => (e, m)

/-- Has a result at once. -/
@[inline] protected def pure {α : Type} (a : α) : Spell α := finish (.done a)

/-- Goes on with the result of a spell; any other ending is the ending of the whole. -/
@[inline] protected def bind {α β : Type} (x : Spell α) (f : α → Spell β) : Spell β := fun m =>
  match x m with
  | (.done a, m) => f a m
  | (.proclaimed d, m) => (.proclaimed d, m)
  | (.shattered, m) => (.shattered, m)
  | (.persisted, m) => (.persisted, m)
  | (.failed e, m) => (.failed e, m)
  | (.exhausted, m) => (.exhausted, m)

instance : Monad Spell where
  pure := Spell.pure
  bind := Spell.bind

@[inline] def fail {α : Type} (f : Fault) : Spell α := finish (.failed f)

/-- Does what may fail without touching the machine. -/
@[inline] def lift {α : Type} (x : Fallible α) : Spell α :=
  match x with
  | .ok a => finish (.done a)
  | .error f => finish (.failed f)

@[inline] def look {α : Type} (f : Machine → α) : Spell α := fun m => (.done (f m), m)

@[inline] def change (f : Machine → Machine) : Spell Unit := fun m => (.done (), f m)

/-- Whatever a spell comes to, as a result. -/
@[inline] def attempt {α : Type} (x : Spell α) : Spell (Ending α) := fun m =>
  let (e, m) := x m
  (.done e, m)

instance : MonadLift (Except Fault) Spell where
  monadLift := lift

/-! ### Runes -/

/-- What is known of a rune. -/
def find? (name : String) : Spell (Option Entry) := look fun m => m.scope.find? name

/-- What is known of a rune that has to be written. -/
def written (name : String) : Spell Entry := do
  match ← find? name with
  | some e => return e
  | none => fail (.notWritten name)

/-- What is known of a rune that is used by its bare name. -/
def known (name : String) : Spell Entry := do
  match ← find? name with
  | some e => return e
  | none => fail (.noSuchKey name)

/-- What is known of a rune that has to be written and not sealed. -/
def changeable (name : String) : Spell Entry := do
  let e ← written name
  if e.isSealed then fail (.sealedRune name) else return e

def write (name : String) (e : Entry) : Spell Unit :=
  change fun m => { m with scope := m.scope.write name e }

/-- Changes a rune where it is written. -/
def modify (name : String) (f : Entry → Entry) : Spell Unit :=
  change fun m => { m with scope := m.scope.modify f name }

def dispel (name : String) : Spell Unit :=
  change fun m => { m with scope := m.scope.dispel name }

/-! ### Speech and chance -/

def reveal (s : String) : Spell Unit := change fun m => { m with output := m.output ++ s }

def listen : Spell String := do
  match ← look Machine.input with
  | [] => fail .inputEnded
  | cs =>
    change fun m => { m with input := (cs.dropWhile (· != '\n')).drop 1 }
    return String.ofList (cs.takeWhile (· != '\n'))

/-- What chance draws when nothing else is given. -/
def evenDraw : Float := 0.5

def draw : Spell Float := do
  match ← look Machine.draws with
  | [] => return evenDraw
  | d :: ds =>
    change fun m => { m with draws := ds }
    return d

end Spell

end Spellbook
