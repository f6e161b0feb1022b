import Spellbook.Meaning.Part

/-!
# Incantations

Declaring and casting incantations. A cast evaluates its arguments in the caller's scope, opens a
frame, binds the parameters in it and runs the body; whatever the body comes to, the frame is then
closed again. A proclamation of the body is the result.
-/

namespace Spellbook

/-- The names that trees evaluate to. -/
def runKeys (run : Run) : List Tree → Spell (List String)
  | [] => return []
  | t :: ts => do
    let name ← keyOf (← run t)
    let names ← runKeys run ts
    return name :: names

/-- The part with the given number, absent if there is none. -/
def optionalPart (parts : List Tree) (n : Nat) : Tree := parts[n]?.getD .absent

/-- Declares an incantation. Its body is the last part. -/
def incantationMeaning (run : Run) (parts : List Tree) : Spell Datum := do
  let name ← runPart run parts 1
  let parameters ← runKeys run (← members (optionalPart parts 2))
  let name ← keyOf name
  if (← Spell.look fun m => m.book.find? name).isSome then Spell.fail (.alreadyDeclared name)
  let body := parts.getLast?.getD .absent
  Spell.change fun m => { m with book := m.book.put name ⟨parameters, body⟩ }
  return .nothing

def bindArguments : List String → List Datum → Spell Unit
  | name :: names, d :: ds => do
    let v ← d.toValue
    Spell.write name (.fresh (some v) false)
    bindArguments names ds
  | _, _ => return ()

/-- Runs a body until it ends or proclaims something, and closes the frames above `depth`. -/
def castBody (body : Spell Datum) (depth : Nat) : Spell Datum := do
  let ending ← Spell.attempt body
  Spell.change fun m => { m with scope := m.scope.leaveTo depth }
  match ending with
  | .done _ => return .nothing
  | .proclaimed d => return d
  | .shattered => Spell.finish .shattered
  | .persisted => Spell.finish .persisted
  | .failed f => Spell.fail f
  | .exhausted => Spell.finish .exhausted

def castMeaning (run : Run) (parts : List Tree) : Spell Datum := do
  let name ← runKey run parts 1
  match ← Spell.look fun m => m.book.find? name with
  | none => Spell.fail (.unknownIncantation name)
  | some i =>
    let arguments ← runAll run (← members (optionalPart parts 2))
    if arguments.length ≠ i.parameters.length then
      Spell.fail (.wrongCount name i.parameters.length arguments.length)
    let depth ← Spell.look fun m => m.scope.length
    Spell.change fun m => { m with scope := m.scope.enter }
    bindArguments i.parameters arguments
    castBody (run i.body) depth

/-- Proclaims the value of an expression, or nothing if there is no such part. -/
def proclaimMeaning (run : Run) (parts : List Tree) : Spell Datum := do
  match parts[1]? with
  | none => Spell.finish (.proclaimed .nothing)
  | some t =>
    let d ← run t
    Spell.finish (.proclaimed d)

end Spellbook
