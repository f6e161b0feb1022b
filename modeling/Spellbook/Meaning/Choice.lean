import Spellbook.Meaning.Part
import Spellbook.Datum.Order
import Spellbook.Keyword

/-!
# Choices

`foretell` runs the block of its first true condition, or else that of `resolve`. `mayhaps` runs its
block if chance draws a number below its ratio.
-/

namespace Spellbook

/-- Whether a word opens the last branch of a choice. -/
def isResolve (word : Datum) : Fallible Bool := word.compare .equal (.word resolveWord)

/-- The branches of a choice: a word, a condition and a block each, and at the end the word
`resolve` and a block. A part that is absent ends the branches. -/
def branches (run : Run) : List Tree → Spell Datum
  | [] => return .nothing
  | .absent :: _ => return .nothing
  | [t] => do
    let _ ← isResolve (← run t)
    Spell.fail (.listIndexOutOfRange "list")
  | [t, block] => do
    let last ← isResolve (← run t)
    let _ ← run block
    if last then return .nothing else Spell.fail (.listIndexOutOfRange "list")
  | t :: condition :: block :: rest => do
    if ← isResolve (← run t) then
      let _ ← run condition
      return .nothing
    else
      let d ← run condition
      if ← d.truth then
        let _ ← run block
        return .nothing
      else branches run rest

def tokenText : Tree → Fallible String
  | .token _ s => .ok s
  | .node _ _ => .error (.noAttribute "Tree" "value")
  | .absent => .error (.noAttribute "NoneType" "value")

/-- The chance that two whole numbers give, the first against the second. -/
def chanceOf (left right : Int) : Fallible Float :=
  if left < 0 ∨ right < 0 ∨ left + right = 0 then .error (.badRatio left right)
  else
    match floatOfQuotient? left (left + right) with
    | some x => .ok x
    | none => .error .quotientTooLarge

/-- A ratio of two whole numbers. -/
def ratioMeaning (parts : List Tree) : Spell Datum := do
  let left ← tokenText (← part parts 0)
  let left ← Value.readInt left (Text.quoted left)
  let right ← tokenText (← part parts 1)
  let right ← Value.readInt right (Text.quoted right)
  return .bare (.float (← chanceOf left right))

/-- Runs a block by chance; without a ratio the chances are even. The block of `resolve` is never
run. -/
def mayhapsMeaning (run : Run) (parts : List Tree) : Spell Datum := do
  let ratio ← match ← part parts 1 with
    | .absent => pure (.bare (.float 0.5))
    | t => run t
  let block ← part parts 2
  let drawn ← Spell.draw
  if ← (Datum.bare (.float drawn)).compare .less ratio then
    let _ ← run block
  return .nothing

end Spellbook
