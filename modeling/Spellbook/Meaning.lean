import Spellbook.Meaning.Word
import Spellbook.Meaning.Expression
import Spellbook.Meaning.Choice
import Spellbook.Meaning.Cycle
import Spellbook.Meaning.Incantation

/-!
# The meaning of trees

`Tree.meaning` gives each tree its spell. The meaning with `n + 1` units of fuel is made from the
meaning of the parts with `n` units; without fuel no tree comes to an ending.

A tree that is made by hand may carry a name that no tree of the language has. What happens then is
left open in `Tree.meaningWith`. For most names nothing answers, and that is what `Tree.meaning`
does for all of them.
-/

namespace Spellbook

/-- Runs trees one after the other. -/
def runEach (run : Run) : List Tree → Spell Datum
  | [] => return .nothing
  | t :: ts => do
    let _ ← run t
    runEach run ts

/-- Whether a tree declares an incantation; only nodes can be asked. -/
def isDeclaration : Tree → Fallible Bool
  | .node l _ => .ok (l = .form .incantation)
  | .token _ _ => .error (.noAttribute "Token" "data")
  | .absent => .error (.noAttribute "NoneType" "data")

/-- Runs those trees that are declarations of incantations, or those that are not. -/
def runWhere (declarations : Bool) (run : Run) : List Tree → Spell Datum
  | [] => return .nothing
  | t :: ts => do
    if (← isDeclaration t) = declarations then
      let _ ← run t
    runWhere declarations run ts

/-- The meaning of a node: its incantations are declared before its other instructions run. -/
def programMeaning (run : Run) (parts : List Tree) : Spell Datum := do
  let _ ← runWhere true run parts
  runWhere false run parts

/-- The meaning of a node, given what its parts mean. -/
def Form.meaning (f : Form) (fuel : Nat) (run : Run) (parts : List Tree) : Spell Datum :=
  match f with
  | .start => programMeaning run parts
  | .declarations => runWhere true run parts
  | .declare => declareMeaning false 1 run parts
  | .declareSealed => declareMeaning true 2 run parts
  | .assign => assignMeaning run parts
  | .dispel => dispelMeaning run parts
  | .sealRune => sealMeaning run parts
  | .step => stepMeaning run parts
  | .compound => compoundMeaning run parts
  | .incantation => incantationMeaning run parts
  | .cast => castMeaning run parts
  | .proclaim => proclaimMeaning run parts
  | .block => runEach run parts
  | .foretell => branches run parts
  | .mayhaps => mayhapsMeaning run parts
  | .ratio => ratioMeaning parts
  | .rangeCycle => rangeCycleMeaning fuel run parts
  | .endlessCycle => endlessCycleMeaning fuel run parts
  | .lestCycle => lestCycleMeaning fuel run parts
  | .eachCycle => eachCycleMeaning run parts
  | .range => rangeMeaning run parts
  | .interrupt => do
    let _ ← runPart run parts 0
    return .nothing
  | .either => eitherMeaning run parts
  | .both => bothMeaning run parts
  | .comparison => comparisonMeaning run parts
  | .sum => sumMeaning run parts
  | .product => productMeaning run parts
  | .denial => denialMeaning run parts
  | .negative => negativeMeaning run parts
  | .rounding => roundingMeaning run parts
  | .power => powerMeaning run parts
  | .group => groupMeaning run parts
  | .measure => measureMeaning run parts
  | .index => indexMeaning run parts
  | .name => nameMeaning run parts
  | .past => pastMeaning run parts
  | .rune => runeMeaning run parts
  | .reveal => revealMeaning run parts
  | .listen => listenMeaning
  | .promptedListen => promptedListenMeaning run parts
  | .transmute => transmuteMeaning run parts
  | .interpolation => interpolationMeaning run parts
  | .part => partMeaning run parts
  | .yore | .parameters | .arguments | .collection | .tome | .tomeContents =>
    Spell.fail (.amiss f.label)

/-- The meaning of a token that carries the name of a kind of node. -/
def Form.tokenMeaning (f : Form) : Spell Datum :=
  match f with
  | .listen => listenMeaning
  | .yore | .parameters | .arguments | .collection | .tome | .tomeContents =>
    Spell.fail (.amiss f.label)
  | _ => Spell.fail (.noAttribute "Token" "children")

/-- What a tree does by a name that is none of the language's. -/
abbrev Foreign := String → Tree → Spell Datum

/-- Nothing answers to a name that is none of the language's. -/
def unanswered : Foreign := fun name _ => Spell.fail (.amiss name)

/-- The meaning of a tree with the given fuel, if `foreign` is what names outside the language
do. -/
def Tree.meaningWith (foreign : Foreign) : Nat → Tree → Spell Datum
  | 0, _ => Spell.finish .exhausted
  | _ + 1, .absent => Spell.fail (.noAttribute "NoneType" "data")
  | _ + 1, .token (.terminal t) s => Spellbook.tokenMeaning t s
  | _ + 1, .token (.other name) s =>
    match Form.ofLabel? name with
    | some f => f.tokenMeaning
    | none => foreign name (.token (.other name) s)
  | fuel + 1, .node (.form f) parts => f.meaning fuel (meaningWith foreign fuel) parts
  | _ + 1, .node (.other name) parts =>
    match Terminal.ofLabel? name with
    | some t => nodeAsTokenMeaning t (Tree.node (.other name) parts).shown
    | none => foreign name (.node (.other name) parts)

/-- The meaning of a tree with the given fuel. -/
def Tree.meaning : Nat → Tree → Spell Datum := Tree.meaningWith unanswered

end Spellbook
