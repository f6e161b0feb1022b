import Spellbook.Machine
import Spellbook.Datum.Text
import Spellbook.Keyword

/-!
# The meaning of tokens

Literals are values, names are checked against the keywords, operators and some words are their own
text, and two words leave a cycle. All other tokens have no meaning of their own.
-/

namespace Spellbook

mutual

def Tree.shown : Tree → String
  | .node l ts =>
    "Tree(" ++ Text.quoted l.text ++ ", [" ++ ", ".intercalate (Tree.shownAll ts) ++ "])"
  | .token m s => "Token(" ++ Text.quoted m.text ++ ", " ++ Text.quoted s ++ ")"
  | .absent => "None"

def Tree.shownAll : List Tree → List String
  | [] => []
  | t :: ts => t.shown :: Tree.shownAll ts

end

def nameWord (s : String) : Fallible Datum :=
  if isKeyword s then .error (.fundamental s) else .ok (.word s)

def literalText (s : String) : Fallible Datum :=
  match Text.Escape.decode s with
  | .ok t => .ok (.rune (.text t))
  | .error b => .error (.brokenEscape b)

def betweenQuotes (s : String) : String := String.ofList ((s.toList.drop 1).dropLast)

/-- What a token does by its kind alone. -/
inductive WordUse where
  /-- it is its own text -/
  | ownText
  /-- it stands for nothing -/
  | nothing
  /-- it shatters a cycle -/
  | shatter
  /-- it persists in a cycle -/
  | persist
  /-- it is a name -/
  | name
  /-- it is a literal of the given kind -/
  | literal (kind : Kind)
  /-- it is a run of prose -/
  | prose
  /-- it has no meaning of its own -/
  | none
  deriving DecidableEq, Repr

def Terminal.use : Terminal → WordUse
  | castWord | proclaim | foretell | shift | resolve | lest | ad | infinitum | dataType | addOp
  | mulOp | compareOp | stepOp | compoundOp | roundOp => .ownText
  | openBrace | closeBrace => .nothing
  | shatter => .shatter
  | persist => .persist
  | name => .name
  | whole => .literal .int
  | decimal => .literal .float
  | truth => .literal .truth
  | quoted => .literal .text
  | prose => .prose
  | _ => .none

def tokenMeaning (t : Terminal) (s : String) : Spell Datum :=
  match t.use with
  | .ownText => return .word s
  | .nothing => return .nothing
  | .shatter => Spell.finish .shattered
  | .persist => Spell.finish .persisted
  | .name => nameWord s
  | .literal .int => do return .rune (.int (← Value.readInt s (Tree.leaf t s).shown))
  | .literal .float => do return .rune (.float (← Value.readFloat s (Tree.leaf t s).shown))
  | .literal .truth => return .rune (.truth (s == truthWord true))
  | .literal .text => literalText (betweenQuotes s)
  | .prose => literalText s
  | .none => Spell.fail (.amiss t.label)

/-- The meaning of a node that carries the name of a terminal. -/
def nodeAsTokenMeaning (t : Terminal) (shown : String) : Spell Datum :=
  match t.use with
  | .ownText => Spell.fail (.noAttribute "Tree" "value")
  | .literal .int => Spell.fail (.notIntArgument "Tree")
  | .literal .float => Spell.fail (.notFloatArgument "Tree")
  | _ => tokenMeaning t shown

end Spellbook
