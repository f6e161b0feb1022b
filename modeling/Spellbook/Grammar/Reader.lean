import Spellbook.Grammar.Lexicon

/-!
# Reading a program

`Tree.read` reads the text of a program into a tree, or says where it stops being one. The reader
keeps a stack of states, each with the piece of tree that led to it. Before each token the state on
top chooses the lexicon; the token then closes productions until a state takes it.
-/

namespace Spellbook

/-- Where and at which terminal a text stops being a program. -/
structure SyntaxFault where
  place : Place
  found : Terminal
  deriving DecidableEq, Repr

namespace Reader

open Automaton (Action)

/-- What stands on the stack for a symbol: a tree, or the members of a list. -/
inductive Piece where
  | tree (t : Tree)
  | list (ts : List Tree)
  deriving Inhabited

def Piece.trees : Piece → List Tree
  | tree t => [t]
  | list ts => ts

/-- The children that a production collects from the pieces of its right side. -/
def collect : List Slot → List Piece → List Tree
  | .gap :: slots, pieces => .absent :: collect slots pieces
  | .dropped _ :: slots, _ :: pieces => collect slots pieces
  | .kept _ :: slots, p :: pieces => p.trees ++ collect slots pieces
  | .part _ :: slots, p :: pieces => p.trees ++ collect slots pieces
  | _, _ => []

/-- The piece that a production makes of the pieces of its right side. -/
def build (p : Production) (pieces : List Piece) : Piece :=
  let children := collect p.slots pieces
  match p.shape, children with
  | .node f, children => .tree (.form f children)
  | .only, [child] => .tree child
  | .only, children => .list children
  | .list, children => .list children

/-- The stack of the reader, top first. The state at the bottom is `0`. -/
abbrev Stack := List (Nat × Piece)

def top : Stack → Nat
  | [] => 0
  | (state, _) :: _ => state

def productions : Array Production := Grammar.productions.toArray

def reduce (k : Nat) (stack : Stack) : Option Stack :=
  match productions[k]? with
  | none => none
  | some p =>
    let n := p.right.length
    let piece := build p ((stack.take n).reverse.map Prod.snd)
    let below := stack.drop n
    (goto? (top below) p.left).map fun state => (state, piece) :: below

/-- What becomes of the stack when a token comes. -/
inductive Outcome where
  /-- the token was taken -/
  | taken (stack : Stack)
  /-- the text is complete -/
  | complete (t : Tree)
  /-- the token cannot stand here -/
  | refused

/-- The text is complete if a tree is on top. -/
def finish : Stack → Outcome
  | (_, .tree t) :: _ => .complete t
  | _ => .refused

/-- Does what the state on top says of a token, and goes on with `again` after closing a
production. -/
def respond (again : Stack → Outcome) (t : Terminal) (text : List Char) (stack : Stack) :
    Option Action → Outcome
  | some (.shift state) => .taken ((state, .tree (.leaf t (String.ofList text))) :: stack)
  | some (.reduce k) => (reduce k stack).elim .refused again
  | some .accept => finish stack
  | none => .refused

/-- Closes productions until the token is taken. -/
def feed (t : Terminal) (text : List Char) : Nat → Stack → Outcome
  | 0, _ => .refused
  | fuel + 1, stack => respond (feed t text fuel) t text stack (action? (top stack) t)

/-- More steps than productions can be closed in a row on a stack: each symbol of the stack is
passed up through at most so many productions. -/
def patience (stack : Stack) : Nat := 64 * (stack.length + 2)

/-- Goes on with `again` if the token was taken. -/
def Outcome.andThen (again : Stack → Except SyntaxFault Tree) (fault : SyntaxFault) :
    Outcome → Except SyntaxFault Tree
  | taken stack => again stack
  | complete t => .ok t
  | refused => .error fault

/-- Feeds what comes next in the text and goes on with `again`; `last` is the place of the last
token. -/
def advance (again : Stack → List Char → Place → Place → Except SyntaxFault Tree) (stack : Stack)
    (last : Place) : Lexicon.Next → Except SyntaxFault Tree
  | .token tok rest place =>
    (feed tok.terminal tok.text (patience stack) stack).andThen (again · rest place tok.place)
      ⟨tok.place, tok.terminal⟩
  | .nothing =>
    (feed .textEnd [] (patience stack) stack).andThen (fun _ => .error ⟨last, .textEnd⟩)
      ⟨last, .textEnd⟩
  | .stray rest place =>
    match Lexicon.full.next rest place with
    | .token tok _ _ => .error ⟨tok.place, tok.terminal⟩
    | _ => .error ⟨last, .textEnd⟩

/-- Reads on from a stack, at most `fuel` tokens; `last` is the place of the last token. -/
def readFrom : Nat → Stack → List Char → Place → Place → Except SyntaxFault Tree
  | 0, _, _, _, last => .error ⟨last, .textEnd⟩
  | fuel + 1, stack, cs, place, last =>
    advance (readFrom fuel) stack last ((Lexicon.ofStates.getD (top stack) default).next cs place)

/-- Reads a text; it has no more tokens than characters. -/
def read (cs : List Char) : Except SyntaxFault Tree := readFrom (cs.length + 1) [] cs {} {}

end Reader

/-- Line breaks of all kinds as the one line break that the reader knows. -/
def plainBreaks : List Char → List Char
  | '\r' :: '\n' :: cs => '\n' :: plainBreaks cs
  | '\r' :: cs => '\n' :: plainBreaks cs
  | c :: cs => c :: plainBreaks cs
  | [] => []

/-- Reads the text of a program. -/
def Tree.read (source : String) : Except SyntaxFault Tree :=
  Reader.read (plainBreaks source.toList)

end Spellbook
