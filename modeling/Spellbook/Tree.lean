import Spellbook.Grammar.Terminal

/-!
# Trees

A program is read into a tree of named nodes and tokens. A tree can also be built by hand, so its
names are not confined to those that a program text can give; a name of the language and any other
name are told apart by `Label` and `Mark`. An optional part that was left out is `Tree.absent`.
-/

namespace Spellbook

/-- The kinds of node. -/
inductive Form where
  | start | yore | declare | declareSealed | assign | dispel | sealRune | step | compound
  | incantation | parameters | cast | arguments | proclaim | block | foretell | mayhaps | ratio
  | rangeCycle | endlessCycle | lestCycle | eachCycle | range | interrupt
  | either | both | comparison | sum | product | denial | negative | rounding | power | group
  | measure | index | collection | tome | tomeContents | name | past | rune | reveal
  | listen | promptedListen | transmute | interpolation | part
  /-- the declarations of a list of instructions, without the other instructions -/
  | declarations
  deriving DecidableEq, Repr

namespace Form

/-- The name of a kind of node. -/
def label : Form → String
  | start => "start"
  | yore => "prev"
  | declare => "var_declaration"
  | declareSealed => "const_declaration"
  | assign => "assignment"
  | dispel => "deletion"
  | sealRune => "seal_statement"
  | step => "simple_increment"
  | compound => "compound_increment"
  | incantation => "func_declaration"
  | parameters => "func_params"
  | cast => "func_call"
  | arguments => "func_args"
  | proclaim => "return_statement"
  | block => "block"
  | foretell => "if_statement"
  | mayhaps => "maybe_statement"
  | ratio => "ratio"
  | rangeCycle => "for_range"
  | endlessCycle => "infinite_loop"
  | lestCycle => "while_loop"
  | eachCycle => "foreach_loop"
  | range => "range_expression"
  | interrupt => "loop_interrupt"
  | either => "bin_expr_or"
  | both => "bin_expr_and"
  | comparison => "bin_expr_comp"
  | sum => "bin_expr_add"
  | product => "bin_expr_mul"
  | denial => "un_expr_not"
  | negative => "un_expr_negate"
  | rounding => "un_expr_round"
  | power => "bin_expr_pow"
  | group => "group_expr"
  | measure => "length_expr"
  | index => "index_expr"
  | collection => "collection"
  | tome => "array"
  | tomeContents => "array_contents"
  | name => "var_name"
  | past => "previous"
  | rune => "var_expr"
  | reveal => "print_statement"
  | listen => "input_statement"
  | promptedListen => "prompted_input"
  | transmute => "value_cast"
  | interpolation => "interpolated_string"
  | part => "interpolation_part"
  | declarations => "load_functions"

/-- All kinds of node. -/
def all : List Form :=
  [start, yore, declare, declareSealed, assign, dispel, sealRune, step, compound,
   incantation, parameters, cast, arguments, proclaim, block, foretell, mayhaps, ratio,
   rangeCycle, endlessCycle, lestCycle, eachCycle, range, interrupt,
   either, both, comparison, sum, product, denial, negative, rounding, power, group,
   measure, index, collection, tome, tomeContents, name, past, rune, reveal,
   listen, promptedListen, transmute, interpolation, part, declarations]

/-- The kind of node with the given name. -/
def ofLabel? (label : String) : Option Form := all.find? (·.label == label)

end Form

/-- The name of a node: a kind of node of the language or another name. -/
inductive Label where
  | form (f : Form)
  | other (name : String)
  deriving DecidableEq, Repr

namespace Label

/-- Reads a name; the names of the language are its kinds of node. -/
def ofString (s : String) : Label :=
  match Form.ofLabel? s with
  | some f => .form f
  | none => .other s

def text : Label → String
  | form f => f.label
  | other s => s

end Label

/-- The name of a token: a terminal of the language or another name. -/
inductive Mark where
  | terminal (t : Terminal)
  | other (name : String)
  deriving DecidableEq, Repr

namespace Mark

/-- Reads a name; the names of the language are its terminals. -/
def ofString (s : String) : Mark :=
  match Terminal.ofLabel? s with
  | some t => .terminal t
  | none => .other s

def text : Mark → String
  | terminal t => t.label
  | other s => s

end Mark

/-- A tree of named nodes and tokens. -/
inductive Tree where
  | node (label : Label) (children : List Tree)
  | token (mark : Mark) (text : String)
  /-- an optional part that was left out -/
  | absent
  deriving Repr, Inhabited

namespace Tree

/-- A node of the language. -/
abbrev form (f : Form) (children : List Tree) : Tree := .node (.form f) children

/-- A token of the language. -/
abbrev leaf (t : Terminal) (text : String) : Tree := .token (.terminal t) text

end Tree

end Spellbook
