import Spellbook.Tree

/-!
# The grammar

The productions of the language. The right side of a production is a list of slots; a slot says
what becomes of its symbol in the tree, and a slot `gap` stands for an optional part that this
production leaves out. A production's `Shape` says what is made of its children.
-/

namespace Spellbook

/-- The nonterminals of the language. The last five are lists whose members become children of
the node above. -/
inductive Nonterminal where
  | start | yore | instruction | declare | declareSealed | assign | dispel | sealRune | increment
  | incantation | parameters | cast | arguments | proclaim | block | foretell | mayhaps | ratio
  | cycle | range | interrupt | expression | eitherExpr | bothExpr | compareExpr | sumExpr
  | productExpr | unaryExpr | powerExpr | primary | measure | index | collection | tome
  | tomeContents | number | name | runeExpr | reveal | listen | transmute | interpolation | part
  | instructions | parameterList | furtherArguments | shifts | parts
  deriving DecidableEq, Repr

namespace Nonterminal

def all : List Nonterminal :=
  [start, yore, instruction, declare, declareSealed, assign, dispel, sealRune, increment,
   incantation, parameters, cast, arguments, proclaim, block, foretell, mayhaps, ratio,
   cycle, range, interrupt, expression, eitherExpr, bothExpr, compareExpr, sumExpr,
   productExpr, unaryExpr, powerExpr, primary, measure, index, collection, tome,
   tomeContents, number, name, runeExpr, reveal, listen, transmute, interpolation, part,
   instructions, parameterList, furtherArguments, shifts, parts]

theorem mem_all (n : Nonterminal) : n ∈ all := by
  cases n <;> decide

/-- The number of a nonterminal, its place in `all`. -/
def code (n : Nonterminal) : Nat := n.ctorIdx

end Nonterminal

/-- A symbol of the grammar. -/
inductive Symbol where
  | terminal (t : Terminal)
  | nonterminal (n : Nonterminal)
  deriving DecidableEq, Repr

/-- A place on the right side of a production. -/
inductive Slot where
  /-- a token that becomes a child -/
  | kept (t : Terminal)
  /-- a token that is dropped -/
  | dropped (t : Terminal)
  /-- a part that becomes a child, or children if it is a list -/
  | part (n : Nonterminal)
  /-- no symbol at all, and an absent child -/
  | gap
  deriving DecidableEq, Repr

def Slot.symbol? : Slot → Option Symbol
  | kept t | dropped t => some (.terminal t)
  | part n => some (.nonterminal n)
  | gap => none

/-- What is made of the children that a production collects. -/
inductive Shape where
  /-- a node -/
  | node (f : Form)
  /-- the only child itself -/
  | only
  /-- a list, for the node above -/
  | list
  deriving DecidableEq, Repr

/-- A production of the grammar. -/
structure Production where
  left : Nonterminal
  slots : List Slot
  shape : Shape
  deriving DecidableEq, Repr

def Production.right (p : Production) : List Symbol := p.slots.filterMap Slot.symbol?

namespace Grammar

open Slot

def braced : List Slot := [dropped .openBrace, part .block, dropped .closeBrace]

/-- An expression in parentheses. -/
def condition : List Slot := [dropped .openParen, part .expression, dropped .closeParen]

/-- The head of a cycle in its parentheses, and the body. -/
def cycleOver (head : List Slot) : List Slot :=
  [kept .cycle, dropped .openParen] ++ head ++ [dropped .closeParen] ++ braced

/-- A node of the kind `f` for the nonterminal `n`. -/
def rule (n : Nonterminal) (f : Form) (slots : List Slot) : Production := ⟨n, slots, .node f⟩

/-- A production that hands its only child up. -/
def pass (n : Nonterminal) (slots : List Slot) : Production := ⟨n, slots, .only⟩

def list (n : Nonterminal) (slots : List Slot) : Production := ⟨n, slots, .list⟩

/-! ### Statements -/

/-- Productions of programs, of instructions and of the statements on runes. -/
def statements : List Production :=
  [ rule .start .start [part .instructions],
    rule .yore .yore [kept .fromWord, kept .days, kept .ofWord, kept .yore],
    pass .instruction [part .reveal, dropped .semicolon],
    pass .instruction [part .declare, dropped .semicolon],
    pass .instruction [part .declareSealed, dropped .semicolon],
    pass .instruction [part .assign, dropped .semicolon],
    pass .instruction [part .dispel, dropped .semicolon],
    pass .instruction [part .sealRune, dropped .semicolon],
    pass .instruction [part .increment, dropped .semicolon],
    pass .instruction [part .interrupt, dropped .semicolon],
    pass .instruction [part .proclaim, dropped .semicolon],
    pass .instruction [part .cast, dropped .semicolon],
    pass .instruction [part .incantation],
    pass .instruction [part .foretell],
    pass .instruction [part .mayhaps],
    pass .instruction [part .cycle],
    rule .declare .declare [kept .rune, part .name, dropped .equals, part .expression],
    rule .declare .declare [kept .rune, part .name, gap],
    rule .declareSealed .declareSealed
      [kept .sealedWord, kept .rune, part .name, dropped .equals, part .expression],
    rule .declareSealed .declareSealed [kept .sealedWord, kept .rune, part .name, gap],
    rule .assign .assign [part .name, dropped .equals, part .expression],
    rule .dispel .dispel [kept .dispel, part .name],
    rule .sealRune .sealRune [kept .sealWord, part .name],
    rule .increment .step [part .name, kept .stepOp],
    rule .increment .compound [part .name, kept .compoundOp, part .expression],
    rule .incantation .incantation
      ([kept .incantation, part .name, part .parameters] ++ braced),
    rule .incantation .incantation ([kept .incantation, part .name, gap] ++ braced),
    rule .parameters .parameters [part .parameterList],
    rule .cast .cast
      [kept .castWord, part .name, dropped .openCall, part .arguments, dropped .closeCall],
    rule .cast .cast [kept .castWord, part .name, dropped .openCall, gap, dropped .closeCall],
    rule .arguments .arguments [part .expression, part .furtherArguments],
    rule .arguments .arguments [part .expression],
    rule .proclaim .proclaim [kept .proclaim, part .expression],
    rule .proclaim .proclaim [kept .proclaim, gap],
    rule .block .block [part .instructions],
    rule .block .block [] ]

/-! ### Choices and cycles -/

def control : List Production :=
  [ rule .foretell .foretell
      ([kept .foretell] ++ condition ++ braced ++ [part .shifts, kept .resolve] ++ braced),
    rule .foretell .foretell
      ([kept .foretell] ++ condition ++ braced ++ [part .shifts, gap, gap]),
    rule .foretell .foretell ([kept .foretell] ++ condition ++ braced ++ [kept .resolve] ++ braced),
    rule .foretell .foretell ([kept .foretell] ++ condition ++ braced ++ [gap, gap]),
    rule .mayhaps .mayhaps
      ([kept .mayhaps, dropped .openParen, part .ratio, dropped .closeParen] ++ braced ++
        [kept .resolve] ++ braced),
    rule .mayhaps .mayhaps
      ([kept .mayhaps, dropped .openParen, part .ratio, dropped .closeParen] ++ braced ++
        [gap, gap]),
    rule .mayhaps .mayhaps ([kept .mayhaps, gap] ++ braced ++ [kept .resolve] ++ braced),
    rule .mayhaps .mayhaps ([kept .mayhaps, gap] ++ braced ++ [gap, gap]),
    rule .ratio .ratio [kept .whole, dropped .colon, kept .whole],
    rule .cycle .rangeCycle (cycleOver [part .range]),
    rule .cycle .endlessCycle (cycleOver [kept .ad, kept .infinitum]),
    rule .cycle .lestCycle (cycleOver [kept .lest, part .expression]),
    rule .cycle .eachCycle (cycleOver [part .name, kept .betwixt, part .expression]),
    rule .range .range
      [part .name, part .expression, dropped .arrow, part .expression, dropped .bar,
        part .expression],
    rule .range .range [part .name, part .expression, dropped .arrow, part .expression, gap],
    rule .interrupt .interrupt [kept .shatter],
    rule .interrupt .interrupt [kept .persist] ]

/-! ### Expressions -/

def expressions : List Production :=
  [ pass .expression [part .eitherExpr],
    rule .eitherExpr .either [part .eitherExpr, kept .either, part .bothExpr],
    pass .eitherExpr [part .bothExpr],
    rule .bothExpr .both [part .bothExpr, kept .both, part .compareExpr],
    pass .bothExpr [part .compareExpr],
    rule .compareExpr .comparison [part .sumExpr, kept .compareOp, part .sumExpr],
    pass .compareExpr [part .sumExpr],
    rule .sumExpr .sum [part .sumExpr, kept .addOp, part .productExpr],
    pass .sumExpr [part .productExpr],
    rule .productExpr .product [part .productExpr, kept .mulOp, part .unaryExpr],
    pass .productExpr [part .unaryExpr],
    rule .unaryExpr .denial [kept .bang, part .unaryExpr],
    rule .unaryExpr .negative [dropped .minus, part .unaryExpr],
    rule .unaryExpr .rounding [kept .roundOp, part .unaryExpr],
    pass .unaryExpr [part .powerExpr],
    rule .powerExpr .power [part .powerExpr, dropped .caret, part .primary],
    pass .powerExpr [part .primary],
    pass .primary [part .transmute],
    pass .primary [part .cast],
    pass .primary [part .listen],
    pass .primary [part .measure],
    pass .primary [kept .truth],
    pass .primary [part .interpolation],
    pass .primary [kept .quoted],
    pass .primary [part .runeExpr],
    pass .primary [part .number],
    rule .primary .group condition,
    pass .primary [part .index],
    pass .primary [part .collection],
    rule .measure .measure [kept .measure, part .expression],
    rule .index .index [part .name, dropped .indexMark, part .expression],
    rule .collection .collection [part .tome],
    rule .tome .tome
      [kept .tome, dropped .openBracket, part .tomeContents, dropped .closeBracket],
    rule .tome .tome [kept .tome, dropped .openBracket, gap, dropped .closeBracket],
    rule .tomeContents .tomeContents [part .expression, part .furtherArguments],
    rule .tomeContents .tomeContents [part .expression],
    pass .number [kept .whole],
    pass .number [kept .decimal],
    rule .name .name [kept .name],
    rule .runeExpr .past [kept .name, part .yore],
    rule .runeExpr .rune [kept .name],
    rule .reveal .reveal [kept .reveal, part .expression],
    rule .listen .listen [kept .listen],
    rule .listen .promptedListen [kept .listen, part .expression],
    rule .transmute .transmute [kept .transmute, part .primary, kept .arrow, kept .dataType],
    rule .interpolation .interpolation [kept .openText, part .parts, kept .quote],
    rule .interpolation .interpolation [kept .openText, kept .quote],
    rule .part .part [kept .prose],
    rule .part .part [kept .openBrace, part .expression, kept .closeBrace] ]

/-! ### Lists -/

def lists : List Production :=
  [ list .instructions [part .instruction],
    list .instructions [part .instructions, part .instruction],
    list .parameterList [dropped .tilde, part .name],
    list .parameterList [part .parameterList, dropped .tilde, part .name],
    list .furtherArguments [dropped .comma, part .expression],
    list .furtherArguments [part .furtherArguments, dropped .comma, part .expression],
    list .shifts ([kept .shift] ++ condition ++ braced),
    list .shifts ([part .shifts, kept .shift] ++ condition ++ braced),
    list .parts [part .part],
    list .parts [part .parts, part .part] ]

def productions : List Production := statements ++ control ++ expressions ++ lists

end Grammar

end Spellbook
