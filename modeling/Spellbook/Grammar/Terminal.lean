import Spellbook.Grammar.Pattern

/-!
# Terminals

The terminals of the language, the name each carries in a tree, its spelling, and the order in
which a lexer tries them (`Terminal.trialOrder`).
-/

namespace Spellbook

/-- The terminals of the language. -/
inductive Terminal where
  | decimal | whole | quoted | incantation | truth | transmute | infinitum | foretell | proclaim
  | shatter | persist | resolve | betwixt | measure | mayhaps | dataType | sealedWord | dispel
  | listen | reveal | shift | cycle | tome | days | fromWord | castWord | rune | sealWord | lest
  | yore | ad | arrow | ofWord
  | name
  | prose | blanks | remark | compoundOp | mulOp | addOp | compareOp | stepOp
  | both | openText | either | openCall | closeCall | indexMark | roundOp
  | caret | colon | comma | equals | quote | closeBrace | openBrace | openParen | openBracket
  | minus | bang | closeParen | closeBracket | semicolon | tilde | bar
  | textEnd
  deriving DecidableEq, Repr

namespace Terminal

/-- The terminals in the order in which a lexer tries them: the first that fits wins, whether or
not a later one would take more. The end of the text is not tried. -/
def trialOrder : List Terminal :=
  [decimal, whole, quoted, incantation, truth, transmute, infinitum, foretell, proclaim,
   shatter, persist, resolve, betwixt, measure, mayhaps, dataType, sealedWord, dispel,
   listen, reveal, shift, cycle, tome, days, fromWord, castWord, rune, sealWord, lest,
   yore, ad, arrow, ofWord,
   name,
   prose, blanks, remark, compoundOp, mulOp, addOp, compareOp, stepOp,
   both, openText, either, openCall, closeCall, indexMark, roundOp,
   caret, colon, comma, equals, quote, closeBrace, openBrace, openParen, openBracket,
   minus, bang, closeParen, closeBracket, semicolon, tilde, bar]

/-- The name a token of this terminal carries in a tree and in the report of a syntax error. -/
def label : Terminal → String
  | decimal => "FLOAT"
  | whole => "INTEGER"
  | quoted => "STRING"
  | incantation => "FUNC_DEF"
  | truth => "BOOLEAN"
  | transmute => "CAST"
  | infinitum => "INFINITUM"
  | foretell => "IF"
  | proclaim => "RETURN"
  | shatter => "BREAK"
  | persist => "CONTINUE"
  | resolve => "ELSE"
  | betwixt => "IN"
  | measure => "LENGTH"
  | mayhaps => "MAYBE"
  | dataType => "DATA_TYPE"
  | sealedWord => "DECL_CONST"
  | dispel => "DELETE"
  | listen => "INPUT"
  | reveal => "PRINT"
  | shift => "ELIF"
  | cycle => "LOOP"
  | tome => "ARRAY"
  | days => "DAYS"
  | fromWord => "FROM"
  | castWord => "FUNC_CALL"
  | rune => "LET"
  | sealWord => "MAKE_CONST"
  | lest => "UNTIL"
  | yore => "YORE"
  | ad => "AD"
  | arrow => "AS"
  | ofWord => "OF"
  | name => "VARIABLE"
  | prose => "INTERP_TEXT"
  | blanks => "WS"
  | remark => "COMMENT"
  | compoundOp => "CMP_INCR_OP"
  | mulOp => "MUL_OP"
  | addOp => "ADD_OP"
  | compareOp => "COMP_OP"
  | stepOp => "INCR_OP"
  | both => "AND"
  | openText => "ESCAPED_STRING_START"
  | either => "OR"
  | openCall => "__ANON_0"
  | closeCall => "__ANON_1"
  | indexMark => "__ANON_2"
  | roundOp => "ROUND_OP"
  | caret => "CIRCUMFLEX"
  | colon => "COLON"
  | comma => "COMMA"
  | equals => "EQUAL"
  | quote => "ESCAPED_STRING_END"
  | closeBrace => "INTERP_EXPR_END"
  | openBrace => "INTERP_EXPR_START"
  | openParen => "LPAR"
  | openBracket => "LSQB"
  | minus => "MINUS"
  | bang => "NOT"
  | closeParen => "RPAR"
  | closeBracket => "RSQB"
  | semicolon => "SEMICOLON"
  | tilde => "TILDE"
  | bar => "VBAR"
  | textEnd => "$END"

/-- The spelling of a terminal. The end of the text has none. -/
def pattern : Terminal → Pattern
  | decimal => .decimal
  | whole => .whole
  | quoted => .quoted
  | incantation => .exactly "incantation".toList
  | truth => .firstOf ["Truthsung".toList, "Falsehood".toList]
  | transmute => .exactly "transmute".toList
  | infinitum => .exactly "infinitum".toList
  | foretell => .exactly "foretell".toList
  | proclaim => .exactly "proclaim".toList
  | shatter => .exactly "shatter".toList
  | persist => .exactly "persist".toList
  | resolve => .exactly "resolve".toList
  | betwixt => .exactly "betwixt".toList
  | measure => .exactly "measure".toList
  | mayhaps => .exactly "mayhaps".toList
  | dataType => .firstOf ["string".toList, "float".toList, "bool".toList, "int".toList]
  | sealedWord => .exactly "sealed".toList
  | dispel => .exactly "dispel".toList
  | listen => .exactly "listen".toList
  | reveal => .exactly "reveal".toList
  | shift => .exactly "shift".toList
  | cycle => .exactly "cycle".toList
  | tome => .exactly "tome".toList
  | days => .exactly "days".toList
  | fromWord => .exactly "from".toList
  | castWord => .exactly "cast".toList
  | rune => .exactly "rune".toList
  | sealWord => .exactly "seal".toList
  | lest => .exactly "lest".toList
  | yore => .exactly "yore".toList
  | ad => .exactly "ad".toList
  | arrow => .exactly "->".toList
  | ofWord => .exactly "of".toList
  | name => .name
  | prose => .prose
  | blanks => .blanks
  | remark => .remark
  | compoundOp => .firstOf
      ["/+=".toList, "^+=".toList, "~+=".toList, "/-=".toList, "^-=".toList, "~-=".toList,
       "/*=".toList, "^*=".toList, "~*=".toList, "//=".toList, "^/=".toList, "~/=".toList,
       "/^=".toList, "^^=".toList, "~^=".toList, "/%=".toList, "^%=".toList, "~%=".toList,
       "+=".toList, "-=".toList, "*=".toList, "/=".toList, "^=".toList, "%=".toList]
  | mulOp => .firstOf
      ["/*".toList, "//".toList, "^*".toList, "^/".toList, "~*".toList, "~/".toList,
       "/%".toList, "^%".toList, "~%".toList, "*".toList, "/".toList, "%".toList]
  | addOp => .firstOf
      ["/+".toList, "/-".toList, "^+".toList, "^-".toList, "~+".toList, "~-".toList,
       "+".toList, "-".toList]
  | compareOp => .firstOf
      ["<=".toList, ">=".toList, "==".toList, "!=".toList, "<".toList, ">".toList]
  | stepOp => .firstOf ["++".toList, "--".toList]
  | both => .exactly "&&".toList
  | openText => .exactly "$\"".toList
  | either => .exactly "||".toList
  | openCall => .exactly "~:".toList
  | closeCall => .exactly ":~".toList
  | indexMark => .exactly "::".toList
  | roundOp => .firstOf ["~".toList, "/".toList, "^".toList]
  | caret => .exactly "^".toList
  | colon => .exactly ":".toList
  | comma => .exactly ",".toList
  | equals => .exactly "=".toList
  | quote => .exactly "\"".toList
  | closeBrace => .exactly "\x7d".toList
  | openBrace => .exactly "\x7b".toList
  | openParen => .exactly "(".toList
  | openBracket => .exactly "[".toList
  | minus => .exactly "-".toList
  | bang => .exactly "!".toList
  | closeParen => .exactly ")".toList
  | closeBracket => .exactly "]".toList
  | semicolon => .exactly ";".toList
  | tilde => .exactly "~".toList
  | bar => .exactly "|".toList
  | textEnd => .exactly []

/-- How strongly a lexer prefers a terminal. Words and literals come before names, and names
before everything else; within a rank, `trialOrder` puts the longer spelling first. -/
def rank : Terminal → Nat
  | decimal | whole | quoted | incantation | truth | transmute | infinitum | foretell | proclaim
  | shatter | persist | resolve | betwixt | measure | mayhaps | dataType | sealedWord | dispel
  | listen | reveal | shift | cycle | tome | days | fromWord | castWord | rune | sealWord | lest
  | yore | ad | arrow | ofWord => 2
  | name => 1
  | _ => 0

/-- Whether a lexer drops the terminal's lexemes. -/
def isSkipped : Terminal → Bool
  | blanks | remark => true
  | _ => false

def spelling? (t : Terminal) : Option (List Char) := t.pattern.spelling?

/-- `t.absorbs s`: the class of texts `t` takes the fixed spelling of `s`, which has the same
rank. Where both are possible, `t` is matched, and a lexeme spelled like `s` is an `s`. -/
def absorbs (t s : Terminal) : Bool :=
  t.spelling?.isNone && t.rank == s.rank &&
    match s.spelling? with
    | some w => t.pattern.takesAll w
    | none => false

/-- All terminals, the end of the text included. -/
def all : List Terminal := trialOrder ++ [textEnd]

theorem mem_all (t : Terminal) : t ∈ all := by
  cases t <;> decide

def ofLabel? (label : String) : Option Terminal := all.find? (·.label == label)

/-- The number of a terminal, by which a set of terminals is held in the bits of a number. -/
def code (t : Terminal) : Nat := t.ctorIdx

end Terminal

end Spellbook
