import Spellbook.Text.Quoted
import Spellbook.Text.Escape
import Spellbook.Number.Numeral

/-!
# Faults

Why an evaluation fails. A fault is a cause; `Fault.title` is the name under which it is reported
and `Fault.message` its wording.
-/

namespace Spellbook

/-- Why an evaluation fails. -/
inductive Fault where
  -- runes and incantations
  | alreadyWritten (name : String)
  | alreadyDeclared (incantation : String)
  | notWritten (name : String)
  | dormant (name : String)
  | noPast (name : String)
  | sealedRune (name : String)
  | cannotTransmute (source target : String)
  | fundamental (name : String)
  | unknownSpell (spell : String)
  | unknownIncantation (name : String)
  | wrongCount (incantation : String) (expected got : Nat)
  | mismatchedSum (left right : String)
  | mismatchedStep (kind op : String)
  | mismatchedCompound (kind op right : String)
  | mismatchedIndex (kind index : String)
  | mismatchedRange (start stop step : String)
  | badRatio (left right : Int)
  | unmeasurable (kind : String)
  /-- a tree that has no meaning -/
  | amiss (name : String)
  -- numbers
  | divisionByZero
  | bareDivisionByZero (division : String)
  | moduloByZero
  | floatModuloByZero
  | zeroToNegative
  | outsideDomain
  | notANumberToInt
  | infinityToInt
  | intTooLarge
  | quotientTooLarge
  | powerTooLarge
  | complexPowerTooLarge
  | tooLongToWrite
  | tooLongToRead (digits : Nat)
  | notIntText (shown : String)
  | notFloatText (shown : String)
  -- operands
  | unsupported (op left right : String)
  | unordered (op left right : String)
  | notJoinable (onto other : String)
  | notRepeatable (times : String)
  | notUnary (op operand : String)
  | notReal (operand : String)
  | notRoundable (operand : String)
  | notIntArgument (operand : String)
  | notFloatArgument (operand : String)
  | noLength (operand : String)
  | notIndexable (operand : String)
  | badTextIndex (index : String)
  | badListIndex (sequence index : String)
  | leftoverArgument
  | noAttribute (owner field : String)
  | noClassAttribute (owner field : String)
  | nothingToWrap
  | notWrappable (kind : String)
  | notAKey (kind : String)
  | cannotCast (source target : String)
  | cannotCastText (text target : String)
  | noCasting
  -- texts, sequences and input
  | textIndexOutOfRange
  | listIndexOutOfRange (sequence : String)
  | indexTooLarge
  | noSuchKey (name : String)
  | tooFewParts (expected got : Nat)
  | tooManyParts (expected : Nat)
  | notParts (operand : String)
  | brokenEscape (broken : Text.Escape.Broken)
  | inputEnded
  deriving DecidableEq, Repr

namespace Fault

/-- The name under which a fault is reported. -/
def title : Fault → String
  | alreadyWritten _ | alreadyDeclared _ => "RuneAlreadyWrittenError"
  | notWritten _ => "RuneNotWrittenError"
  | dormant _ => "DormantRuneError"
  | noPast _ => "NoPastError"
  | sealedRune _ => "SealedRuneError"
  | cannotTransmute _ _ => "TransmutationError"
  | fundamental _ => "FundamentalRuneError"
  | unknownSpell _ | unknownIncantation _ => "UnknownSpellError"
  | wrongCount _ _ _ | mismatchedSum _ _ | mismatchedStep _ _ | mismatchedCompound _ _ _
  | mismatchedIndex _ _ | mismatchedRange _ _ _ | badRatio _ _ => "CarelessSpellError"
  | unmeasurable _ => "MeasureError"
  | amiss _ => "ScrollError"
  | divisionByZero | bareDivisionByZero _ | moduloByZero | floatModuloByZero | zeroToNegative =>
    "ZeroDivisionError"
  | outsideDomain | notANumberToInt | tooLongToWrite | tooLongToRead _ | notIntText _
  | notFloatText _ | cannotCast _ _ | cannotCastText _ _ | tooFewParts _ _
  | tooManyParts _ => "ValueError"
  | infinityToInt | intTooLarge | quotientTooLarge | powerTooLarge
  | complexPowerTooLarge => "OverflowError"
  | unsupported _ _ _ | unordered _ _ _ | notJoinable _ _ | notRepeatable _ | notUnary _ _
  | notReal _ | notRoundable _ | notIntArgument _ | notFloatArgument _ | noLength _
  | notIndexable _ | badTextIndex _ | badListIndex _ _ | leftoverArgument | nothingToWrap
  | notWrappable _ | notAKey _ | notParts _ => "TypeError"
  | noAttribute _ _ | noClassAttribute _ _ => "AttributeError"
  | noCasting => "NotImplementedError"
  | textIndexOutOfRange | listIndexOutOfRange _ | indexTooLarge => "IndexError"
  | noSuchKey _ => "KeyError"
  | brokenEscape _ => "UnicodeDecodeError"
  | inputEnded => "EOFError"

/-- Whether a fault is one of the language's own, rather than one of its values and texts. -/
def isOwn : Fault → Bool
  | alreadyWritten _ | alreadyDeclared _ | notWritten _ | dormant _ | noPast _ | sealedRune _
  | cannotTransmute _ _ | fundamental _ | unknownSpell _ | unknownIncantation _ | wrongCount _ _ _
  | mismatchedSum _ _ | mismatchedStep _ _ | mismatchedCompound _ _ _ | mismatchedIndex _ _
  | mismatchedRange _ _ _ | badRatio _ _ | unmeasurable _ | amiss _ => true
  | _ => false

/-- The end of the messages about a careless spell. -/
def invalid : String := " is an invalid incantation."

def named (s : String) : String := "'" ++ s ++ "'"

/-- What is wrong with an escape, in words. -/
def reasonText : Text.Escape.Reason → String
  | .endsInBackslash => "\\ at end of string"
  | .shortX => "truncated \\xXX escape"
  | .shortU => "truncated \\uXXXX escape"
  | .shortLongU => "truncated \\UXXXXXXXX escape"
  | .beyondRange => "illegal Unicode character"
  | .malformedName => "malformed \\N character escape"
  | .unknownName => "unknown Unicode character name"

def escapeText (b : Text.Escape.Broken) : String :=
  let range :=
    if b.first = b.last then "byte 0x5c in position " ++ Decimal.natText b.first
    else "bytes in position " ++ Decimal.natText b.first ++ "-" ++ Decimal.natText b.last
  "'unicodeescape' codec can't decode " ++ range ++ ": " ++ reasonText b.reason

/-- The text of a whole number in a message. -/
def intText (n : Int) : String := signText (n < 0) ++ Decimal.natText n.natAbs

/-- The wording of the limit on digits. -/
def limitText (detail : String) : String :=
  "Exceeds the limit (" ++ Decimal.natText Numeral.digitLimit ++
    " digits) for integer string conversion" ++ detail ++
    "; use sys.set_int_max_str_digits() to increase the limit"

def message : Fault → String
  | alreadyWritten name => "The rune " ++ named name ++ " is already written."
  | alreadyDeclared name =>
    "The rune " ++ named ("Function " ++ named name ++ " already declared.") ++
      " is already written."
  | notWritten name => "The rune " ++ named name ++ " has not yet been written."
  | dormant name => "The rune " ++ named name ++ " is dormant, and cannot yet be used."
  | noPast name => "The rune " ++ named name ++ " has no past."
  | sealedRune name => "The rune " ++ named name ++ " is sealed."
  | cannotTransmute source target =>
    "Failed to transmute from " ++ named source ++ " to " ++ named target ++ "."
  | fundamental name =>
    named name ++ " is fundamental to the arcane, and may not be confined to a rune."
  | unknownSpell spell => "Unknown spell:" ++ named spell
  | unknownIncantation name =>
    "Unknown spell:" ++ named ("Function " ++ named name ++ " not found.")
  | wrongCount name expected got =>
    "Function " ++ named name ++ " expected " ++ Decimal.natText expected ++
      " arguments but got " ++ Decimal.natText got ++ "."
  | mismatchedSum left right => named left ++ " + " ++ named right ++ invalid
  | mismatchedStep kind op => named kind ++ " " ++ op ++ invalid
  | mismatchedCompound kind op right => named kind ++ " " ++ op ++ " " ++ named right ++ invalid
  | mismatchedIndex kind index => named kind ++ "::" ++ index ++ invalid
  | mismatchedRange start stop step =>
    named start ++ " -> " ++ named stop ++ " | " ++ named step ++ invalid
  | badRatio left right => named (intText left) ++ " : " ++ named (intText right) ++ invalid
  | unmeasurable kind => named kind ++ " runes cannot be measured."
  | amiss name => "Something is amiss in the arcane (" ++ name ++ ")."
  | divisionByZero => "The arcane winds forbid division by zero."
  | bareDivisionByZero division => division ++ " by zero"
  | moduloByZero => "integer modulo by zero"
  | floatModuloByZero => "float modulo"
  | zeroToNegative => "0.0 cannot be raised to a negative power"
  | outsideDomain => "math domain error"
  | notANumberToInt => "cannot convert float NaN to integer"
  | infinityToInt => "cannot convert float infinity to integer"
  | intTooLarge => "int too large to convert to float"
  | quotientTooLarge => "integer division result too large for a float"
  | powerTooLarge => "(34, 'Numerical result out of range')"
  | complexPowerTooLarge => "complex exponentiation"
  | tooLongToWrite => limitText ""
  | tooLongToRead digits => limitText (": value has " ++ Decimal.natText digits ++ " digits")
  | notIntText shown =>
    "invalid literal for int() with base 10: " ++ String.ofList (shown.toList.take 200)
  | notFloatText shown => "could not convert string to float: " ++ shown
  | unsupported op left right =>
    "unsupported operand type(s) for " ++ op ++ ": " ++ named left ++ " and " ++ named right
  | unordered op left right =>
    named op ++ " not supported between instances of " ++ named left ++ " and " ++ named right
  | notJoinable onto other =>
    "can only concatenate " ++ onto ++ " (not \"" ++ other ++ "\") to " ++ onto
  | notRepeatable times => "can't multiply sequence by non-int of type " ++ named times
  | notUnary op operand => "bad operand type for unary " ++ op ++ ": " ++ named operand
  | notReal operand => "must be real number, not " ++ operand
  | notRoundable operand => "type " ++ operand ++ " doesn't define __round__ method"
  | notIntArgument operand =>
    "int() argument must be a string, a bytes-like object or a real number, not " ++ named operand
  | notFloatArgument operand =>
    "float() argument must be a string or a real number, not " ++ named operand
  | noLength operand => "object of type " ++ named operand ++ " has no len()"
  | notIndexable operand => named operand ++ " object is not subscriptable"
  | badTextIndex index => "string indices must be integers, not " ++ named index
  | badListIndex sequence index =>
    sequence ++ " indices must be integers or slices, not " ++ index
  | leftoverArgument => "not all arguments converted during string formatting"
  | noAttribute owner field =>
    named owner ++ " object has no attribute " ++ named field
  | noClassAttribute owner field =>
    "type object " ++ named owner ++ " has no attribute " ++ named field
  | nothingToWrap => "Cannot wrap a dormant rune (None) into a ScrollValue."
  | notWrappable kind => "Unsupported type: <class " ++ named kind ++ ">"
  | notAKey kind => "unhashable type: " ++ named kind
  | cannotCast source target => "Cannot cast " ++ source ++ " to " ++ target
  | cannotCastText text target => "Cannot cast string " ++ named text ++ " to " ++ target
  | noCasting => "Casting not implemented for this type."
  | textIndexOutOfRange => "string index out of range"
  | listIndexOutOfRange sequence => sequence ++ " index out of range"
  | indexTooLarge => "cannot fit 'int' into an index-sized integer"
  | noSuchKey name => Text.quoted name
  | tooFewParts expected got =>
    "not enough values to unpack (expected " ++ Decimal.natText expected ++ ", got " ++
      Decimal.natText got ++ ")"
  | tooManyParts expected =>
    "too many values to unpack (expected " ++ Decimal.natText expected ++ ")"
  | notParts operand => "cannot unpack non-iterable " ++ operand ++ " object"
  | brokenEscape broken => escapeText broken
  | inputEnded => "EOF when reading a line"

end Fault

/-- A computation that may fail. -/
abbrev Fallible (α : Type) := Except Fault α

end Spellbook
