import Spellbook.Value.Arithmetic
import Spellbook.Number.Logarithm

/-!
# Texts, lengths and truths of data

What a datum is as a text, how long it is, whether it counts as true, and which rune's value it
becomes.
-/

namespace Spellbook

namespace Value

/-- The text of a whole number, unless it has too many digits. -/
def intText (n : Int) : Fallible String :=
  match Numeral.intText? n with
  | some s => .ok s
  | none => .error .tooLongToWrite

def runeText : Value → Fallible String
  | int n => intText n
  | float x => .ok (floatText x)
  | text s => .ok s
  | truth b => .ok (truthWord b)

def bareText : Value → Fallible String
  | int n => intText n
  | float x => .ok (floatText x)
  | text s => .ok s
  | truth b => .ok (if b then "True" else "False")

def bareShown : Value → Fallible String
  | text s => .ok (Text.quoted s)
  | v => v.bareText

def runeShown (v : Value) : Fallible String :=
  v.runeText.map fun s => "<" ++ v.runeClass ++ ": " ++ s ++ ">"

/-- The length of a whole number: one more than its logarithm, without the fractional part. Which
float stands for the logarithm is a matter of the machine's `log`. -/
def intLength (n : Int) (log : Nat → Fraction := logTen) : Fallible Int :=
  if n ≤ 0 then .error .outsideDomain else .ok (log n.toNat).succ.significant.whole

/-- The length of a float: the digits of its text with six decimals, without the zeros at the end
of the decimals. -/
def floatLength (x : Float) : Int :=
  let cs := (floatFixedText x 6).toList.reverse
  let cs := (cs.dropWhile (· == '0')).dropWhile (· == '.')
  (cs.filter fun c => c != '-' && c != '.').length

def runeLength (v : Value) (log : Nat → Fraction := logTen) : Fallible Int :=
  match v with
  | int n => intLength n log
  | float x => .ok (floatLength x)
  | text s => .ok s.length
  | truth _ => .error (.unmeasurable Kind.truth.name)

/-- Whether a rune's value counts as true: numbers and texts do unless their length is zero. -/
def runeTruth (v : Value) (log : Nat → Fraction := logTen) : Fallible Bool :=
  match v with
  | truth b => .ok b
  | v => (v.runeLength log).map (· != 0)

def bareTruth : Value → Bool
  | int n => n != 0
  | float x => x != 0.0
  | text s => s != ""
  | truth b => b

end Value

namespace Datum

mutual

def shown : Datum → Fallible String
  | nothing => .ok "None"
  | rune v => v.runeShown
  | bare v => v.bareShown
  | tuple items => do
    let ss ← shownAll items
    return "(" ++ ", ".intercalate ss ++ (if ss.length = 1 then ",)" else ")")
  | list items => do
    let ss ← shownAll items
    return "[" ++ ", ".intercalate ss ++ "]"
  | formless => .error (.noAttribute "ScrollValue" "value")

/-- Several data as they are shown inside others. -/
def shownAll : List Datum → Fallible (List String)
  | [] => .ok []
  | d :: ds => do
    let s ← d.shown
    let ss ← shownAll ds
    return s :: ss

end

def text : Datum → Fallible String
  | rune v => v.runeText
  | bare v => v.bareText
  | d => d.shown

def length (d : Datum) (log : Nat → Fraction := logTen) : Fallible Int :=
  match d with
  | rune v => v.runeLength log
  | bare (.text s) => .ok s.length
  | tuple items => .ok items.length
  | list items => .ok items.length
  | formless => .error (.noClassAttribute "ScrollValue" "type_name")
  | d => .error (.noLength d.className)

/-- Whether a datum counts as true. -/
def truth : Datum → Fallible Bool
  | nothing => .ok false
  | rune v => v.runeTruth
  | bare v => .ok v.bareTruth
  | tuple items => .ok !items.isEmpty
  | list items => .ok !items.isEmpty
  | formless => .error (.noClassAttribute "ScrollValue" "type_name")

/-- The rune's value that a datum becomes. -/
def toValue : Datum → Fallible Value
  | nothing => .error .nothingToWrap
  | rune v => .ok v
  | bare v => .ok v
  | formless => .error (.noAttribute "ScrollValue" "value")
  | d => .error (.notWrappable d.className)

/-- Makes a datum a rune's value. -/
def wrap : Datum → Fallible Datum
  | formless => .ok formless
  | d => d.toValue.map rune

def content : Datum → Fallible Value
  | rune v => .ok v
  | d => .error (.noAttribute d.className "value")

/-- The kind of a rune's value. -/
def kind : Datum → Fallible Kind
  | rune v => .ok v.kind
  | d => .error (.noAttribute d.className "type_name")

/-- Whether a rune's value is a number. -/
def isNumber (d : Datum) : Fallible Bool := d.kind.map Kind.isNumber

/-- The content of the argument from which a number is made. -/
def argument (refusal : String → Fault) : Datum → Fallible Value
  | bare v => .ok v
  | d => .error (refusal d.className)

def makeInt (d : Datum) : Fallible Datum := do
  let v ← d.argument .notIntArgument
  return .rune (.int (← v.toInt))

def makeFloat (d : Datum) : Fallible Datum := do
  let v ← d.argument .notFloatArgument
  return .rune (.float (← v.toFloat))

def makeText (d : Datum) : Fallible Datum := return .rune (.text (← d.text))

/-- Makes a truth; a bare text is true if it is the word for it. -/
def makeTruth : Datum → Fallible Datum
  | bare (.text s) => .ok (.rune (.truth (s == truthWord true)))
  | d => return .rune (.truth (← d.truth))

end Datum

end Spellbook
