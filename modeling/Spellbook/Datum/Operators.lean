import Spellbook.Datum.Text

/-!
# Operators on data

The operators between two data. The left operand decides: if it is a rune's value that knows the
operator, the right operand is made a rune's value and the result has the kind that the left one
chooses. Otherwise the right operand is asked, and most operators then do not apply.
-/

namespace Spellbook
namespace Datum

open Value (Operator)

/-- A rune's text of two texts. -/
def joined (a b : String) : Datum := .rune (.text (a ++ b))

/-- What a whole number makes of an operator. A text that is added is joined to it; a true quotient
is a float, and everything else is a whole number again. -/
def intOperator (op : Operator) (n : Int) (other : Datum) : Fallible Datum := do
  let v ← other.toValue
  match op, v with
  | .plus, .text s => return joined (← Value.intText n) s
  | .divide, v => return .rune (.float (← (← Value.apply op (.int n) v).toFloat))
  | op, v => return .rune (.int (← (← Value.apply op (.int n) v).toInt))

/-- What a float makes of an operator: a float, except for the quotient that is rounded down. -/
def floatOperator (op : Operator) (x : Float) (other : Datum) : Fallible Datum := do
  let v ← other.toValue
  match op with
  | .floorDivide => return .rune (.int (← (← Value.apply op (.float x) v).toInt))
  | op => return .rune (.float (← (← Value.apply op (.float x) v).toFloat))

/-- What a rune's value makes of an operator, if it knows it. Texts and truths only know how to be
added to. -/
def ownOperator? (op : Operator) (v : Value) (other : Datum) : Option (Fallible Datum) :=
  match v, op with
  | .int n, op => some (intOperator op n other)
  | .float x, op => some (floatOperator op x other)
  | .text s, .plus => some (return joined s (← other.text))
  | .truth b, .plus => some (return joined (truthWord b) (← other.text))
  | _, _ => none

def isSequence : Datum → Bool
  | bare (.text _) | tuple _ | list _ => true
  | _ => false

/-- Whether a text can be filled in from the datum by key. -/
def isLookup : Datum → Bool
  | rune (.text _) | list _ => true
  | _ => false

/-- An operator between two bare values: texts are joined and repeated, and numbers are calculated
with. -/
def bareOperator (op : Operator) (symbol : String) (v w : Value) : Fallible Datum :=
  match op, v, w with
  | .plus, .text s, .text t => .ok (.word (s ++ t))
  | .plus, .text _, w => .error (.notJoinable "str" w.className)
  | .times, .text s, .int n => .ok (.word (Value.repeatText s n))
  | .times, .text s, .truth b => .ok (.word (Value.repeatText s (if b then 1 else 0)))
  | .times, .text _, w => .error (.notRepeatable w.className)
  | .modulo, .text _, _ => .error .leftoverArgument
  | op, v, w => do
    match v.num?, w.num? with
    | some m, some n =>
      match Value.refusedDivision? op m n with
      | some division => throw (.bareDivisionByZero division)
      | none => pure ()
    | _, _ => pure ()
    match ← Value.apply op v w with
    | .value u => return .bare u
    | .complex => .error (.unsupported symbol v.className w.className)

def otherOperator (op : Operator) (symbol : String) (a b : Datum) : Fallible Datum :=
  match op, a, b with
  | .plus, a, .rune (.truth c) => return joined (← a.text) (truthWord c)
  | op, .bare v, .bare w => bareOperator op symbol v w
  | .plus, .bare (.text _), b => .error (.notJoinable "str" b.className)
  | .plus, .list _, b => .error (.notJoinable "list" b.className)
  | .times, a, b =>
    if a.isSequence then .error (.notRepeatable b.className)
    else if b.isSequence then .error (.notRepeatable a.className)
    else .error (.unsupported symbol a.className b.className)
  | .modulo, .bare (.text s), b => if b.isLookup then .ok (.word s) else .error .leftoverArgument
  | _, a, b => .error (.unsupported symbol a.className b.className)

/-- Applies an operator that is written `symbol` in messages. -/
def operateAs (symbol : String) (op : Operator) (a b : Datum) : Fallible Datum :=
  match a with
  | .rune v => (ownOperator? op v b).getD (otherOperator op symbol a b)
  | a => otherOperator op symbol a b

def operate (op : Operator) (a b : Datum) : Fallible Datum := operateAs op.symbol op a b

/-- Applies an operator and keeps the result in the place of the left operand. -/
def operateInPlace (op : Operator) (a b : Datum) : Fallible Datum :=
  operateAs (match op with
    | .power => "**="
    | op => op.symbol ++ "=") op a b

/-! ### Conjunction and disjunction of truths -/

/-- The connectives. -/
inductive Connective where
  | both
  | either
  deriving DecidableEq, Repr

def Connective.symbol : Connective → String
  | both => "&"
  | either => "|"

def Connective.onBits : Connective → Int → Int → Int
  | both => Value.bitsOfBoth
  | either => Value.bitsOfEither

/-- The whole number whose bits a bare value has. -/
def bits? : Value → Option Int
  | .int n => some n
  | .truth b => some (if b then 1 else 0)
  | _ => none

/-- Applies a connective. The right operand is only asked if the left one does not decide. -/
def connect (c : Connective) (a b : Datum) : Fallible Datum :=
  match c, a, b with
  | .both, .rune (.truth false), _ => .ok (.rune (.truth false))
  | .either, .rune (.truth true), _ => .ok (.rune (.truth true))
  | _, .rune (.truth _), b => return .rune (.truth (← b.truth))
  | .both, .bare (.truth x), .bare (.truth y) => .ok (.bare (.truth (x && y)))
  | .either, .bare (.truth x), .bare (.truth y) => .ok (.bare (.truth (x || y)))
  | c, .bare v, .bare w =>
    match bits? v, bits? w with
    | some m, some n => .ok (.bare (.int (c.onBits m n)))
    | _, _ => .error (.unsupported c.symbol v.className w.className)
  | c, a, b => .error (.unsupported c.symbol a.className b.className)

/-! ### One operand -/

def negate : Datum → Fallible Datum
  | rune (.int n) => .ok (.rune (.int (-n)))
  | rune (.float x) => .ok (.rune (.float (-x)))
  | bare (.int n) => .ok (.bare (.int (-n)))
  | bare (.float x) => .ok (.bare (.float (-x)))
  | bare (.truth b) => .ok (.bare (.int (if b then -1 else 0)))
  | d => .error (.notUnary "-" d.className)

/-- The opposite of a truth; for bare whole numbers, the complement of the bits. -/
def invert : Datum → Fallible Datum
  | rune (.truth b) => .ok (.rune (.truth !b))
  | bare (.int n) => .ok (.bare (.int (-n - 1)))
  | bare (.truth b) => .ok (.bare (.int (if b then -2 else -1)))
  | d => .error (.notUnary "~" d.className)

/-! ### Members -/

/-- The number that can count members. -/
def index? : Datum → Option Int
  | bare (.int n) => some n
  | bare (.truth b) => some (if b then 1 else 0)
  | _ => none

/-- The member of a list with the given number; negative numbers count from the end. -/
def member {α : Type} (xs : List α) (n : Int) (absent : Fault) : Fallible α :=
  if n < -(Nat.pow 2 63 : Nat) ∨ (Nat.pow 2 63 : Nat) ≤ n then .error .indexTooLarge
  else
    let k := if n < 0 then n + xs.length else n
    if k < 0 then .error absent
    else
      match xs[k.toNat]? with
      | some x => .ok x
      | none => .error absent

/-- The character of a text with the given number, as a text. -/
def charAt (s : String) (index : Datum) : Fallible String :=
  match index.index? with
  | some n => (member s.toList n .textIndexOutOfRange).map String.singleton
  | none => .error (.badTextIndex index.className)

/-- The member of a sequence with the given number. -/
def itemAt (sequence : String) (items : List Datum) (index : Datum) : Fallible Datum :=
  match index.index? with
  | some n => member items n (.listIndexOutOfRange sequence)
  | none => .error (.badListIndex sequence index.className)

/-- The member of a datum with the given number. -/
def item (d index : Datum) : Fallible Datum :=
  match d with
  | rune (.text s) => return .rune (.text (← charAt s index))
  | bare (.text s) => return .word (← charAt s index)
  | tuple items => itemAt "tuple" items index
  | list items => itemAt "list" items index
  | d => .error (.notIndexable d.className)

/-! ### Transmutation -/

/-- Makes a value one of the kind with the given name. -/
def transmute (v : Value) (target : String) : Fallible Value :=
  match target with
  | "bool" =>
    match v with
    | .truth b => .ok (.truth b)
    | .int n => .ok (.truth (n != 0))
    | .float x => .ok (.truth (x != 0.0))
    | .text s => .ok (.truth (s != ""))
  | "int" =>
    match v with
    | .text s =>
      match Numeral.readInt s with
      | .ok n => .ok (.int n)
      | .error _ => .error (.cannotCastText s target)
    | v => v.toInt.map .int
  | "float" =>
    match v with
    | .text s =>
      match Numeral.readFloat? s with
      | some x => .ok (.float x)
      | none => .error (.cannotCastText s target)
    | v => v.toFloat.map .float
  | "string" => v.runeText.map .text
  | target =>
    let source := match v with
      | .text _ => "string"
      | v => v.kind.name
    .error (.cannotCast source target)

/-- Makes a rune's value one of the kind with the given name. -/
def castTo (d target : Datum) : Fallible Datum :=
  match d, target with
  | rune v, .bare (.text target) => (transmute v target).map .rune
  | formless, _ => .error .noCasting
  | rune v, _ => (transmute v "").map .rune
  | d, _ => .error (.noAttribute d.className "cast_to")

end Datum
end Spellbook
