import Spellbook.Value
import Spellbook.Fault

/-!
# Arithmetic of plain values

Whole numbers are unbounded and floats are doubles; a truth counts as one or zero. Where a whole
number meets a float it becomes the nearest float. Quotients and remainders are rounded downwards.
Results are made whole numbers or floats again by `Value.toInt` and `Value.toFloat`.
-/

namespace Spellbook

/-- A number. -/
inductive Num where
  | int (n : Int)
  | float (x : Float)
  deriving Repr

namespace Value

/-- A value as a number; a text is none. -/
def num? : Value → Option Num
  | int n => some (.int n)
  | float x => some (.float x)
  | truth b => some (.int (if b then 1 else 0))
  | text _ => none

def className (v : Value) : String := v.kind.name

end Value

/-- The float nearest to a whole number. -/
def floatOfInt (n : Int) : Fallible Float :=
  match floatOfInt? n with
  | some x => .ok x
  | none => .error .intTooLarge

namespace Num

def toValue : Num → Value
  | int n => .int n
  | float x => .float x

def toFloat : Num → Fallible Float
  | int n => floatOfInt n
  | float x => .ok x

/-- Applies an operation of whole numbers or, if a float takes part, an operation of floats. -/
def lift (onInt : Int → Int → Fallible Num) (onFloat : Float → Float → Fallible Num)
    (a b : Num) : Fallible Num :=
  match a, b with
  | int m, int n => onInt m n
  | a, b => do
    let x ← a.toFloat
    let y ← b.toFloat
    onFloat x y

def add : Num → Num → Fallible Num :=
  lift (fun m n => .ok (.int (m + n))) (fun x y => .ok (.float (x + y)))

def sub : Num → Num → Fallible Num :=
  lift (fun m n => .ok (.int (m - n))) (fun x y => .ok (.float (x - y)))

def mul : Num → Num → Fallible Num :=
  lift (fun m n => .ok (.int (m * n))) (fun x y => .ok (.float (x * y)))

def isZero : Num → Bool
  | int n => n == 0
  | float x => x == 0.0

/-- The quotient as a float; the divisor is not zero. -/
def div : Num → Num → Fallible Num :=
  lift
    (fun m n =>
      match floatOfQuotient? m n with
      | some x => .ok (.float x)
      | none => .error .quotientTooLarge)
    (fun x y => .ok (.float (x / y)))

/-- The quotient rounded down; the divisor is not zero. -/
def floorDiv : Num → Num → Fallible Num :=
  lift (fun m n => .ok (.int (m.fdiv n))) (fun x y => .ok (.float (floatFloorQuotient x y)))

/-- The remainder, which has the sign of the divisor. -/
def mod : Num → Num → Fallible Num :=
  lift
    (fun m n => if n = 0 then .error .moduloByZero else .ok (.int (m.fmod n)))
    (fun x y => if y == 0.0 then .error .floatModuloByZero else .ok (.float (floatModulo x y)))

end Num

/-- A power: a number, or a complex number, which the language does not have. -/
inductive Power where
  | real (n : Num)
  | complex
  deriving Repr

def positivePower (x y : Float) (negate : Bool) : Fallible Power :=
  let p := x.pow y
  if p.isInf then .error .powerTooLarge else .ok (.real (.float (if negate then -p else p)))

def floatPower (x y : Float) : Fallible Power :=
  let real (z : Float) : Fallible Power := .ok (.real (.float z))
  if y == 0.0 then real 1.0
  else if x.isNaN then real x
  else if y.isNaN then real (if x == 1.0 then 1.0 else y)
  else if y.isInf then
    if x.abs == 1.0 then real 1.0
    else if (y > 0.0) == (x.abs > 1.0) then real y.abs
    else real 0.0
  else if x.isInf then
    if y > 0.0 then real (if isOddWhole y then x else x.abs)
    else real (if isOddWhole y then zeroLike x else 0.0)
  else if x == 0.0 then
    if y < 0.0 then .error .zeroToNegative else real (if isOddWhole y then x else 0.0)
  else if x < 0.0 then
    if !isWhole y then
      if (x.abs.pow y).isInf then .error .complexPowerTooLarge else .ok .complex
    else if x == -1.0 then real (if isOddWhole y then -1.0 else 1.0)
    else positivePower x.abs y (isOddWhole y)
  else if x == 1.0 then real 1.0
  else positivePower x y false

/-- A power of numbers. A whole number to a negative power is a float. -/
def Num.pow (a b : Num) : Fallible Power :=
  match a, b with
  | .int m, .int n =>
    if 0 ≤ n then .ok (.real (.int (Int.pow m n.toNat)))
    else do
      let x ← floatOfInt m
      let y ← floatOfInt n
      floatPower x y
  | a, b => do
    let x ← a.toFloat
    let y ← b.toFloat
    floatPower x y

/-! ### Whole parts -/

/-- A float as a whole number, rounded in the given way. -/
def wholeOf (rounding : Dyadic → Int) (x : Float) : Fallible Int :=
  match FloatView.of x with
  | .nan => .error .notANumberToInt
  | .infinite _ => .error .infinityToInt
  | .finite d => .ok (rounding d)

/-- The ways to round. -/
inductive Rounding where
  | down
  | up
  | nearest
  deriving DecidableEq, Repr

def Rounding.rule : Rounding → Dyadic → Int
  | down => Dyadic.floor
  | up => Dyadic.ceil
  | nearest => Dyadic.round

namespace Value

def rounded (r : Rounding) (v : Value) : Fallible Int :=
  match v.num? with
  | some (.int n) => .ok n
  | some (.float x) => wholeOf r.rule x
  | none =>
    match r with
    | .nearest => .error (.notRoundable v.className)
    | _ => .error (.notReal v.className)

/-- Reads a whole number from a text that is shown as `shown` where it is none. -/
def readInt (s shown : String) : Fallible Int :=
  match Numeral.readInt s with
  | .ok n => .ok n
  | .error .notNumeral => .error (.notIntText shown)
  | .error (.tooManyDigits count) => .error (.tooLongToRead count)

/-- Reads a float from a text that is shown as `shown` where it is none. -/
def readFloat (s shown : String) : Fallible Float :=
  match Numeral.readFloat? s with
  | some x => .ok x
  | none => .error (.notFloatText shown)

/-- A value as a whole number: floats lose their fractional part, and texts are read. -/
def toInt : Value → Fallible Int
  | int n => .ok n
  | float x => wholeOf Dyadic.truncate x
  | truth b => .ok (if b then 1 else 0)
  | text s => readInt s (Text.quoted s)

def toFloat : Value → Fallible Float
  | int n => floatOfInt n
  | float x => .ok x
  | truth b => .ok (if b then 1.0 else 0.0)
  | text s => readFloat s (Text.quoted s)

/-! ### Operators -/

/-- The arithmetic operators. -/
inductive Operator where
  | plus
  | minus
  | times
  | divide
  | floorDivide
  | modulo
  | power
  deriving DecidableEq, Repr

/-- How an operator is written in messages. -/
def Operator.symbol : Operator → String
  | plus => "+"
  | minus => "-"
  | times => "*"
  | divide => "/"
  | floorDivide => "//"
  | modulo => "%"
  | power => "** or pow()"

/-- What an operation on plain values gives. -/
inductive Outcome where
  | value (v : Value)
  | complex
  deriving Repr

/-- The outcome of an operation on numbers. -/
def Outcome.ofNum (r : Fallible Num) : Fallible Outcome := r.map fun n => .value n.toValue

def applyNum (op : Operator) (a b : Num) : Fallible Outcome :=
  match op with
  | .plus => Outcome.ofNum (a.add b)
  | .minus => Outcome.ofNum (a.sub b)
  | .times => Outcome.ofNum (a.mul b)
  | .divide => if b.isZero then .error .divisionByZero else Outcome.ofNum (a.div b)
  | .floorDivide => if b.isZero then .error .divisionByZero else Outcome.ofNum (a.floorDiv b)
  | .modulo => Outcome.ofNum (a.mod b)
  | .power => (a.pow b).map fun
    | .real n => .value n.toValue
    | .complex => .complex

def repeatText (s : String) (n : Int) : String :=
  String.ofList (List.replicate n.toNat s.toList).flatten

/-- Applies an operator to plain values. A text takes part only in being repeated. -/
def apply (op : Operator) (a b : Value) : Fallible Outcome :=
  match a.num?, b.num? with
  | some m, some n => applyNum op m n
  | _, _ =>
    match op, a, b with
    | .times, int n, text s => .ok (.value (text (repeatText s n)))
    | .times, truth b, text s => .ok (.value (text (repeatText s (if b then 1 else 0))))
    | .times, float _, text _ => .error (.notRepeatable "float")
    | op, a, b => .error (.unsupported op.symbol a.className b.className)

/-- The division that is refused when two plain numbers are divided and the divisor is zero. -/
def refusedDivision? (op : Operator) (a b : Num) : Option String :=
  if !b.isZero then none
  else
    match op, a, b with
    | .divide, .int _, .int _ => some "division"
    | .divide, _, _ => some "float division"
    | .floorDivide, .int _, .int _ => some "integer division or modulo"
    | .floorDivide, _, _ => some "float floor division"
    | _, _, _ => none

/-- The bits that two whole numbers share. A negative number has endless ones. -/
def bitsOfBoth (m n : Int) : Int :=
  match m, n with
  | .ofNat a, .ofNat b => .ofNat (a &&& b)
  | .ofNat a, .negSucc b => .ofNat (a - (a &&& b))
  | .negSucc a, .ofNat b => .ofNat (b - (a &&& b))
  | .negSucc a, .negSucc b => .negSucc (a ||| b)

/-- The bits of either of two whole numbers. -/
def bitsOfEither (m n : Int) : Int := -(bitsOfBoth (-m - 1) (-n - 1)) - 1

/-- Makes an outcome a whole number. -/
def Outcome.toInt : Outcome → Fallible Int
  | value v => v.toInt
  | complex => .error (.notIntArgument "complex")

def Outcome.toFloat : Outcome → Fallible Float
  | value v => v.toFloat
  | complex => .error (.notFloatArgument "complex")

end Value

end Spellbook
