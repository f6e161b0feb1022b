/-!
# Floats as exact numbers

A finite float is a sign, a natural number and a power of two. `FloatView.of` takes a float apart,
and `nearestFloat` gives the float nearest to a fraction, halves going to the even neighbour. All
conversions between whole numbers and floats go through these two, so they are exact wherever the
result can be.
-/

namespace Spellbook

/-- The number `± mantissa · 2 ^ exponent`. -/
structure Dyadic where
  negative : Bool
  mantissa : Nat
  exponent : Int
  deriving DecidableEq, Repr

/-- What a float stands for. -/
inductive FloatView where
  | nan
  | infinite (negative : Bool)
  | finite (d : Dyadic)
  deriving DecidableEq, Repr

def FloatView.of (x : Float) : FloatView :=
  let bits := x.toBits.toNat
  let negative := bits / Nat.pow 2 63 == 1
  let field : Nat := bits / Nat.pow 2 52 % Nat.pow 2 11
  let fraction : Nat := bits % Nat.pow 2 52
  if field = 2047 then (if fraction = 0 then .infinite negative else .nan)
  else if field = 0 then .finite ⟨negative, fraction, -1074⟩
  else .finite ⟨negative, Nat.pow 2 52 + fraction, (field : Int) - 1075⟩

def signBits (negative : Bool) : Nat := if negative then Nat.pow 2 63 else 0

/-- The float of a bit pattern. -/
def floatOfBits (bits : Nat) : Float := Float.ofBits bits.toUInt64

def infinity (negative : Bool) : Float := floatOfBits (signBits negative + 2047 * Nat.pow 2 52)

def notANumber : Float := floatOfBits (2047 * Nat.pow 2 52 + Nat.pow 2 51)

/-- The quotient of two natural numbers, rounded to the nearest whole number; halves go to the even
neighbour. -/
def divRound (num den : Nat) : Nat :=
  let q := num / den
  let r := num % den
  if 2 * r < den then q
  else if den < 2 * r then q + 1
  else q + q % 2

/-- `num · 2 ^ e` and `den`, with a power of two moved to whichever side makes both whole. -/
def scaleByTwo (num den : Nat) (e : Int) : Nat × Nat :=
  if 0 ≤ e then (num * Nat.pow 2 e.toNat, den) else (num, den * Nat.pow 2 (-e).toNat)

theorem scaleByTwo_pos {num den : Nat} (hden : 0 < den) (e : Int) :
    0 < (scaleByTwo num den e).2 := by
  unfold scaleByTwo
  split
  · exact hden
  · exact Nat.mul_pos hden (Nat.pow_pos (by decide))

/-- The exponent `e` with `2 ^ e ≤ num / den < 2 ^ (e + 1)`. -/
def binaryOrder (num den : Nat) : Int :=
  let e := (num.log2 : Int) - den.log2
  let (n, d) := scaleByTwo num den (-e)
  if d ≤ n then e else e - 1

/-- The float nearest to `± num / den`; halves go to the even neighbour, and what is too large for
a float becomes infinite. -/
def nearestFloat (negative : Bool) (num den : Nat) : Float :=
  if num = 0 ∨ den = 0 then floatOfBits (signBits negative)
  else
    let q := max (binaryOrder num den - 52) (-1074)
    let (n, d) := scaleByTwo num den (-q)
    let m := divRound n d
    let (m, q) := if m = Nat.pow 2 53 then (Nat.pow 2 52, q + 1) else (m, q)
    if 971 < q then infinity negative
    else if m < Nat.pow 2 52 then floatOfBits (signBits negative + m)
    else floatOfBits (signBits negative + (q + 1075).toNat * Nat.pow 2 52 + (m - Nat.pow 2 52))

namespace Dyadic

/-- The number as a fraction, without its sign. -/
def fraction (d : Dyadic) : Nat × Nat := scaleByTwo d.mantissa 1 d.exponent

/-- Puts the sign on a natural number. -/
def signed (d : Dyadic) (n : Nat) : Int := if d.negative then -n else n

/-- The number without its fractional part. -/
def truncate (d : Dyadic) : Int :=
  let (n, k) := d.fraction
  d.signed (n / k)

/-- The greatest whole number that is not above. -/
def floor (d : Dyadic) : Int :=
  let (n, k) := d.fraction
  (d.signed n).fdiv k

/-- The least whole number that is not below. -/
def ceil (d : Dyadic) : Int :=
  let (n, k) := d.fraction
  Int.neg ((-d.signed n).fdiv k)

/-- The nearest whole number; halves go to the even neighbour. -/
def round (d : Dyadic) : Int :=
  let (n, k) := d.fraction
  d.signed (divRound n k)

/-- The order of a whole number and the number. -/
def compareInt (n : Int) (d : Dyadic) : Ordering :=
  let (m, k) := d.fraction
  compare (n * k) (d.signed m)

/-- The float that stands for the number. -/
def toFloat (d : Dyadic) : Float :=
  let (n, k) := d.fraction
  nearestFloat d.negative n k

/-- What remains of `x` when whole multiples of `y` are taken away towards zero; it has the sign
of `x`. -/
def remainder (x y : Dyadic) : Dyadic :=
  let e := min x.exponent y.exponent
  let m := x.mantissa * Nat.pow 2 (x.exponent - e).toNat
  let n := y.mantissa * Nat.pow 2 (y.exponent - e).toNat
  ⟨x.negative, m % n, e⟩

end Dyadic

/-! ### Whole numbers and floats -/

/-- The float nearest to a whole number, if it is not too large. -/
def floatOfInt? (n : Int) : Option Float :=
  let x := nearestFloat (n < 0) n.natAbs 1
  if x.isInf then none else some x

/-- The float nearest to a quotient of whole numbers, if it is not too large. The divisor is not
zero. -/
def floatOfQuotient? (a b : Int) : Option Float :=
  let x := nearestFloat ((a < 0) != (b < 0)) a.natAbs b.natAbs
  if x.isInf then none else some x

def zeroLike (x : Float) : Float :=
  floatOfBits (signBits (x.toBits.toNat / Nat.pow 2 63 == 1))

/-- What remains of `x` when whole multiples of `y` are taken away towards zero. -/
def floatRemainder (x y : Float) : Float :=
  match FloatView.of x, FloatView.of y with
  | .finite d, .finite e => if e.mantissa = 0 then notANumber else (d.remainder e).toFloat
  | .finite _, .infinite _ => x
  | _, _ => notANumber

/-- What remains of `x` when whole multiples of `y` are taken away downwards: it has the sign
of `y`. -/
def floatModulo (x y : Float) : Float :=
  let r := floatRemainder x y
  if r == 0.0 then zeroLike y
  else if (y < 0.0) != (r < 0.0) then r + y
  else r

/-- The quotient rounded down, as it is found from the remainder. -/
def floatFloorQuotient (x y : Float) : Float :=
  let r := floatRemainder x y
  let q := (x - r) / y
  let q := if r != 0.0 && (y < 0.0) != (r < 0.0) then q - 1.0 else q
  if q == 0.0 then zeroLike (x / y)
  else
    let f := q.floor
    if q - f > 0.5 then f + 1.0 else f

def isOddWhole (x : Float) : Bool :=
  match FloatView.of x with
  | .finite d =>
    let (n, k) := d.fraction
    n % k == 0 && n / k % 2 == 1
  | _ => false

def isWhole (x : Float) : Bool :=
  match FloatView.of x with
  | .finite d =>
    let (n, k) := d.fraction
    n % k == 0
  | _ => false

/-- The order of a whole number and a float; a float that is not a number has none. -/
def compareIntFloat (n : Int) (x : Float) : Option Ordering :=
  match FloatView.of x with
  | .nan => none
  | .infinite negative => some (if negative then .gt else .lt)
  | .finite d => some (d.compareInt n)

/-- The order of two floats; one that is not a number has none. -/
def compareFloats (x y : Float) : Option Ordering :=
  if x < y then some .lt else if x == y then some .eq else if y < x then some .gt else none

end Spellbook
