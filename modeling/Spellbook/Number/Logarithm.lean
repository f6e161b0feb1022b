import Spellbook.Number.Shortest

/-!
# Common logarithms

The common logarithm of a natural number, to the digits that a float has. It is worked out in whole
numbers: powers of ten are counted off for the digits before the point, and each binary digit behind
it is one if the square of what is left reaches ten. Numbers from one on have logarithms without a
sign, so fractions of natural numbers are enough.
-/

namespace Spellbook

/-- A fraction of natural numbers. -/
structure Fraction where
  num : Nat
  den : Nat
  den_pos : 0 < den
  deriving DecidableEq, Repr

namespace Fraction

/-- A natural number as a fraction. -/
def ofNat (n : Nat) : Fraction := ⟨n, 1, Nat.one_pos⟩

def half : Fraction := ⟨1, 2, by decide⟩

/-- The part before the point. -/
def whole (x : Fraction) : Nat := x.num / x.den

def succ (x : Fraction) : Fraction := ⟨x.num + x.den, x.den, x.den_pos⟩

def mul (x y : Fraction) : Fraction :=
  ⟨x.num * y.num, x.den * y.den, Nat.mul_pos x.den_pos y.den_pos⟩

/-- The difference, or zero if the second fraction is greater. -/
def sub (x y : Fraction) : Fraction :=
  ⟨x.num * y.den - y.num * x.den, x.den * y.den, Nat.mul_pos x.den_pos y.den_pos⟩

def reciprocal (x : Fraction) : Fraction :=
  if h : 0 < x.num then ⟨x.den, x.num, h⟩ else x

/-- The fraction to 53 binary digits, as many as a float has; halves go to the even neighbour. -/
def significant (x : Fraction) : Fraction :=
  let q := binaryOrder x.num x.den - 52
  let s := scaleByTwo x.num x.den (-q)
  let r := scaleByTwo (divRound s.1 s.2) 1 q
  ⟨r.1, r.2, scaleByTwo_pos Nat.one_pos q⟩

/-! ### Logarithms -/

/-- The binary places of what is squared. -/
def workingPlaces : Nat := 256

/-- The binary digits of a logarithm behind the point. -/
def logPlaces : Nat := 128

/-- The next binary digits of the logarithm of `y`, which has `workingPlaces` binary places and is
less than ten, after the digits `done`. -/
def logDigits : Nat → Nat → Nat → Nat
  | 0, done, _ => done
  | count + 1, done, y =>
    let square := y * y / Nat.pow 2 workingPlaces
    if 10 * Nat.pow 2 workingPlaces ≤ square then logDigits count (2 * done + 1) (square / 10)
    else logDigits count (2 * done) square

/-- The common logarithm of a fraction that is not less than one. -/
def commonLog (x : Fraction) : Fraction :=
  let k := (Decimal.decimalOrder x.num x.den - 1).toNat
  let y := x.num * Nat.pow 2 workingPlaces / (x.den * Nat.pow 10 k)
  significant ⟨logDigits logPlaces k y, Nat.pow 2 logPlaces, Nat.pow_pos (by decide)⟩

end Fraction

/-- The common logarithm of a positive whole number. One that is too large for a float is split into
a fraction from one half to one and a power of two, whose logarithms are added. -/
def logTen (n : Nat) : Fraction :=
  let x := (Fraction.ofNat n).significant
  if x.num < x.den * Nat.pow 2 1024 then x.commonLog
  else
    let e := n.log2 + 1
    let x := Fraction.significant ⟨n, Nat.pow 2 e, Nat.pow_pos (by decide)⟩
    let (x, e) := if x.num = x.den then (Fraction.half, e + 1) else (x, e)
    -- the logarithm of the fraction is negative
    let power := ((Fraction.ofNat 2).commonLog.mul (Fraction.ofNat e).significant).significant
    (power.sub x.reciprocal.commonLog).significant

end Spellbook
