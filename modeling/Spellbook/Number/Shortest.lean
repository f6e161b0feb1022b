import Spellbook.Number.Dyadic

/-!
# The decimal text of a float

A float is written with the fewest digits that read back to it, and of those texts with the
nearest. `Decimal.shortest` finds the digits by exact arithmetic: on the grid of decimals with one
digit, two digits, and so on, it looks at the two neighbours of the number, and takes the first
that lies among the reals that round to the float.
-/

namespace Spellbook

/-- The number `0.d₁d₂…dₙ · 10 ^ point`, where `d₁…dₙ` are the digits of `digits`. -/
structure Decimal where
  digits : Nat
  point : Int
  deriving DecidableEq, Repr

namespace Decimal

/-- The digits of a natural number as text. -/
def natText (n : Nat) : String := String.ofList (Nat.toDigits 10 n)

/-- `num · 10 ^ e` and `den`, with a power of ten moved to whichever side makes both whole. -/
def scaleByTen (num den : Nat) (e : Int) : Nat × Nat :=
  if 0 ≤ e then (num * Nat.pow 10 e.toNat, den) else (num, den * Nat.pow 10 (-e).toNat)

/-- The exponent `p` with `10 ^ (p - 1) ≤ num / den < 10 ^ p`. -/
def decimalOrder (num den : Nat) : Int :=
  let reaches (p : Int) : Bool :=
    let (n, d) := scaleByTen num den (-p)
    d ≤ n
  let guess := Int.fdiv (binaryOrder num den * 30103) 100000
  if reaches (guess + 1) then guess + 2
  else if reaches guess then guess + 1
  else if reaches (guess - 1) then guess
  else guess - 1

/-- The reals that round to a float, in quarters of its unit: from `low` to `high`. -/
structure Interval where
  low : Nat
  middle : Nat
  high : Nat
  closed : Bool

/-- The reals that round to `mantissa · 2 ^ exponent`. Below a power of two the next float is
nearer. -/
def Interval.of (mantissa : Nat) (exponent : Int) : Interval :=
  { low := if mantissa = Nat.pow 2 52 ∧ exponent ≠ -1074 then 4 * mantissa - 1 else 4 * mantissa - 2
    middle := 4 * mantissa
    high := 4 * mantissa + 2
    closed := mantissa % 2 == 0 }

/-- Removes the zeros at the end of a natural number. -/
def stripZeros : Nat → Nat → Nat
  | 0, n => n
  | fuel + 1, n => if n ≠ 0 ∧ n % 10 = 0 then stripZeros fuel (n / 10) else n

/-- The neighbour of the number on the grid with `count` digits that lies in the interval, if there
is one; of two, the nearer, and of two that are equally near the even one. The interval is given as
fractions with the denominator `den`. -/
def onGrid (count : Nat) (point : Int) (low middle high den : Nat) (closed : Bool) : Option Nat :=
  -- in units of the grid, the number is `middle · 10 ^ (count - point) / den`
  let e := (count : Int) - point
  let (middle', den') := scaleByTen middle den e
  let (low', _) := scaleByTen low den e
  let (high', _) := scaleByTen high den e
  let below := middle' / den'
  let above := below + 1
  let fits (c : Nat) : Bool :=
    if closed then low' ≤ c * den' && c * den' ≤ high' else low' < c * den' && c * den' < high'
  if fits below && fits above then
    let toBelow := middle' - below * den'
    let toAbove := above * den' - middle'
    if toAbove < toBelow ∨ (toAbove = toBelow ∧ below % 2 = 1) then some above else some below
  else if fits below then some below
  else if fits above then some above
  else none

/-- The first grid with a neighbour in the interval, from `count` digits on. -/
def firstGrid : Nat → Nat → Int → Nat → Nat → Nat → Nat → Bool → Nat × Nat
  | 0, count, _, _, middle, _, den, _ => (middle / den, count)
  | fuel + 1, count, point, low, middle, high, den, closed =>
    match onGrid count point low middle high den closed with
    | some digits => (digits, count)
    | none => firstGrid fuel (count + 1) point low middle high den closed

/-- The fewest digits that read back to `mantissa · 2 ^ exponent`, which is not zero. -/
def shortest (mantissa : Nat) (exponent : Int) : Decimal :=
  let i := Interval.of mantissa exponent
  let (unit, den) := scaleByTwo 1 1 (exponent - 2)
  let point := decimalOrder (i.middle * unit) den
  let (digits, count) :=
    firstGrid 17 1 point (i.low * unit) (i.middle * unit) (i.high * unit) den i.closed
  -- a neighbour above may have one digit more
  let point := point + (natText digits).length - count
  ⟨stripZeros 20 digits, point⟩

/-! ### Layout -/

/-- How a decimal is laid out: positionally while the point lies between two bounds, otherwise with
one digit before the point and an exponent. -/
structure Layout where
  leastPoint : Int
  greatestPoint : Int
  exponentDigits : Nat

/-- Positional from a ten-thousandth up to below ten to the sixteenth; exponents have a sign and at
least two digits. -/
def Layout.plain : Layout := ⟨-3, 16, 2⟩

def zeros (n : Nat) : String := String.ofList (List.replicate n '0')

/-- Fills a text with zeros from the left. -/
def padLeft (width : Nat) (s : String) : String := zeros (width - s.length) ++ s

def render (l : Layout) (d : Decimal) : String :=
  let ds := natText d.digits
  let n := ds.length
  if d.point < l.leastPoint ∨ l.greatestPoint < d.point then
    let e := d.point - 1
    let mantissa := match ds.toList with
      | [] => ""
      | [c] => String.singleton c
      | c :: cs => String.singleton c ++ "." ++ String.ofList cs
    mantissa ++ "e" ++ (if e < 0 then "-" else "+") ++ padLeft l.exponentDigits (natText e.natAbs)
  else if d.point ≤ 0 then "0." ++ zeros (-d.point).toNat ++ ds
  else if (n : Int) ≤ d.point then ds ++ zeros (d.point.toNat - n) ++ ".0"
  else String.ofList (ds.toList.take d.point.toNat) ++ "." ++
    String.ofList (ds.toList.drop d.point.toNat)

end Decimal

def signText (negative : Bool) : String := if negative then "-" else ""

def floatText (x : Float) : String :=
  match FloatView.of x with
  | .nan => "nan"
  | .infinite negative => signText negative ++ "inf"
  | .finite d =>
    signText d.negative ++
      (if d.mantissa = 0 then "0.0"
       else (Decimal.shortest d.mantissa d.exponent).render .plain)

/-- The text of a fraction with a fixed number of decimals, rounded to nearest; halves go to the
even neighbour. -/
def fixedText (num den places : Nat) : String :=
  let ds := Decimal.padLeft (places + 1) (Decimal.natText (divRound (num * Nat.pow 10 places) den))
  let front := ds.length - places
  String.ofList (ds.toList.take front) ++
    (if places = 0 then "" else "." ++ String.ofList (ds.toList.drop front))

/-- The text of a float with a fixed number of decimals. -/
def floatFixedText (x : Float) (places : Nat) : String :=
  match FloatView.of x with
  | .nan => "nan"
  | .infinite negative => signText negative ++ "inf"
  | .finite d =>
    let (n, k) := d.fraction
    signText d.negative ++ fixedText n k places

/-- The float nearest to `x` rounded to a fixed number of decimals. -/
def floatRoundTo (x : Float) (places : Nat) : Float :=
  match FloatView.of x with
  | .finite d =>
    let (n, k) := d.fraction
    nearestFloat d.negative (divRound (n * Nat.pow 10 places) k) (Nat.pow 10 places)
  | _ => x

end Spellbook
