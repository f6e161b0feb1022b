import Spellbook.Datum.Text

/-!
# Comparisons of data

Numbers are compared exactly, whichever kinds they have, and texts by their characters. A
comparison is asked of the left operand; if that does not know it, the mirrored comparison is asked
of the right one.
-/

namespace Spellbook

/-- The comparisons. -/
inductive Comparison where
  | less
  | greater
  | atMost
  | atLeast
  | equal
  | unequal
  deriving DecidableEq, Repr

namespace Comparison

def symbol : Comparison → String
  | less => "<"
  | greater => ">"
  | atMost => "<="
  | atLeast => ">="
  | equal => "=="
  | unequal => "!="

def all : List Comparison := [less, greater, atMost, atLeast, equal, unequal]

def ofSymbol? (s : String) : Option Comparison := all.find? (·.symbol == s)

/-- The comparison seen from the other side. -/
def mirrored : Comparison → Comparison
  | less => greater
  | greater => less
  | atMost => atLeast
  | atLeast => atMost
  | equal => equal
  | unequal => unequal

/-- Whether a comparison asks for an order and not only for equality. -/
def isOrder : Comparison → Bool
  | equal | unequal => false
  | _ => true

/-- Whether a comparison holds of two things in the given order; without an order they are only
unequal. -/
def holds : Comparison → Option Ordering → Bool
  | less, o => o == some .lt
  | greater, o => o == some .gt
  | atMost, o => o == some .lt || o == some .eq
  | atLeast, o => o == some .gt || o == some .eq
  | equal, o => o == some .eq
  | unequal, o => o != some .eq

end Comparison

def Num.order : Num → Num → Option Ordering
  | .int m, .int n => some (compare m n)
  | .int m, .float y => compareIntFloat m y
  | .float x, .int n => (compareIntFloat n x).map Ordering.swap
  | .float x, .float y => compareFloats x y

/-- The order of two texts, by their characters. -/
def textOrder (s t : String) : Ordering :=
  if s < t then .lt else if s == t then .eq else .gt

namespace Value

def compare (c : Comparison) (a b : Value) : Fallible Bool :=
  match a.num?, b.num?, a, b with
  | some m, some n, _, _ => .ok (c.holds (m.order n))
  | _, _, text s, text t => .ok (c.holds (some (textOrder s t)))
  | _, _, a, b =>
    if c.isOrder then .error (.unordered c.symbol a.className b.className)
    else .ok (c == .unequal)

end Value

namespace Datum

/-- A comparison asked of a rune's value, if it knows it. Truths know no order. -/
def ownCompare? (c : Comparison) (v : Value) (other : Datum) : Option (Fallible Bool) :=
  match v with
  | .truth b =>
    match c with
    | .equal => some (other.truth.map (b == ·))
    | .unequal => some (other.truth.map (b != ·))
    | _ => none
  | v => some (do Value.compare c v (← other.content))

mutual

/-- Whether two data that are no rune's values are the same. -/
def same : Datum → Datum → Bool
  | nothing, nothing => true
  | bare v, bare w =>
    match Value.compare .equal v w with
    | .ok b => b
    | .error _ => false
  | tuple xs, tuple ys => sameAll xs ys
  | list xs, list ys => sameAll xs ys
  | _, _ => false

/-- Whether two lists of such data are the same. -/
def sameAll : List Datum → List Datum → Bool
  | [], [] => true
  | x :: xs, y :: ys => same x y && sameAll xs ys
  | _, _ => false

end

/-- A comparison that neither operand knows. -/
def otherCompare (c : Comparison) (a b : Datum) : Fallible Bool :=
  match c with
  | .equal => .ok (same a b)
  | .unequal => .ok !(same a b)
  | c => .error (.unordered c.symbol a.className b.className)

def compare (c : Comparison) (a b : Datum) : Fallible Bool :=
  match a, b with
  | bare v, bare w => Value.compare c v w
  | a, b =>
    let own := match a with
      | rune v => ownCompare? c v b
      | _ => none
    let others := match b with
      | rune w => ownCompare? c.mirrored w a
      | _ => none
    (own.or others).getD (otherCompare c a b)

end Datum

end Spellbook
