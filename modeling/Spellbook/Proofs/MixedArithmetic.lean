import Spellbook.Proofs.Compound
import Spellbook.Proofs.Rounding

/-!
# Mixed arithmetic

What becomes of the sum, the difference or the product of two numbers, rounded or not. Plain
arithmetic (`RingOp.plain`) calculates with whole numbers exactly and with floats as soon as one
takes part. If the left operand is a float or the right one is whole, the plain result is kept and
rounded as the operator says. If the left operand is whole and the right one a float, the plain
result loses its fractional part before it is rounded, so that nothing is left to round
(`mixed_arithmetic`).
-/

namespace Spellbook

/-- Addition, subtraction and multiplication. -/
inductive RingOp where
  | plus
  | minus
  | times
  deriving DecidableEq, Repr

namespace RingOp

def operator : RingOp → Value.Operator
  | plus => .plus
  | minus => .minus
  | times => .times

/-- The operation on whole numbers. -/
def onInts : RingOp → Int → Int → Int
  | plus => (· + ·)
  | minus => (· - ·)
  | times => (· * ·)

def onFloats : RingOp → Float → Float → Float
  | plus => (· + ·)
  | minus => (· - ·)
  | times => (· * ·)

/-- The operation on plain numbers. A whole number that meets a float becomes one, unless it is too
large. -/
def plain (s : RingOp) : Num → Num → Fallible Num
  | .int m, .int n => .ok (.int (s.onInts m n))
  | .int m, .float y => do return .float (s.onFloats (← floatOfInt m) y)
  | .float x, .int n => do return .float (s.onFloats x (← floatOfInt n))
  | .float x, .float y => .ok (.float (s.onFloats x y))

/-- How the operation is written, with the sign of the rounding before it. -/
def written (s : RingOp) (rounding : Option Rounding) : String :=
  (match rounding with
    | none => ""
    | some .down => "/"
    | some .up => "^"
    | some .nearest => "~") ++
  (match s with
    | plus => "+"
    | minus => "-"
    | times => "*")

theorem ofOperator?_written (s : RingOp) (rounding : Option Rounding) :
    Calculation.ofOperator? (s.written rounding) = some ⟨s.operator, rounding⟩ := by
  cases s <;> rcases rounding with _ | _ | _ | _ <;> decide

theorem apply_eq (s : RingOp) (a b : Num) :
    Value.apply s.operator a.toValue b.toValue = (s.plain a b).map fun c => .value c.toValue := by
  cases s <;> cases a <;> cases b <;> rfl

/-- The plain result is made a number of the kind of the left operand. -/
theorem reckon_eq (s : RingOp) (a b : Num) : Value.reckon s.operator a.toValue b.toValue =
    s.plain a b >>= fun c => (Value.Outcome.value c.toValue).toKind a.toValue.kind := by
  have hkind : s.operator.resultKind a.toValue.kind = a.toValue.kind := by cases s <;> rfl
  rw [Value.reckon, apply_eq, hkind]
  cases s.plain a b <;> rfl

end RingOp

/-! ### Numbers made whole -/

/-- `GivesWhole P m c r`: the run `r` made the number `c` whole and left `m`. A whole number stays
as it is, a float becomes a whole number to which `P` relates it, and a float that is not finite
makes the run fail. -/
inductive GivesWhole (P : ℚ → ℤ → Prop) (m : Machine) : Num → Ending Datum × Machine → Prop
  | int (n : Int) : GivesWhole P m (.int n) (.done (.rune (.int n)), m)
  | finite {x : Float} {d : Dyadic} {z : Int} (hx : FloatView.of x = .finite d) (hz : P d.toRat z) :
      GivesWhole P m (.float x) (.done (.rune (.int z)), m)
  | infinite {x : Float} {negative : Bool} (hx : FloatView.of x = .infinite negative) :
      GivesWhole P m (.float x) (.failed .infinityToInt, m)
  | nan {x : Float} (hx : FloatView.of x = .nan) :
      GivesWhole P m (.float x) (.failed .notANumberToInt, m)

theorem givesWhole_wholeOf {P : ℚ → ℤ → Prop} {rule : Dyadic → Int}
    (hrule : ∀ d : Dyadic, P d.toRat (rule d)) (m : Machine) (x : Float) :
    GivesWhole P m (.float x)
    ((liftM (((wholeOf rule x).map Value.int).map Datum.rune) : Spell Datum) m) := by
  unfold wholeOf
  cases hx : FloatView.of x with
  | nan => exact .nan hx
  | infinite negative => exact .infinite hx
  | finite d => exact .finite hx (hrule d)

/-! ### What is left of the plain result -/

def wholeBeforeFloat : Num → Num → Bool
  | .int _, .float _ => true
  | _, _ => false

/-- `LeftOf rounding a b m plain r`: the run `r` of a calculation on `a` and `b` came to what is
left of the plain result, and left `m`. -/
inductive LeftOf (rounding : Option Rounding) (a b : Num) (m : Machine) :
    Fallible Num → Ending Datum × Machine → Prop
  | failed (f : Fault) : LeftOf rounding a b m (.error f) (.failed f, m)
  /-- the plain result itself -/
  | kept (c : Num) (hab : wholeBeforeFloat a b = false) (hr : rounding = none) :
      LeftOf rounding a b m (.ok c) (.done (.rune c.toValue), m)
  /-- the plain result, rounded -/
  | rounded {c : Num} {way : Rounding} {r : Ending Datum × Machine}
      (hab : wholeBeforeFloat a b = false)
      (hr : rounding = some way) (h : GivesWhole way.Rounds m c r) : LeftOf rounding a b m (.ok c) r
  /-- the plain result without its fractional part, however it was to be rounded -/
  | cut {c : Num} {r : Ending Datum × Machine} (hab : wholeBeforeFloat a b = true)
      (h : GivesWhole CutsOff m c r) : LeftOf rounding a b m (.ok c) r

def reckoned (s : RingOp) (rounding : Option Rounding) (a b : Num) : Spell Datum :=
  liftM (((⟨s.operator, rounding⟩ : Calculation).apply a.toValue b.toValue).map Datum.rune)

theorem Num.isNumber (a : Num) : a.toValue.kind.isNumber = true := by cases a <;> rfl

/-- What is made of the plain result `c` if the left operand has the given kind. -/
def Num.finished (left : Kind) (rounding : Option Rounding) (c : Num) : Fallible Value :=
  (Value.Outcome.value c.toValue).toKind left >>= fun v =>
    match rounding with
    | none => .ok v
    | some way => (v.rounded way).map .int

section
variable (s : RingOp) (rounding : Option Rounding) (m : Machine)

theorem reckoned_eq (a b : Num) : reckoned s rounding a b =
    liftM ((s.plain a b >>= Num.finished a.toValue.kind rounding).map Datum.rune) := by
  rw [reckoned, Calculation.apply_numbers a.isNumber b.isNumber, RingOp.reckon_eq]
  cases s.plain a b <;> rfl

theorem leftOf_ints (p q : Int) : LeftOf rounding (.int p) (.int q) m (s.plain (.int p) (.int q))
    (reckoned s rounding (.int p) (.int q) m) := by
  rw [reckoned_eq]
  cases rounding with
  | none => exact .kept (.int (s.onInts p q)) rfl rfl
  | some way => exact .rounded rfl rfl (.int (s.onInts p q))

/-- A whole number before a float cuts the fractional part off before anything is rounded. -/
theorem leftOf_int_float (p : Int) (y : Float) : LeftOf rounding (.int p) (.float y) m
    (s.plain (.int p) (.float y)) (reckoned s rounding (.int p) (.float y) m) := by
  have hplain : s.plain (.int p) (.float y) = (floatOfInt p).map fun x =>
      .float (s.onFloats x y) := by
    show floatOfInt p >>= _ = (floatOfInt p).map _
    cases floatOfInt p <;> rfl
  have hcut (z : Float) : (Num.float z).finished .int rounding =
      (wholeOf Dyadic.truncate z).map .int := by
    show (wholeOf Dyadic.truncate z).map Value.int >>= _ = _
    cases wholeOf Dyadic.truncate z with
    | error f => rfl
    | ok w => cases rounding <;> rfl
  rw [reckoned_eq, hplain]
  cases floatOfInt p with
  | error f => exact .failed f
  | ok x =>
    have hwhole := givesWhole_wholeOf Dyadic.cutsOff_truncate m (s.onFloats x y)
    rw [← hcut] at hwhole
    exact .cut rfl hwhole

/-- A float keeps the plain result, and rounds it if asked to. -/
theorem leftOf_float (x : Float) (b : Num) : LeftOf rounding (.float x) b m (s.plain (.float x) b)
    (reckoned s rounding (.float x) b m) := by
  have hplain : s.plain (.float x) b = b.toFloat.map fun y => .float (s.onFloats x y) := by
    cases b with
    | int q =>
      show floatOfInt q >>= _ = (floatOfInt q).map _
      cases floatOfInt q <;> rfl
    | float y => rfl
  have hab : wholeBeforeFloat (.float x) b = false := by cases b <;> rfl
  rw [reckoned_eq, hplain]
  cases b.toFloat with
  | error f => exact .failed f
  | ok y =>
    cases rounding with
    | none => exact .kept (.float (s.onFloats x y)) hab rfl
    | some way => exact .rounded hab rfl (givesWhole_wholeOf way.rounds_rule m (s.onFloats x y))

end

section
variable {s : RingOp} {rounding : Option Rounding} {a b : Num} {l r : Tree} {n k : Nat}
  {m m₁ m₂ : Machine}
  (hl : l.meaning n m = (.done (.rune a.toValue), m₁))
    (hr : r.meaning n m₁ = (.done (.rune b.toValue), m₂))
  (hk : n < k)
include hl hr hk

/-- Operands that evaluate to numbers are calculated with, whatever fuel is left over. -/
theorem meaning_calculation {op : String} {c : Calculation}
    (hop : Calculation.ofOperator? op = some c) :
    (Tree.operation op l r).meaning k m =
      (liftM ((c.apply a.toValue b.toValue).map Datum.rune) : Spell Datum) m₂ := by
  have hn : n ≠ 0 := by
    rintro rfl
    cases hl
  obtain ⟨j, rfl⟩ : ∃ j, k = j + 2 := ⟨k - 2, by omega⟩
  exact meaning_operation (Tree.meaning_of_le (by omega) nofun hl)
    (Tree.meaning_of_le (by omega) nofun hr) a.isNumber b.isNumber hop

theorem meaning_written :
    (Tree.operation (s.written rounding) l r).meaning k m = reckoned s rounding a b m₂ :=
  meaning_calculation hl hr hk (RingOp.ofOperator?_written s rounding)

/-- **What mixed arithmetic keeps.** Two operands that evaluate to numbers are added, subtracted or
multiplied as plain numbers are. The result is kept, and rounded if the operator says so, unless the
left operand is whole and the right one a float: then the result loses its fractional part, and is
not rounded in any other way. -/
theorem mixed_arithmetic :
    LeftOf rounding a b m₂ (s.plain a b)
    ((Tree.operation (s.written rounding) l r).meaning k m) := by
  rw [meaning_written hl hr hk]
  match a, b with
  | .int p, .int q => exact leftOf_ints s rounding m₂ p q
  | .int p, .float y => exact leftOf_int_float s rounding m₂ p y
  | .float x, b => exact leftOf_float s rounding m₂ x b

end

/-- A product of a float and a whole number is rounded up. -/
theorem mixed_arithmetic_halves :
    (Tree.leaf .decimal "2.5").meaning 1 {} = (.done (.rune (.float 2.5)), {}) ∧
      (Tree.leaf .whole "3").meaning 1 {} = (.done (.rune (.int 3)), {}) ∧
      LeftOf (some .up) (.float 2.5) (.int 3) {} (RingOp.times.plain (.float 2.5) (.int 3))
        ((Tree.operation "^*" (.leaf .decimal "2.5") (.leaf .whole "3")).meaning 2 {}) :=
  ⟨rfl, rfl, mixed_arithmetic (n := 1) rfl rfl (by decide)⟩

/-- One and a half is the plain sum of one and a half, but a whole one before the half keeps only
one, also if the sum is to be rounded up. -/
theorem half_is_lost :
    RingOp.plus.plain (.int 1) (.float 0.5) = .ok (.float 1.5) ∧
      (∃ d : Dyadic, FloatView.of 1.5 = .finite d ∧ d.toRat = 3 / 2) ∧
      (Tree.operation "+" (.leaf .whole "1") (.leaf .decimal "0.5")).meaning 2 {} =
        (.done (.rune (.int 1)), {}) ∧
      (Tree.operation "^+" (.leaf .whole "1") (.leaf .decimal "0.5")).meaning 2 {} =
        (.done (.rune (.int 1)), {}) := by
  refine ⟨rfl, ⟨⟨false, 6755399441055744, -52⟩, rfl, ?_⟩, rfl, rfl⟩
  norm_num [Dyadic.toRat, Dyadic.signed]

end Spellbook
