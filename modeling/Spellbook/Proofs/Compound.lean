import Spellbook.Proofs.Fuel
import Spellbook.Proofs.Names
import Spellbook.Proofs.Past

/-!
# Compound steps

A compound step changes a rune by a calculation, and so does an assignment of the operator's
expression to the rune. Both are followed down to the `Calculation` that they make of the two
numbers (`meaning_compound`, `meaning_operation`), so they agree wherever the two tables of
operators do (`compound_agrees_with_operation`). The tables differ in the remainders that are
rounded (`rounded_remainders`).
-/

namespace Spellbook

/-! ### Operators on numbers -/

/-- The kind of what an operator gives; but for two operators it is that of the left operand. -/
def Value.Operator.resultKind (op : Value.Operator) (left : Kind) : Kind :=
  match op with
  | .divide => .float
  | .floorDivide => .int
  | _ => left

/-- The outcome of a calculation as a value of the given kind of number. -/
def Value.Outcome.toKind (k : Kind) (r : Value.Outcome) : Fallible Value :=
  if k = .int then r.toInt.map .int else r.toFloat.map .float

/-- What two numbers give under an operator. -/
def Value.reckon (op : Value.Operator) (a b : Value) : Fallible Value :=
  Value.apply op a b >>= Value.Outcome.toKind (op.resultKind a.kind)

namespace Datum

theorem map_toKind_int (r : Value.Outcome) :
    (r.toKind .int).map rune = (do return .rune (.int (← r.toInt))) := by
  show (r.toInt.map Value.int).map rune = _
  cases r.toInt <;> rfl

theorem map_toKind_float (r : Value.Outcome) :
    (r.toKind .float).map rune = (do return .rune (.float (← r.toFloat))) := by
  show (r.toFloat.map Value.float).map rune = _
  cases r.toFloat <;> rfl

/-- A value is reckoned by its operator and then made the kind of the result. -/
theorem map_reckon (op : Value.Operator) (a b : Value) :
    (Value.reckon op a b).map rune =
      Value.apply op a b >>= fun r => (r.toKind (op.resultKind a.kind)).map rune := by
  rw [Value.reckon]
  cases Value.apply op a b <;> rfl

/-- A whole number is operated on by reckoning if the other side is a number. -/
theorem intOperator_eq {b : Value} (hb : b.kind.isNumber = true) (op : Value.Operator) (n : Int) :
    intOperator op n (.rune b) = (Value.reckon op (.int n) b).map rune := by
  rw [map_reckon]
  cases op with
  | plus =>
    cases b with
    | int k =>
      exact congrArg (Value.apply .plus (.int n) (.int k) >>= ·)
        (funext fun r => (map_toKind_int r).symm)
    | float y => exact congrArg _ (funext fun r => (map_toKind_int r).symm)
    | text _ | truth _ => cases hb
  | divide => exact congrArg _ (funext fun r => (map_toKind_float r).symm)
  | minus | times | floorDivide | modulo | power =>
    exact congrArg _ (funext fun r => (map_toKind_int r).symm)

/-- A float is operated on by reckoning. -/
theorem floatOperator_eq (op : Value.Operator) (x : Float) (b : Value) :
    floatOperator op x (.rune b) = (Value.reckon op (.float x) b).map rune := by
  rw [map_reckon]
  cases op with
  | floorDivide => exact congrArg _ (funext fun r => (map_toKind_int r).symm)
  | plus | minus | times | divide | modulo | power =>
    exact congrArg _ (funext fun r => (map_toKind_float r).symm)

/-- Two numbers are calculated with as plain values, and the result is made one of the kind that the
left one chooses. -/
theorem operate_numbers {a b : Value} (ha : a.kind.isNumber = true) (hb : b.kind.isNumber = true)
    (op : Value.Operator) : (rune a).operate op (.rune b) = (Value.reckon op a b).map rune := by
  cases a with
  | int n => exact intOperator_eq hb op n
  | float x => exact floatOperator_eq op x b
  | text s => cases ha
  | truth b => cases ha

end Datum

/-- A calculation on numbers rounds what they give under its operator. -/
theorem Calculation.apply_numbers {a b : Value} (ha : a.kind.isNumber = true)
    (hb : b.kind.isNumber = true) (c : Calculation) :
    c.apply a b = Value.reckon c.op a b >>= fun v =>
      match c.rounding with
      | none => .ok v
      | some r => (v.rounded r).map .int := by
  rw [Calculation.apply, Datum.operate_numbers ha hb]
  cases Value.reckon c.op a b with
  | error f => rfl
  | ok v =>
    cases c.rounding with
    | none => rfl
    | some r =>
      show (do return Value.int (← v.rounded r)) = (v.rounded r).map .int
      cases v.rounded r <;> rfl

/-! ### Operators between two operands -/

def Tree.operation (op : String) (l r : Tree) : Tree :=
  if op = "^" then .form .power [l, r]
  else if op.toList ∈ Terminal.addOp.pattern.texts then .form .sum [l, .leaf .addOp op, r]
  else .form .product [l, .leaf .mulOp op, r]

def Calculation.ofOperator? (op : String) : Option Calculation :=
  if op = "^" then some ⟨.power, none⟩
  else if op.toList ∈ Terminal.addOp.pattern.texts then ofSum? op
  else ofProduct? op

theorem Spell.liftM_bind_pure {α β : Type} (x : Fallible α) (f : α → β) (m : Machine) :
    (liftM x >>= fun a => pure (f a) : Spell β) m = (liftM (x.map f) : Spell β) m := by
  cases x <;> rfl

section
variable {op : String} {c : Calculation} {l r : Tree} {x y : Datum} {a b : Value} {n : Nat}
  {m m₁ m₂ : Machine}
  (hl : l.meaning (n + 1) m = (.done x, m₁)) (hr : r.meaning (n + 1) m₁ = (.done y, m₂))
include hl hr

/-- Two operands and the operator between them are run from left to right. -/
theorem runThree_operands {t : Terminal} (ht : t.use = .ownText) :
    runThree (Tree.meaning (n + 1)) [l, .leaf t op, r] m = (.done (x, .word op, y), m₂) := by
  have htoken : (Tree.leaf t op).meaning (n + 1) m₁ = (.done (.word op), m₁) := by
    rw [Tree.meaning, Tree.meaningWith, tokenMeaning, ht]
    rfl
  have hlast : runAll (Tree.meaning (n + 1)) [r] m₁ = (.done [y], m₂) := Spell.bind_of_done hr
  have hrest : runAll (Tree.meaning (n + 1)) [.leaf t op, r] m₁ = (.done [.word op, y], m₂) :=
    (Spell.bind_of_done htoken).trans (Spell.bind_of_done hlast)
  have hall : runAll (Tree.meaning (n + 1)) [l, .leaf t op, r] m = (.done [x, .word op, y], m₂) :=
    (Spell.bind_of_done hl).trans (Spell.bind_of_done hrest)
  exact Spell.bind_of_done hall

variable (hx : x.toValue = .ok a) (hy : y.toValue = .ok b)
include hx hy

/-- A sum of numbers is calculated, and one of other values is joined. -/
theorem meaning_sum (hop : Calculation.ofSum? op = some c) :
    (Tree.form .sum [l, .leaf .addOp op, r]).meaning (n + 2) m =
      if a.kind.isNumber && b.kind.isNumber then (liftM ((c.apply a b).map .rune) : Spell Datum) m₂
      else (.failed (.mismatchedSum a.kind.name b.kind.name), m₂) := by
  refine (Spell.bind_of_done (runThree_operands hl hr rfl)).trans ?_
  dsimp only
  rw [hx, hy]
  show (if !(a.kind.isNumber && b.kind.isNumber) then _ else _ : Spell Datum) m₂ = _
  cases a.kind.isNumber && b.kind.isNumber with
  | false => rfl
  | true =>
    rw [if_neg (by decide), if_pos rfl]
    refine (Spell.bind_of_done (x := liftM (operatorText (.word op))) rfl).trans ?_
    rw [hop]
    exact Spell.liftM_bind_pure _ _ m₂

/-- A product or quotient is calculated. -/
theorem meaning_product (hop : Calculation.ofProduct? op = some c) :
    (Tree.form .product [l, .leaf .mulOp op, r]).meaning (n + 2) m =
      (liftM ((c.apply a b).map .rune) : Spell Datum) m₂ := by
  refine (Spell.bind_of_done (runThree_operands hl hr rfl)).trans ?_
  dsimp only
  rw [hx, hy]
  refine (Spell.bind_of_done (x := liftM (Except.ok a)) rfl).trans ?_
  refine (Spell.bind_of_done (x := liftM (Except.ok b)) rfl).trans ?_
  refine (Spell.bind_of_done (x := liftM (operatorText (.word op))) rfl).trans ?_
  rw [hop]
  exact Spell.liftM_bind_pure _ _ m₂

theorem meaning_power : (Tree.form .power [l, r]).meaning (n + 2) m =
    (liftM ((Datum.rune a).operate .power (.rune b)) : Spell Datum) m₂ := by
  have hleft : runPart (Tree.meaning (n + 1)) [l, r] 0 m = (.done x, m₁) := hl
  have hright : runPart (Tree.meaning (n + 1)) [l, r] 1 m₁ = (.done y, m₂) := hr
  refine (Spell.bind_of_done hleft).trans <| (Spell.bind_of_done hright).trans ?_
  rw [hx, hy]
  rfl

end

section
variable {op : String} {c : Calculation} {l r : Tree} {a b : Value} {n : Nat} {m m₁ m₂ : Machine}
  (hl : l.meaning (n + 1) m = (.done (.rune a), m₁)) (hr : r.meaning (n + 1) m₁ =
    (.done (.rune b), m₂))
include hl hr

/-- An operator between two numbers gives what its calculation does. -/
theorem meaning_operation (ha : a.kind.isNumber = true) (hb : b.kind.isNumber = true)
    (hop : Calculation.ofOperator? op = some c) :
    (Tree.operation op l r).meaning (n + 2) m =
      (liftM ((c.apply a b).map .rune) : Spell Datum) m₂ := by
  rw [Calculation.ofOperator?] at hop
  rw [Tree.operation]
  by_cases hpower : op = "^"
  · rw [if_pos hpower] at hop ⊢
    cases hop
    rw [meaning_power hl hr rfl rfl, Calculation.apply_numbers ha hb, Datum.operate_numbers ha hb]
    cases Value.reckon .power a b <;> rfl
  · rw [if_neg hpower] at hop ⊢
    by_cases hsum : op.toList ∈ Terminal.addOp.pattern.texts
    · rw [if_pos hsum] at hop ⊢
      rw [meaning_sum hl hr rfl rfl hop, ha, hb]
      rfl
    · rw [if_neg hsum] at hop ⊢
      exact meaning_product hl hr rfl rfl hop

end

/-- An operation fails with its left side. -/
theorem meaning_operation_of_failed {op : String} {l r : Tree} {f : Fault} {n : Nat}
    {m m₁ : Machine} (hl : l.meaning n m = (.failed f, m₁)) :
    (Tree.operation op l r).meaning (n + 1) m = (.failed f, m₁) := by
  rw [Tree.operation]
  split
  · exact Spell.bind_of_failed hl
  · split
    · exact Spell.bind_of_failed (Spell.bind_of_failed (Spell.bind_of_failed hl))
    · exact Spell.bind_of_failed (Spell.bind_of_failed (Spell.bind_of_failed hl))

/-! ### Changing a rune by a calculation -/

/-- The rune `x` is open and holds the number `a`. -/
structure Machine.HoldsNumber (m : Machine) (x : String) (a : Value) : Prop where
  written : ∃ e, m.scope.find? x = some e ∧ e.isSealed = false ∧ e.value = some a
  isNumber : a.kind.isNumber = true

/-- The step that changes a rune by a calculation. -/
def compoundStep (x op : String) (e : Tree) : Tree :=
  .form .compound [.named x, .leaf .compoundOp op, e]

def runeValue (x : String) : Tree := .form .rune [.leaf .name x]

/-- The entry of a rune after a compound step. -/
def Entry.recalculate (v : Value) (e : Entry) : Entry :=
  { e with value := some v, kind := some v.kind }

/-- A compound step from the calculation on. -/
def compoundEnd (x : String) (a b : Value) (op : String) : Spell Datum :=
  match Calculation.ofCompound? op with
  | none => Spell.fail (.unknownSpell op)
  | some c => do
    let v ← c.apply a b
    Spell.modify x (Entry.recalculate v)
    return .nothing

theorem Machine.HoldsNumber.of_same {m m₁ : Machine} {x : String} {a : Value}
    (h : m.HoldsNumber x a) (hsame : m₁.scope.find? x = m.scope.find? x) : m₁.HoldsNumber x a :=
  ⟨hsame ▸ h.written, h.isNumber⟩

section
variable {x op : String} {a b : Value} {e : Tree} {n : Nat} {m m₁ : Machine}

/-- The rune is looked at before and after the other operand is evaluated. -/
theorem meaning_compound (hx : isKeyword x = false) (ha : m.HoldsNumber x a)
    (he : e.meaning (n + 2) m = (.done (.rune b), m₁)) (hsame : m₁.scope.find? x = m.scope.find? x)
    (hb : b.kind.isNumber = true) :
    (compoundStep x op e).meaning (n + 3) m = compoundEnd x a b op m₁ := by
  obtain ⟨⟨entry, hfind, hopen, hvalue⟩, hnumber⟩ := ha
  have hkey : runKey (Tree.meaning (n + 2)) [.named x, .leaf .compoundOp op, e] 0 m =
      (.done x, m) := by
    have hname := meaning_named x n m
    rw [hx] at hname
    exact Spell.bind_of_done hname
  have hchangeable : Spell.changeable x m = (.done entry, m) := by
    rw [Spell.changeable_apply, hfind]
    exact if_neg (by rw [hopen]; exact nofun)
  have hop : runPart (Tree.meaning (n + 2)) [.named x, .leaf .compoundOp op, e] 1 m =
      (.done (.word op), m) := rfl
  have hother : runPart (Tree.meaning (n + 2)) [.named x, .leaf .compoundOp op, e] 2 m =
      (.done (.rune b), m₁) := he
  have hknown : Spell.known x m₁ = (.done entry, m₁) := by rw [Spell.known_apply, hsame, hfind]
  refine (Spell.bind_of_done hkey).trans <| (Spell.bind_of_done hchangeable).trans <|
    (Spell.bind_of_done hop).trans <| (Spell.bind_of_done hother).trans <|
    (Spell.bind_of_done hknown).trans ?_
  rw [hvalue]
  show (if !a.kind.isNumber || !b.kind.isNumber then _ else _ : Spell Datum) m₁ = _
  rw [hnumber, hb, if_neg (by decide)]
  rfl

/-- A rune that holds a number gives it. -/
theorem meaning_runeValue (hx : isKeyword x = false) (ha : m.HoldsNumber x a) :
    (runeValue x).meaning (n + 2) m = (.done (.rune a), m) := by
  obtain ⟨⟨entry, hfind, -, hvalue⟩, -⟩ := ha
  exact meaning_rune hx hfind hvalue

/-- An assignment of what cannot be evaluated fails like it. -/
theorem meaning_assignment_of_failed {f : Fault} (hx : isKeyword x = false)
    (he : e.meaning (n + 2) m = (.failed f, m₁)) :
    (assignment x e).meaning (n + 3) m = (.failed f, m₁) := by
  have hname := meaning_named x n m
  rw [hx] at hname
  have hpart : runPart (Tree.meaning (n + 2)) [Tree.named x, e] 1 m = (.failed f, m₁) := he
  exact (Spell.bind_of_done hname).trans (Spell.bind_of_failed hpart)

end

/-! ### Keywords

A keyword is refused before anything else is looked at. -/

section
variable {x : String} (hx : isKeyword x = true) (n : Nat) (m : Machine)
include hx

/-- A keyword cannot be changed by a compound assignment. -/
theorem meaning_compound_keyword (op : String) (e : Tree) :
    (compoundStep x op e).meaning (n + 3) m = (.failed (.fundamental x), m) := by
  have hname := meaning_named x n m
  rw [if_pos hx] at hname
  exact Spell.bind_of_failed (Spell.bind_of_failed hname)

theorem meaning_assignment_keyword (e : Tree) :
    (assignment x e).meaning (n + 3) m = (.failed (.fundamental x), m) := by
  have hname := meaning_named x n m
  rw [if_pos hx] at hname
  exact Spell.bind_of_failed hname

theorem meaning_runeValue_keyword :
    (runeValue x).meaning (n + 2) m = (.failed (.fundamental x), m) := by
  have htoken : runPart (Tree.meaning (n + 1)) [.leaf .name x] 0 m =
      (.failed (.fundamental x), m) := by
    show (liftM (nameWord x) : Spell Datum) m = _
    rw [nameWord, if_pos hx]
    rfl
  exact Spell.bind_of_failed htoken

end

/-! ### Compound steps and assignments -/

/-- `SameStep x m value r r'`: the evaluation `value` came to a value, and the runs `r` and `r'`
both changed the rune `x`, which then has this value and its kind, and nothing else of `m`; or all
three failed with the same fault and left `m` as it was. -/
inductive SameStep (x : String) (m : Machine) : (value r r' : Ending Datum × Machine) → Prop
  | done {v : Value} {e e' : Entry} {g g' : Entry → Entry}
      (hfind : (m.scope.modify g x).find? x = some e)
        (hfind' : (m.scope.modify g' x).find? x = some e')
      (hvalue : e.value = some v ∧ e'.value = some v)
      (hkind : e.kind = some v.kind ∧ e'.kind = some v.kind) :
      SameStep x m (.done (.rune v), m) (.done .nothing, m.mapScope (·.modify g x))
        (.done .nothing, m.mapScope (·.modify g' x))
  | failed (f : Fault) : SameStep x m (.failed f, m) (.failed f, m) (.failed f, m)

section
variable {x op op' : String} {a b : Value} {e : Tree} {n k : Nat} {m m₁ : Machine}
  (ha : m.HoldsNumber x a) (he : e.meaning n m = (.done (.rune b), m₁))
  (hsame : m₁.scope.find? x = m.scope.find? x) (hb : b.kind.isNumber = true) (hk : n + 4 ≤ k)
include ha he hsame hb hk

/-- A compound step and the assignment of an operator's expression do the same if they stand for the
same calculation. -/
theorem sameStep_of_calculation {c : Calculation} (hcompound : Calculation.ofCompound? op' = some c)
    (hop : Calculation.ofOperator? op = some c) :
    ∃ m', m'.scope.find? x = m.scope.find? x ∧
      SameStep x m' ((Tree.operation op (runeValue x) e).meaning k m)
      ((compoundStep x op' e).meaning k m)
      ((assignment x (Tree.operation op (runeValue x) e)).meaning k m) := by
  obtain ⟨j, rfl⟩ : ∃ j, k = j + 4 := ⟨k - 4, by omega⟩
  have hmore : ∀ i, e.meaning (j + i) m = (.done (.rune b), m₁) := fun i =>
    Tree.meaning_of_le (by omega) nofun he
  cases hx : isKeyword x with
  | true =>
    rw [meaning_operation_of_failed (meaning_runeValue_keyword hx _ m), meaning_compound_keyword hx,
      meaning_assignment_keyword hx]
    exact ⟨m, rfl, .failed _⟩
  | false =>
    have hvalue : ∀ i, (Tree.operation op (runeValue x) e).meaning (j + i + 3) m =
        (liftM ((c.apply a b).map .rune) : Spell Datum) m₁ := fun i =>
      meaning_operation (meaning_runeValue hx ha) (hmore (i + 2)) ha.isNumber hb hop
    have hassigned := hvalue 0
    obtain ⟨entry, hfind, hopen, -⟩ := (ha.of_same hsame).written
    rw [hvalue 1, meaning_compound hx ha (hmore 3) hsame hb, compoundEnd, hcompound]
    refine ⟨m₁, hsame, ?_⟩
    dsimp only
    cases hresult : c.apply a b with
    | error f =>
      rw [hresult] at hassigned
      rw [meaning_assignment_of_failed hx hassigned]
      exact .failed f
    | ok v =>
      rw [hresult] at hassigned
      rw [meaning_assignment hx hassigned hfind hopen]
      have hstep := Scope.find?_modify_of_some (Entry.recalculate v) hfind
      have hassign := Scope.find?_modify_of_some (Entry.assign v) hfind
      exact .done hstep hassign ⟨rfl, rfl⟩ ⟨rfl, rfl⟩

end

/-- The operators that have a compound step of their own. -/
def sharedOperators : List String :=
  ["+", "-", "*", "/", "//", "^", "%", "/+", "/-", "/*", "/%", "^+", "^-", "^*", "^/", "~+",
    "~-", "~*", "~/"]

/-- The two tables of operators agree on them. -/
theorem sharedOperators_agree : ∀ op ∈ sharedOperators, ∃ c,
    Calculation.ofCompound? (op ++ "=") = some c ∧ Calculation.ofOperator? op = some c := by
  have hchecked : ∀ op ∈ sharedOperators, (Calculation.ofOperator? op).isSome = true ∧
      Calculation.ofCompound? (op ++ "=") = Calculation.ofOperator? op := by
    decide
  intro op hop
  obtain ⟨hsome, heq⟩ := hchecked op hop
  obtain ⟨c, hc⟩ := Option.isSome_iff_exists.mp hsome
  exact ⟨c, heq.trans hc, hc⟩

section
variable {x op : String} {a b : Value} {e : Tree} {n k : Nat} {m m₁ : Machine}
  (ha : m.HoldsNumber x a) (he : e.meaning n m = (.done (.rune b), m₁))
  (hsame : m₁.scope.find? x = m.scope.find? x) (hb : b.kind.isNumber = true) (hk : n + 4 ≤ k)
include ha he hsame hb hk

/-- **A compound step agrees with its operator.** If a rune is open and holds a number, and an
expression that leaves the rune alone gives one, then the compound step and the assignment of the
operator's expression both give the rune the value of that expression, or both fail as it does. -/
theorem compound_agrees_with_operation (hop : op ∈ sharedOperators) :
    ∃ m', m'.scope.find? x = m.scope.find? x ∧
      SameStep x m' ((Tree.operation op (runeValue x) e).meaning k m)
        ((compoundStep x (op ++ "=") e).meaning k m)
        ((assignment x (Tree.operation op (runeValue x) e)).meaning k m) := by
  obtain ⟨c, hcompound, hc⟩ := sharedOperators_agree op hop
  exact sameStep_of_calculation ha he hsame hb hk hcompound hc

/-- **The remainders that are rounded.** The compound step that is named for the remainder rounded
up is unknown, and the one that is named for the remainder rounded to the nearest rounds it up. -/
theorem rounded_remainders :
    (compoundStep x "^%=" e).meaning k m = (if isKeyword x then (.failed (.fundamental x), m)
      else (.failed (.unknownSpell "^%="), m₁)) ∧
    ∃ m', m'.scope.find? x = m.scope.find? x ∧
      SameStep x m' ((Tree.operation "^%" (runeValue x) e).meaning k m)
        ((compoundStep x "~%=" e).meaning k m)
        ((assignment x (Tree.operation "^%" (runeValue x) e)).meaning k m) := by
  have hop : Calculation.ofOperator? "^%" = some ⟨.modulo, some .up⟩ := by decide
  refine ⟨?_, sameStep_of_calculation ha he hsame hb hk rfl hop⟩
  obtain ⟨j, rfl⟩ : ∃ j, k = j + 4 := ⟨k - 4, by omega⟩
  have hmore : e.meaning (j + 3) m = (.done (.rune b), m₁) := Tree.meaning_of_le (by omega) nofun he
  cases hx : isKeyword x with
  | true => exact meaning_compound_keyword hx _ m _ e
  | false =>
    rw [meaning_compound hx ha hmore hsame hb]
    rfl

end

/-- The machine with one rune, which holds a number with a fraction. -/
def fractionHeld : Machine :=
  { scope := [{ own := [("x", ⟨some (.float 5.25), some .float, false, none⟩)] }] }

theorem fractionHeld_holds : fractionHeld.HoldsNumber "x" (.float 5.25) := ⟨⟨_, rfl, rfl, rfl⟩, rfl⟩

/-- A float is divided by nought. -/
theorem compound_agrees_with_operation_nought :
    "~/" ∈ sharedOperators ∧ fractionHeld.HoldsNumber "x" (.float 5.25) ∧
      ∃ m', m'.scope.find? "x" = fractionHeld.scope.find? "x" ∧
        SameStep "x" m'
          ((Tree.operation "~/" (runeValue "x") (.leaf .whole "0")).meaning 5 fractionHeld)
          ((compoundStep "x" "~/=" (.leaf .whole "0")).meaning 5 fractionHeld)
          ((assignment "x" (Tree.operation "~/" (runeValue "x") (.leaf .whole "0"))).meaning 5
            fractionHeld) :=
  ⟨by decide, fractionHeld_holds,
    compound_agrees_with_operation (n := 1) fractionHeld_holds rfl rfl rfl (by decide) (by decide)⟩

theorem rounded_remainders_fraction :
    (compoundStep "x" "^%=" (.leaf .whole "2")).meaning 5 fractionHeld =
        (.failed (.unknownSpell "^%="), fractionHeld) ∧
      ∃ m', m'.scope.find? "x" = fractionHeld.scope.find? "x" ∧
        SameStep "x" m'
          ((Tree.operation "^%" (runeValue "x") (.leaf .whole "2")).meaning 5 fractionHeld)
          ((compoundStep "x" "~%=" (.leaf .whole "2")).meaning 5 fractionHeld)
          ((assignment "x" (Tree.operation "^%" (runeValue "x") (.leaf .whole "2"))).meaning 5
            fractionHeld) :=
  rounded_remainders (n := 1) fractionHeld_holds rfl rfl rfl (by decide)

/-- The remainder is a little more than one: rounded up it is two and rounded to the nearest it is
one. One compound step does not know it, and the other one rounds it the other way. -/
theorem remainder_steps_astray :
    (Tree.operation "^%" (runeValue "x") (.leaf .whole "2")).meaning 5 fractionHeld =
        (.done (.rune (.int 2)), fractionHeld) ∧
      (compoundStep "x" "^%=" (.leaf .whole "2")).meaning 5 fractionHeld =
        (.failed (.unknownSpell "^%="), fractionHeld) ∧
      (Tree.operation "~%" (runeValue "x") (.leaf .whole "2")).meaning 5 fractionHeld =
        (.done (.rune (.int 1)), fractionHeld) ∧
      (compoundStep "x" "~%=" (.leaf .whole "2")).meaning 5 fractionHeld = (.done .nothing,
        { fractionHeld with scope :=
          [{ own := [("x", ⟨some (.int 2), some .int, false, none⟩)] }] }) :=
  ⟨rfl, rfl, rfl, rfl⟩

end Spellbook
