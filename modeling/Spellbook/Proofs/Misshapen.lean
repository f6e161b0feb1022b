import Spellbook.Meaning

/-!
# Faults of shape

Some faults say that a tree does not have the shape that its meaning asks for: a part that is absent
is run, a part is missing, or a node or token has a name without a meaning. Operations on data never
fail so, whatever the data are, as long as no list takes part, which no program makes
(`Fallible.Fine`).
-/

namespace Spellbook

/-- Whether a fault says that a tree is not shaped as it should be. -/
@[simp] def Fault.isMisshapen : Fault → Bool
  | amiss _ | tooFewParts _ _ | tooManyParts _ | notParts _ => true
  | listIndexOutOfRange sequence => sequence == "list"
  | noAttribute owner field =>
    owner == "Tree" || owner == "Token" || field == "data" || field == "children"
  | _ => false

namespace Fallible

variable {α β : Type} {P : α → Prop} {Q : β → Prop}

/-- A computation has a result that `P` allows, or a fault that has nothing to do with shape. -/
inductive Fine (P : α → Prop) : Fallible α → Prop
  | ok {a : α} (h : P a) : Fine P (.ok a)
  | error {f : Fault} (h : f.isMisshapen = false) : Fine P (.error f)

/-- A computation does not fail for the shape of a tree. -/
abbrev Sane (x : Fallible α) : Prop := Fine (fun _ => True) x

/-- A result is fine if it has the property. -/
@[simp] theorem fine_ok {a : α} : Fine P (.ok a) ↔ P a :=
  ⟨fun | .ok h => h, .ok⟩

@[simp] theorem fine_pure {a : α} : Fine P (pure a) ↔ P a := fine_ok

/-- A fault is fine if it is not the misshapen one. -/
@[simp] theorem fine_error {f : Fault} : Fine P (.error f) ↔ f.isMisshapen = false :=
  ⟨fun | .error h => h, .error⟩

@[simp] theorem fine_ite {c : Prop} [Decidable c] {x y : Fallible α} :
    Fine P (if c then x else y) ↔ (c → x.Fine P) ∧ (¬ c → y.Fine P) := by
  split <;> simp [*]

/-- What is fine and goes on with something fine is fine. -/
theorem Fine.bind {x : Except Fault α} {f : α → Except Fault β} (hx : Fine P x)
    (hf : ∀ a, P a → Fine Q (f a)) : Fine Q (x >>= f) := by
  cases hx with
  | ok h => exact hf _ h
  | error h => exact .error h

/-- After a computation that is sane, whatever its result, what goes on has to be fine for every
result. -/
theorem Sane.bind {x : Except Fault α} {f : α → Except Fault β} (hx : Sane x)
    (hf : ∀ a, Fine Q (f a)) :
    Fine Q (x >>= f) :=
  Fine.bind hx fun a _ => hf a

theorem Sane.map {x : Except Fault α} {f : α → β} (hx : Sane x) (hf : ∀ a, Q (f a)) :
    Fine Q (x.map f) := by
  cases hx with
  | ok h => exact .ok (hf _)
  | error h => exact .error h

/-- A computation stays fine for a weaker property. -/
theorem Fine.mono {P' : α → Prop} {x : Fallible α} (hx : x.Fine P) (h : ∀ a, P a → P' a) :
    x.Fine P' := by
  cases hx with
  | ok ha => exact .ok (h _ ha)
  | error hf => exact .error hf

/-- What is fine is sane. -/
theorem Fine.sane {x : Fallible α} (hx : x.Fine P) : x.Sane := hx.mono fun _ _ => trivial

end Fallible

open Fallible

/-! ## Numbers -/

section Numbers

@[simp] theorem floatOfInt_sane (n : Int) : (floatOfInt n).Sane := by
  unfold floatOfInt
  split <;> simp

@[simp] theorem wholeOf_sane (rounding : Dyadic → Int) (x : Float) : (wholeOf rounding x).Sane := by
  unfold wholeOf
  split <;> simp

theorem Num.toFloat_sane (a : Num) : a.toFloat.Sane := by
  cases a <;> simp [Num.toFloat]

/-- An operation on numbers is sane if it is on whole numbers and on floats. -/
theorem Num.lift_sane {onInt : Int → Int → Fallible Num} {onFloat : Float → Float → Fallible Num}
    (hint : ∀ m n, (onInt m n).Sane) (hfloat : ∀ x y, (onFloat x y).Sane) (a b : Num) :
    (Num.lift onInt onFloat a b).Sane := by
  unfold Num.lift
  split
  · exact hint _ _
  · exact Sane.bind (Num.toFloat_sane _) fun x => Sane.bind (Num.toFloat_sane _) fun y => hfloat x y

theorem floatPower_sane (x y : Float) : (floatPower x y).Sane := by
  simp [floatPower, positivePower]

theorem Num.pow_sane (a b : Num) : (a.pow b).Sane := by
  unfold Num.pow
  split
  · split
    · exact .ok trivial
    · exact Sane.bind (floatOfInt_sane _) fun x => Sane.bind (floatOfInt_sane _) fun y =>
        floatPower_sane x y
  · exact Sane.bind (Num.toFloat_sane _) fun x => Sane.bind (Num.toFloat_sane _) fun y =>
      floatPower_sane x y

end Numbers

namespace Value

/-- No operation on two numbers finds them misshapen. -/
theorem applyNum_sane (op : Operator) (a b : Num) : (applyNum op a b).Sane := by
  unfold applyNum
  cases op with
  | plus => exact Sane.map (Num.lift_sane (by simp) (by simp) a b) fun _ => trivial
  | minus => exact Sane.map (Num.lift_sane (by simp) (by simp) a b) fun _ => trivial
  | times => exact Sane.map (Num.lift_sane (by simp) (by simp) a b) fun _ => trivial
  | divide =>
    dsimp only
    split
    · exact .error rfl
    · refine Sane.map (Num.lift_sane (fun m n => ?_) (by simp) a b) fun _ => trivial
      split <;> simp
  | floorDivide =>
    dsimp only
    split
    · exact .error rfl
    · exact Sane.map (Num.lift_sane (by simp) (by simp) a b) fun _ => trivial
  | modulo =>
    refine Sane.map (Num.lift_sane (fun m n => ?_) (fun x y => ?_) a b) fun _ => trivial
    · split <;> simp
    · split <;> simp
  | power => exact Sane.map (Num.pow_sane a b) fun _ => trivial

/-- No operation on two values finds them misshapen. -/
@[simp] theorem apply_sane (op : Operator) (a b : Value) : (apply op a b).Sane := by
  unfold apply
  split
  · exact applyNum_sane op _ _
  · split <;> simp

@[simp] theorem readInt_sane (s shown : String) : (readInt s shown).Sane := by
  unfold readInt
  split <;> simp

@[simp] theorem readFloat_sane (s shown : String) : (readFloat s shown).Sane := by
  unfold readFloat
  split <;> simp

@[simp] theorem toInt_sane (v : Value) : v.toInt.Sane := by
  cases v <;> simp [toInt]

@[simp] theorem toFloat_sane (v : Value) : v.toFloat.Sane := by
  cases v <;> simp [toFloat]

@[simp] theorem Outcome.toInt_sane (o : Outcome) : o.toInt.Sane := by
  cases o <;> simp [Outcome.toInt]

@[simp] theorem Outcome.toFloat_sane (o : Outcome) : o.toFloat.Sane := by
  cases o <;> simp [Outcome.toFloat]

/-- No rounding finds its value misshapen. -/
@[simp] theorem rounded_sane (r : Rounding) (v : Value) : (v.rounded r).Sane := by
  unfold rounded
  split
  · exact .ok trivial
  · exact wholeOf_sane _ _
  · split <;> simp

/-- No comparison of two values finds them misshapen. -/
@[simp] theorem compare_sane (c : Comparison) (a b : Value) : (compare c a b).Sane := by
  unfold compare
  repeat' split
  all_goals simp

@[simp] theorem intText_sane (n : Int) : (intText n).Sane := by
  unfold intText
  split <;> simp

@[simp] theorem runeText_sane (v : Value) : v.runeText.Sane := by
  cases v <;> simp [runeText]

@[simp] theorem bareText_sane (v : Value) : v.bareText.Sane := by
  cases v <;> simp [bareText]

@[simp] theorem runeLength_sane (v : Value) : v.runeLength.Sane := by
  cases v with
  | int n =>
    simp only [runeLength, intLength]
    split <;> simp
  | _ => simp [runeLength]

@[simp] theorem runeTruth_sane (v : Value) : v.runeTruth.Sane := by
  unfold runeTruth
  split
  · exact .ok trivial
  · exact Sane.map (runeLength_sane _) fun _ => trivial

end Value

/-! ## Data -/

namespace Datum

/-- Whether a datum is nothing or a value, as most trees evaluate to. -/
def isOrdinary : Datum → Bool
  | nothing | rune _ | bare _ => true
  | _ => false

@[simp] theorem isOrdinary_nothing : nothing.isOrdinary = true := rfl

@[simp] theorem isOrdinary_rune (v : Value) : (rune v).isOrdinary = true := rfl

@[simp] theorem isOrdinary_bare (v : Value) : (bare v).isOrdinary = true := rfl

variable {d : Datum}

/-- No datum has the class of a piece of a tree. -/
theorem className_ne (d : Datum) : d.className ≠ "Tree" ∧ d.className ≠ "Token" := by
  rcases d with _ | v | v | _ | _ | _
  case rune => cases v <;> simp [className, Value.runeClass]
  case bare => cases v <;> simp [className, Value.kind, Kind.name]
  all_goals simp [className]

@[simp] theorem toValue_sane (d : Datum) : d.toValue.Sane := by
  cases d <;> simp [toValue]

@[simp] theorem content_sane (d : Datum) : d.content.Sane := by
  have hd := d.className_ne
  cases d <;> simp_all [content]

@[simp] theorem kind_sane (d : Datum) : d.kind.Sane := by
  have hd := d.className_ne
  cases d <;> simp_all [kind]

@[simp] theorem isNumber_sane (d : Datum) : d.isNumber.Sane := Sane.map d.kind_sane fun _ => trivial

@[simp] theorem length_sane (d : Datum) : d.length.Sane := by
  unfold length
  split <;> simp

@[simp] theorem truth_sane (d : Datum) : d.truth.Sane := by
  cases d <;> simp [truth]

/-- The text of an ordinary datum is written without a misshapen one. -/
@[simp] theorem text_sane (hd : d.isOrdinary = true) : d.text.Sane := by
  cases d with
  | nothing => exact .ok trivial
  | rune v => exact v.runeText_sane
  | bare v => exact v.bareText_sane
  | tuple _ | list _ | formless => cases hd

/-- The texts of ordinary data are written without a misshapen one. -/
theorem textsOf_sane {ds : List Datum} (h : ∀ d ∈ ds, d.isOrdinary = true) : (textsOf ds).Sane := by
  induction ds with
  | nil => exact .ok trivial
  | cons d ds ih =>
    refine Sane.bind (text_sane (h d List.mem_cons_self)) fun s => ?_
    exact Sane.bind (ih fun d hd => h d (List.mem_cons_of_mem _ hd)) fun _ => .ok trivial

/-! ### Comparisons -/

theorem ownCompare?_sane {c : Comparison} {v : Value} {other : Datum} {x : Fallible Bool}
    (h : ownCompare? c v other = some x) : x.Sane := by
  unfold ownCompare? at h
  split at h
  · split at h <;> cases h
    · exact Sane.map other.truth_sane fun _ => trivial
    · exact Sane.map other.truth_sane fun _ => trivial
  · cases h
    exact Sane.bind other.content_sane fun w => Value.compare_sane _ _ w

theorem otherCompare_sane (c : Comparison) (a b : Datum) : (otherCompare c a b).Sane := by
  unfold otherCompare
  split <;> simp

/-- No comparison of two data finds them misshapen. -/
@[simp] theorem compare_sane (c : Comparison) (a b : Datum) : (compare c a b).Sane := by
  unfold compare
  split
  · exact Value.compare_sane _ _ _
  · simp only [Option.getD]
    split
    · rename_i x hx
      -- either operand may know the comparison; the left one is asked first
      rcases Option.or_eq_some_iff.mp hx with h | ⟨_, h⟩
      all_goals
        split at h
        · exact ownCompare?_sane h
        · cases h
    · exact otherCompare_sane c a b

/-! ### Operators -/

/-- An operation on a whole number gives an ordinary datum. -/
theorem intOperator_fine (op : Value.Operator) (n : Int) (other : Datum) :
    (intOperator op n other).Fine (·.isOrdinary = true) := by
  unfold intOperator
  refine Sane.bind other.toValue_sane fun v => ?_
  split
  · exact Sane.bind (Value.intText_sane n) fun _ => .ok rfl
  · exact Sane.bind (Value.apply_sane _ _ _) fun o => Sane.bind o.toFloat_sane fun _ => .ok rfl
  · exact Sane.bind (Value.apply_sane _ _ _) fun o => Sane.bind o.toInt_sane fun _ => .ok rfl

/-- An operation on a float gives an ordinary datum. -/
theorem floatOperator_fine (op : Value.Operator) (x : Float) (other : Datum) :
    (floatOperator op x other).Fine (·.isOrdinary = true) := by
  unfold floatOperator
  refine Sane.bind other.toValue_sane fun v => ?_
  split
  · exact Sane.bind (Value.apply_sane _ _ _) fun o => Sane.bind o.toInt_sane fun _ => .ok rfl
  · exact Sane.bind (Value.apply_sane _ _ _) fun o => Sane.bind o.toFloat_sane fun _ => .ok rfl

theorem ownOperator?_fine {op : Value.Operator} {v : Value} {other : Datum} {x : Fallible Datum}
    (hother : other.isOrdinary = true) (h : ownOperator? op v other = some x) :
    x.Fine (·.isOrdinary = true) := by
  unfold ownOperator? at h
  split at h <;> cases h
  · exact intOperator_fine _ _ _
  · exact floatOperator_fine _ _ _
  · exact Sane.bind (text_sane hother) fun _ => .ok rfl
  · exact Sane.bind (text_sane hother) fun _ => .ok rfl

theorem bareOperator_fine (op : Value.Operator) (symbol : String) (v w : Value) :
    (bareOperator op symbol v w).Fine (·.isOrdinary = true) := by
  unfold bareOperator
  split
  case h_7 =>
    -- a refused division ends it; otherwise the operator is applied
    repeat' split
    case h_1 => exact .error rfl
    all_goals
      refine Sane.bind (Value.apply_sane op v w) fun o => ?_
      cases o <;> simp
  all_goals simp

/-- An operation that is left to the general case gives an ordinary datum. -/
theorem otherOperator_fine {a b : Datum} (op : Value.Operator) (symbol : String)
    (ha : a.isOrdinary = true) :
    (otherOperator op symbol a b).Fine (·.isOrdinary = true) := by
  unfold otherOperator
  split
  · exact Sane.bind (text_sane ha) fun _ => .ok rfl
  · exact bareOperator_fine _ _ _ _
  all_goals simp

theorem operateAs_fine {a b : Datum} (symbol : String) (op : Value.Operator)
    (ha : a.isOrdinary = true) (hb : b.isOrdinary = true) :
    (operateAs symbol op a b).Fine (·.isOrdinary = true) := by
  unfold operateAs
  split
  · rename_i v
    cases hown : ownOperator? op v b with
    | none => exact otherOperator_fine op symbol rfl
    | some x => exact ownOperator?_fine hb hown
  · exact otherOperator_fine op symbol ha

/-- An operation on two ordinary data gives an ordinary datum. -/
theorem operate_fine {a b : Datum} (op : Value.Operator) (ha : a.isOrdinary = true)
    (hb : b.isOrdinary = true) : (operate op a b).Fine (·.isOrdinary = true) :=
  operateAs_fine _ op ha hb

/-- An operation that writes its result into a rune finds nothing misshapen. -/
theorem operateInPlace_sane {a b : Datum} (op : Value.Operator) (ha : a.isOrdinary = true)
    (hb : b.isOrdinary = true) : (operateInPlace op a b).Sane :=
  (operateAs_fine _ op ha hb).sane

/-- The negative of a datum is an ordinary one. -/
theorem negate_fine (d : Datum) : d.negate.Fine (·.isOrdinary = true) := by
  unfold negate
  split <;> simp

/-! ### Members -/

/-- A place in a list is looked up without a misshapen datum, if the fault for a missing one is
none. -/
theorem member_sane {α : Type} {xs : List α} {n : Int} {absent : Fault}
    (h : absent.isMisshapen = false) :
    (member xs n absent).Sane := by
  unfold member
  simp only [fine_ite]
  refine ⟨fun _ => .error rfl, fun _ => ⟨fun _ => .error h, fun _ => ?_⟩⟩
  split
  · exact .ok trivial
  · exact .error h

@[simp] theorem charAt_sane (s : String) (index : Datum) : (charAt s index).Sane := by
  unfold charAt
  split
  · exact Sane.map (member_sane rfl) fun _ => trivial
  · exact .error rfl

/-- An ordinary datum is indexed without a misshapen one. -/
theorem item_sane {d : Datum} (index : Datum) (hd : d.isOrdinary = true) : (d.item index).Sane := by
  unfold item
  split
  · exact Sane.bind (charAt_sane _ index) fun _ => .ok trivial
  · exact Sane.bind (charAt_sane _ index) fun _ => .ok trivial
  · cases hd
  · cases hd
  · exact .error rfl

end Datum

/-! ## Operations of the language -/

/-- No calculation finds its values misshapen. -/
theorem Calculation.apply_sane (c : Calculation) (a b : Value) : (c.apply a b).Sane := by
  unfold Calculation.apply
  refine Sane.bind (Datum.operate_fine c.op rfl rfl).sane fun r => ?_
  split
  · exact r.toValue_sane
  · exact Sane.bind r.content_sane fun v => Sane.bind (v.rounded_sane _) fun _ => .ok trivial

theorem operatorText_sane {d : Datum} (hd : d.isOrdinary = true) : (operatorText d).Sane := by
  unfold operatorText
  split
  · exact .ok trivial
  · exact .ok trivial
  · exact .error rfl
  · exact Datum.text_sane hd

/-- A text literal gives a rune that holds a text. -/
theorem literalText_fine (s : String) : (literalText s).Fine fun d => ∃ t, d = .rune (.text t) := by
  unfold literalText
  split
  · exact .ok ⟨_, rfl⟩
  · exact .error rfl

/-- The chance of a ratio is found without a misshapen datum. -/
theorem chanceOf_sane (left right : Int) : (chanceOf left right).Sane := by
  unfold chanceOf
  split
  · exact .error rfl
  · split
    · exact .ok trivial
    · exact .error rfl

end Spellbook
