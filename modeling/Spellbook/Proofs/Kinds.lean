import Mathlib.Data.List.Forall2
import Spellbook.Proofs.Atomicity
import Spellbook.Proofs.Compound
import Spellbook.Proofs.Expressions
import Spellbook.Proofs.GivenText

/-!
# The kinds of results

An operator decides the kind of its result by itself, or it leaves the choice to the kind of its
left operand; what the operands are worth only decides whether there is a result. So if nothing is
cast and nothing is listened to, an expression has a kind that can be told from the kinds of the
runes (`Expression.exists_kind`), and its results in two machines whose runes have the same kinds
are of the same kind (`same_kinds_same_kind`).
-/

namespace Spellbook

/-! ## Results without a trace -/

namespace Spell

variable {α β : Type} {Q : α → Prop} {R : β → Prop} {m : Machine}

/-- Started from `m`, the spell has no result but those that `Q` allows, and if it has one, it
leaves `m` as it was. -/
def Yields (Q : α → Prop) (x : Spell α) (m : Machine) : Prop := x.Gives (fun a m' => Q a ∧ m' = m) m

/-- What yields a property and goes on with a spell that yields another yields the other. -/
theorem Yields.bind {x : Spell α} {f : α → Spell β} (hx : x.Yields Q m)
    (hf : ∀ a, Q a → (f a).Yields R m) :
    (x >>= f).Yields R m := by
  refine Gives.bind fun a m' h => ?_
  obtain ⟨ha, rfl⟩ := hx a m' h
  exact hf a ha

/-- A spell yields every weaker property. -/
theorem Yields.imp {Q' : α → Prop} {x : Spell α} (hx : x.Yields Q m) (h : ∀ a, Q a → Q' a) :
    x.Yields Q' m :=
  fun a m' hm => (hx a m' hm).imp_left (h a)

theorem Yields.pure {a : α} (h : Q a) : (Pure.pure a : Spell α).Yields Q m := by
  intro b m' hb
  cases hb
  exact ⟨h, rfl⟩

/-- A failure yields every property. -/
theorem Yields.fail (e : Fault) : (Spell.fail e : Spell α).Yields Q m := by
  intro a m' h
  cases h

/-- A computation yields what all its results have. -/
theorem Yields.lift {x : Fallible α} (h : ∀ a, x = .ok a → Q a) :
    (liftM x : Spell α).Yields Q m := by
  intro a m' ha
  obtain ⟨hx, rfl⟩ := eq_of_lift_done ha
  exact ⟨h a hx, rfl⟩

/-- After a computation, what goes on has to yield the property for each of its results. -/
theorem Yields.lift_bind {x : Fallible α} {f : α → Spell β}
    (hf : ∀ a, x = .ok a → (f a).Yields R m) :
    ((liftM x : Spell α) >>= f).Yields R m :=
  Yields.bind (Yields.lift fun _ => id) hf

/-- A check that fails the spell leaves the case where it passes. -/
theorem Yields.check {c : Prop} [Decidable c] {e : Fault} {k : α → Spell β} {k' : Spell β}
    (hk : ¬ c → k'.Yields R m) : (if c then (Spell.fail e : Spell α) >>= k else k').Yields R m :=
  Gives.check hk

/-- A name that is known yields the entry that the scope has for it. -/
theorem known_yields (name : String) :
    (known name).Yields (fun e => m.scope.find? name = some e) m := by
  intro e m' h
  rw [known_apply] at h
  cases hfind : m.scope.find? name with
  | none =>
    rw [hfind] at h
    cases h
  | some e' =>
    rw [hfind] at h
    cases h
    exact ⟨rfl, rfl⟩

theorem written_yields (name : String) :
    (written name).Yields (fun e => m.scope.find? name = some e) m := by
  refine Yields.bind (Q := fun found => found = m.scope.find? name) (fun found m' h => ?_)
    fun found hfound => ?_
  · cases h
    exact ⟨rfl, rfl⟩
  · cases found with
    | none => exact .fail _
    | some e => exact .pure hfound.symm

end Spell

/-! ## The kinds that operators give -/

/-- A rune's value of the given kind. -/
def Datum.IsOf (k : Kind) (d : Datum) : Prop := ∃ v, d = .rune v ∧ v.kind = k

def Kind.ofWord : String → Kind
  | "int" => .int
  | "float" => .float
  | "bool" => .truth
  | _ => .text

/-- The kind of what a calculation gives, by that of the left operand. -/
def Calculation.resultKind (c : Calculation) (left : Kind) : Kind :=
  match c.rounding with
  | none => c.op.resultKind left
  | some _ => .int

/-- A chain that gives a result has a result in between. -/
theorem Fallible.exists_of_bind_ok {α β : Type} {x : Fallible α} {f : α → Fallible β} {b : β}
    (h : (x >>= f) = .ok b) : ∃ a, x = .ok a ∧ f a = .ok b := by
  cases x with
  | error e => cases h
  | ok a => exact ⟨a, rfl, h⟩

/-- A mapped result is one of the computation. -/
theorem Fallible.exists_of_map_ok {α β : Type} {x : Fallible α} {f : α → β} {b : β}
    (h : x.map f = .ok b) :
    ∃ a, x = .ok a ∧ f a = b := by
  cases x with
  | error e => cases h
  | ok a => exact ⟨a, rfl, Except.ok.inj h⟩

namespace Datum

open Value (Operator)

variable {op : Operator} {a b : Value} {d : Datum} {k : Kind}

/-- An outcome that is made whole is a whole number. -/
theorem isOf_int {x : Fallible Value.Outcome}
    (h : (do return .rune (.int (← (← x).toInt)) : Fallible Datum) = .ok d) :
    d.IsOf .int := by
  obtain ⟨r, -, h⟩ := Fallible.exists_of_bind_ok h
  obtain ⟨n, -, h⟩ := Fallible.exists_of_bind_ok h
  cases h
  exact ⟨_, rfl, rfl⟩

/-- An outcome that is made a float is a float. -/
theorem isOf_float {x : Fallible Value.Outcome}
    (h : (do return .rune (.float (← (← x).toFloat)) : Fallible Datum) = .ok d) :
    d.IsOf .float := by
  obtain ⟨r, -, h⟩ := Fallible.exists_of_bind_ok h
  obtain ⟨n, -, h⟩ := Fallible.exists_of_bind_ok h
  cases h
  exact ⟨_, rfl, rfl⟩

/-- An operation on a whole number keeps the kind that its operator says, if a sum has a number on
its right. -/
theorem isOf_intOperator {n : Int} (hop : op = .plus → b.kind.isNumber = true)
    (h : intOperator op n (.rune b) = .ok d) : d.IsOf (op.resultKind .int) := by
  cases op with
  | plus =>
    cases b with
    | int k => exact isOf_int (x := Value.apply .plus (.int n) (.int k)) h
    | float y => exact isOf_int (x := Value.apply .plus (.int n) (.float y)) h
    | text _ | truth _ => cases hop rfl
  | divide => exact isOf_float h
  | minus | times | floorDivide | modulo | power => exact isOf_int h

/-- An operation on a float gives the kind that its operator says. -/
theorem isOf_floatOperator {x : Float} (h : floatOperator op x (.rune b) = .ok d) :
    d.IsOf (op.resultKind .float) := by
  cases op with
  | floorDivide => exact isOf_int h
  | plus | minus | times | divide | modulo | power => exact isOf_float h

/-- The left operand chooses the kind of the result. Only sums of texts and truths would go by the
right one too. -/
theorem isOf_operate (hop : op = .plus → a.kind.isNumber = true ∧ b.kind.isNumber = true)
    (h : (rune a).operate op (.rune b) = .ok d) : d.IsOf (op.resultKind a.kind) := by
  cases a with
  | int n => exact isOf_intOperator (fun h => (hop h).2) h
  | float x => exact isOf_floatOperator h
  | text s =>
    cases op with
    | plus => cases (hop rfl).1
    | minus | times | divide | floorDivide | modulo | power => cases h
  | truth t =>
    cases op with
    | plus => cases (hop rfl).1
    | minus | times | divide | floorDivide | modulo | power => cases h

/-- A negative has the kind of its datum. -/
theorem isOf_negate (h : (rune a).negate = .ok d) : d.IsOf a.kind := by
  cases a with
  | int n | float x =>
    cases h
    exact ⟨_, rfl, rfl⟩
  | text s | truth t => cases h

/-- What is transmuted has the kind of the word. -/
theorem kind_transmute {target : String} {w : Value} (h : transmute a target = .ok w) :
    w.kind = Kind.ofWord target := by
  unfold transmute at h
  split at h
  · cases a <;> cases h <;> rfl
  · split at h
    · split at h
      · cases h
        rfl
      · cases h
    · obtain ⟨n, -, rfl⟩ := Fallible.exists_of_map_ok h
      rfl
  · split at h
    · split at h
      · cases h
        rfl
      · cases h
    · obtain ⟨x, -, rfl⟩ := Fallible.exists_of_map_ok h
      rfl
  · obtain ⟨s, -, rfl⟩ := Fallible.exists_of_map_ok h
    rfl
  · cases h

end Datum

/-- A calculation gives the kind that its operator says, if a sum is one of numbers. -/
theorem Calculation.kind_apply {c : Calculation} {a b v : Value}
    (hop : c.op = .plus → a.kind.isNumber = true ∧ b.kind.isNumber = true)
    (h : c.apply a b = .ok v) :
    v.kind = c.resultKind a.kind := by
  rw [Calculation.apply] at h
  obtain ⟨d, hd, h⟩ := Fallible.exists_of_bind_ok h
  obtain ⟨w, rfl, hw⟩ := Datum.isOf_operate hop hd
  rw [Calculation.resultKind]
  cases hrounding : c.rounding with
  | none =>
    rw [hrounding] at h
    cases h
    exact hw
  | some r =>
    rw [hrounding] at h
    obtain ⟨u, -, h⟩ := Fallible.exists_of_bind_ok h
    obtain ⟨n, -, h⟩ := Fallible.exists_of_bind_ok h
    cases h
    rfl

/-! ## The kinds that nodes give -/

section
open Spell Datum

variable {run : Run} {m : Machine} {l r o e : Tree} {k k' : Kind} {op : String}

/-- A list of trees yields, one by one, what its trees yield. -/
theorem runAll_yields {ts : List Tree} {Ps : List (Datum → Prop)}
    (h : List.Forall₂ (fun t P => (run t).Yields P m) ts Ps) :
    (runAll run ts).Yields (List.Forall₂ (fun P d => P d) Ps) m := by
  induction h with
  | nil => exact .pure .nil
  | cons ht _ ih => exact .bind ht fun d hd => .bind ih fun ds hds => .pure (.cons hd hds)

/-- Three trees yield what each of them yields. -/
theorem runThree_yields {P Q R : Datum → Prop} (hl : (run l).Yields P m) (ho : (run o).Yields Q m)
    (hr : (run r).Yields R m) :
    (runThree run [l, o, r]).Yields (fun t => P t.1 ∧ Q t.2.1 ∧ R t.2.2) m := by
  refine .bind (runAll_yields (.cons hl (.cons ho (.cons hr .nil)))) fun ds hds => ?_
  obtain _ | ⟨hx, _ | ⟨hy, _ | ⟨hz, hnil⟩⟩⟩ := hds
  cases hnil
  exact .pure ⟨hx, hy, hz⟩

/-- No calculation on the level of products is a sum. -/
theorem Calculation.op_ne_plus_of_product {c : Calculation}
    (h : Calculation.ofProduct? op = some c) :
    c.op ≠ .plus := by
  unfold Calculation.ofProduct? at h
  split at h
  all_goals cases h
  all_goals decide

section
variable (hl : (run l).Yields (IsOf k) m) (hr : (run r).Yields (IsOf k') m)
include hl hr

theorem eitherMeaning_yields : (eitherMeaning run [l, o, r]).Yields (IsOf .truth) m := by
  refine .bind hl fun x _ => .bind hr fun y _ => ?_
  refine .lift_bind fun a _ => .lift_bind fun b _ => .lift_bind fun isTrue _ => ?_
  split
  · exact .pure ⟨_, rfl, rfl⟩
  · exact .lift_bind fun b _ => .pure ⟨_, rfl, rfl⟩

theorem bothMeaning_yields : (bothMeaning run [l, o, r]).Yields (IsOf .truth) m := by
  refine .bind hl fun x _ => .bind hr fun y _ => ?_
  refine .lift_bind fun a _ => .lift_bind fun b _ => .lift_bind fun isTrue _ => ?_
  split
  · exact .lift_bind fun b _ => .pure ⟨_, rfl, rfl⟩
  · exact .pure ⟨_, rfl, rfl⟩

theorem powerMeaning_yields : (powerMeaning run [l, r]).Yields (IsOf k) m := by
  refine .bind hl fun x hx => .bind hr fun y hy => ?_
  obtain ⟨a, rfl, rfl⟩ := hx
  obtain ⟨b, rfl, -⟩ := hy
  refine .lift_bind fun a' ha => .lift_bind fun b' hb => .lift fun d hd => ?_
  cases ha
  cases hb
  have hop : Value.Operator.power = .plus → a.kind.isNumber = true ∧ b.kind.isNumber = true := nofun
  exact isOf_operate hop hd

variable (ho : (run o).Yields (· = .word op) m)
include ho

/-- A comparison yields a truth. -/
theorem comparisonMeaning_yields : (comparisonMeaning run [l, o, r]).Yields (IsOf .truth) m := by
  refine .bind (runThree_yields hl ho hr) fun ⟨x, y, z⟩ _ => .lift_bind fun op _ => ?_
  split
  · exact .fail _
  · exact .lift_bind fun b _ => .pure ⟨_, rfl, rfl⟩

/-- The kind of a sum or a product, by the operator and the kind of the left operand. -/
def calculatedKind (c? : Option Calculation) (left : Kind) : Kind :=
  c?.elim .int (·.resultKind left)

/-- A sum or difference yields the kind that its calculation makes of the left kind. -/
theorem sumMeaning_yields :
    (sumMeaning run [l, o, r]).Yields (IsOf (calculatedKind (Calculation.ofSum? op) k)) m := by
  refine .bind (runThree_yields hl ho hr) fun ⟨x, y, z⟩ ⟨hx, hy, hz⟩ => ?_
  obtain ⟨a, rfl, rfl⟩ := hx
  obtain ⟨b, rfl, -⟩ := hz
  obtain rfl := hy
  refine .lift_bind fun a' ha => .lift_bind fun b' hb => ?_
  cases ha
  cases hb
  refine .check fun hnumbers => .lift_bind fun op' hop => ?_
  cases hop
  have hnumbers : a.kind.isNumber = true ∧ b.kind.isNumber = true := by simpa using hnumbers
  cases hc : Calculation.ofSum? op with
  | none => exact .fail _
  | some c =>
    exact .lift_bind fun v hv => .pure ⟨v, rfl, Calculation.kind_apply (fun _ => hnumbers) hv⟩

/-- A product or quotient yields the kind that its calculation makes of the left kind. -/
theorem productMeaning_yields :
    (productMeaning run [l, o, r]).Yields (IsOf (calculatedKind (Calculation.ofProduct? op) k))
      m := by
  refine .bind (runThree_yields hl ho hr) fun ⟨x, y, z⟩ ⟨hx, hy, hz⟩ => ?_
  obtain ⟨a, rfl, rfl⟩ := hx
  obtain ⟨b, rfl, -⟩ := hz
  obtain rfl := hy
  refine .lift_bind fun a' ha => .lift_bind fun b' hb => .lift_bind fun op' hop => ?_
  cases ha
  cases hb
  cases hop
  cases hc : Calculation.ofProduct? op with
  | none => exact .fail _
  | some c =>
    exact .lift_bind fun v hv =>
      .pure ⟨v, rfl, Calculation.kind_apply (absurd · (Calculation.op_ne_plus_of_product hc)) hv⟩

end

section
variable (he : (run e).Yields (IsOf k) m)
include he

/-- The value of a part that has a kind. -/
theorem runValue_yields {parts : List Tree} {n : Nat} (hn : parts[n]? = some e) :
    (runValue run parts n).Yields (fun v => v.kind = k) m := by
  have hpart : (runPart run parts n).Yields (IsOf k) m := by
    rw [runPart, part, hn]
    exact he
  refine .bind hpart fun d hd => .lift fun v hv => ?_
  obtain ⟨w, rfl, hw⟩ := hd
  cases hv
  exact hw

theorem denialMeaning_yields : (denialMeaning run [o, e]).Yields (IsOf .truth) m :=
  .bind (runValue_yields he rfl) fun _ _ => .lift_bind fun _ _ => .pure ⟨_, rfl, rfl⟩

theorem groupMeaning_yields : (groupMeaning run [e]).Yields (IsOf k) m :=
  .bind (runValue_yields he rfl) fun v hv => .pure ⟨v, rfl, hv⟩

theorem negativeMeaning_yields : (negativeMeaning run [e]).Yields (IsOf k) m := by
  refine .bind (runValue_yields he rfl) fun v hv => .lift fun d hd => ?_
  subst hv
  exact isOf_negate hd

/-- A measure yields a whole number. -/
theorem measureMeaning_yields : (measureMeaning run [o, e]).Yields (IsOf .int) m :=
  .bind he fun _ _ => .lift_bind fun _ _ => .pure ⟨_, rfl, rfl⟩

variable {word : String} (ho : (run o).Yields (· = .word word) m)
include ho

theorem roundingMeaning_yields : (roundingMeaning run [o, e]).Yields (IsOf .int) m := by
  refine .bind ho fun op _ => .bind he fun d _ => .lift_bind fun op _ => ?_
  split
  · exact .fail _
  · exact .lift_bind fun v _ => .lift_bind fun n _ => .pure ⟨_, rfl, rfl⟩

/-- An index yields a text. -/
theorem indexMeaning_yields : (indexMeaning run [o, e]).Yields (IsOf .text) m := by
  refine .bind ho fun name _ => .bind he fun index _ => .lift_bind fun name _ => ?_
  refine .bind (known_yields name) fun entry _ => ?_
  split
  · exact .lift_bind fun v _ => .lift_bind fun c _ => .pure ⟨_, rfl, rfl⟩
  · exact .lift_bind fun kind _ => .lift_bind fun kind' _ => .fail _

/-- A transmutation yields the kind of its word. -/
theorem transmuteMeaning_yields {t t' : Tree} :
    (transmuteMeaning run [t, e, t', o]).Yields (IsOf (.ofWord word)) m := by
  refine .bind (runValue_yields he rfl) fun v _ => .bind ho fun d hd =>
    .lift_bind fun target htarget => ?_
  subst hd
  cases htarget
  cases hw : transmute v word with
  | error f => exact .fail _
  | ok w => exact .pure ⟨w, rfl, kind_transmute hw⟩

end

/-! ## The kinds of runes -/

/-- Of each name, whether it is a rune, and the kinds of the rune's value and past, if it has
them. -/
abbrev Kinds := String → Option (Option Kind × Option Kind)

def Machine.kinds (m : Machine) : Kinds :=
  fun x => (m.scope.find? x).map fun e => (e.value.map Value.kind, e.past.map Value.kind)

section
variable {x : String} (ho : (run o).Yields (· = .word x) m)
include ho

/-- A rune yields the kind of its value. -/
theorem runeMeaning_yields :
    (runeMeaning run [o]).Yields (IsOf (((m.kinds x).bind Prod.fst).getD .int)) m := by
  refine .bind ho fun d hd => .lift_bind fun name hname =>
    .bind (written_yields name) fun entry hentry => ?_
  subst hd
  cases hname
  cases hvalue : entry.value with
  | none => exact .fail _
  | some v => exact .pure ⟨v, rfl, by simp [Machine.kinds, hentry, hvalue]⟩

/-- The past of a rune yields the kind of its earlier value. -/
theorem pastMeaning_yields :
    (pastMeaning run [o, e]).Yields (IsOf (((m.kinds x).bind Prod.snd).getD .int)) m := by
  refine .bind ho fun d hd => .lift_bind fun name hname =>
    .bind (written_yields name) fun entry hentry => ?_
  subst hd
  cases hname
  cases hpast : entry.past with
  | none => exact .fail _
  | some v => exact .pure ⟨v, rfl, by simp [Machine.kinds, hentry, hpast]⟩

end

/-! ## Texts -/

/-- A text with values put into it yields a text, whatever its parts yield. -/
theorem interpolationMeaning_yields {ps : List Tree} {t t' : Tree}
    (hps : ∀ p ∈ ps, (run p).Yields (fun _ => True) m) :
    (interpolationMeaning run (t :: (ps ++ [t']))).Yields (IsOf .text) m := by
  have hparts : ((t :: (ps ++ [t'])).drop 1).dropLast = ps := List.dropLast_concat
  have hall : List.Forall₂ (fun t P => (run t).Yields P m) ps (ps.map fun _ _ => True) := by
    rw [List.forall₂_map_right_iff, List.forall₂_same]
    exact hps
  rw [interpolationMeaning, hparts]
  exact .bind (runAll_yields hall) fun _ _ => .lift_bind fun _ _ => .pure ⟨_, rfl, rfl⟩

theorem partMeaning_yields_prose (he : (run e).Yields (IsOf k) m) :
    (partMeaning run [e]).Yields (IsOf .text) m := by
  refine .bind (runAll_yields (.cons he .nil)) fun ds hds => ?_
  obtain _ | ⟨hd, hnil⟩ := hds
  cases hnil
  obtain ⟨v, rfl, -⟩ := hd
  cases v with
  | text s => exact .pure ⟨_, rfl, rfl⟩
  | int _ | float _ | truth _ => exact .fail _

/-- A braced part yields what stands between its braces. -/
theorem partMeaning_yields_braced {t t' : Tree} (ht : (run t).Yields (· = .nothing) m)
    (he : (run e).Yields (IsOf k) m) (ht' : (run t').Yields (· = .nothing) m) :
    (partMeaning run [t, e, t']).Yields (IsOf k) m := by
  refine .bind (runAll_yields (.cons ht (.cons he (.cons ht' .nil)))) fun ds hds => ?_
  obtain _ | ⟨rfl, _ | ⟨hd, _ | ⟨-, hnil⟩⟩⟩ := hds
  cases hnil
  exact .pure hd

end

/-! ## Expressions -/

/-- The kind of the tree's results, if it has any, is told by `κ` from the kinds of the runes, and
nothing is left behind. -/
def Tree.HasKind (κ : Kinds → Kind) (t : Tree) : Prop :=
  ∀ fuel m, (t.meaning fuel).Yields (Datum.IsOf (κ m.kinds)) m

/-- A form has a kind if its meaning yields it for every fuel and every machine. -/
theorem Tree.HasKind.form {κ : Kinds → Kind} {f : Form} {parts : List Tree}
    (h : ∀ fuel m, (f.meaning fuel (Tree.meaning fuel) parts).Yields (Datum.IsOf (κ m.kinds)) m) :
    (Tree.form f parts).HasKind κ := by
  intro fuel m
  cases fuel with
  | zero => exact nofun
  | succ fuel => exact h fuel m

/-- A leaf yields what its token yields. -/
theorem Tree.meaning_leaf_yields {t : Terminal} {text : String} {Q : Datum → Prop} {m : Machine}
    (h : (tokenMeaning t text).Yields Q m) (fuel : Nat) :
    ((Tree.leaf t text).meaning fuel).Yields Q m := by
  cases fuel with
  | zero => exact nofun
  | succ fuel => exact h

/-- Nothing is cast and nothing is listened to. -/
def Form.isQuiet (f : Form) : Bool := f ∉ [Form.cast, .listen, .promptedListen]

/-- An operator yields its own text. -/
theorem Tree.operator_yields {t : Terminal} (ht : t.use = .ownText) (op : String) (fuel : Nat)
    (m : Machine) :
    ((Tree.leaf t op).meaning fuel).Yields (· = .word op) m := by
  refine Tree.meaning_leaf_yields ?_ fuel
  rw [tokenMeaning, ht]
  exact .pure rfl

/-- A token without a use yields nothing. -/
theorem Tree.silent_yields {t : Terminal} (ht : t.use = .nothing) (text : String) (fuel : Nat)
    (m : Machine) :
    ((Tree.leaf t text).meaning fuel).Yields (· = .nothing) m := by
  refine Tree.meaning_leaf_yields ?_ fuel
  rw [tokenMeaning, ht]
  exact .pure rfl

theorem Tree.nameToken_yields (x : String) (fuel : Nat) (m : Machine) :
    ((Tree.leaf .name x).meaning fuel).Yields (· = .word x) m := by
  refine Tree.meaning_leaf_yields (.lift fun d hd => ?_) fuel
  unfold nameWord at hd
  split at hd
  · cases hd
  · cases hd
    rfl

/-- A name yields its word. -/
theorem Tree.named_yields (x : String) (fuel : Nat) (m : Machine) :
    ((Tree.form .name [.leaf .name x]).meaning fuel).Yields (· = .word x) m := by
  cases fuel with
  | zero => exact nofun
  | succ fuel =>
    refine .bind (Tree.nameToken_yields x fuel m) fun d hd => .lift_bind fun name hname => .pure ?_
    subst hd
    cases hname
    rfl

/-- A text literal yields a text. -/
theorem literalText_yields (s : String) (m : Machine) :
    (liftM (literalText s) : Spell Datum).Yields (Datum.IsOf .text) m := by
  refine .lift fun d hd => ?_
  unfold literalText at hd
  split at hd
  · cases hd
    exact ⟨_, rfl, rfl⟩
  · cases hd

/-- **The kind of an expression** in which nothing is cast or listened to can be told from the kinds
of the runes. -/
theorem Expression.exists_kind {t : Tree} (h : Expression t)
    (hquiet : t.isMadeOf Form.isQuiet = true) :
    ∃ κ, t.HasKind κ := by
  induction h with
  | truth text =>
    exact ⟨fun _ => .truth, fun fuel m => Tree.meaning_leaf_yields (.pure ⟨_, rfl, rfl⟩) fuel⟩
  | quoted text =>
    exact ⟨fun _ => .text, fun fuel m => Tree.meaning_leaf_yields (literalText_yields _ m) fuel⟩
  | whole text =>
    exact ⟨fun _ => .int, fun fuel m =>
      Tree.meaning_leaf_yields (.lift_bind fun _ _ => .pure ⟨_, rfl, rfl⟩) fuel⟩
  | decimal text =>
    exact ⟨fun _ => .float, fun fuel m =>
      Tree.meaning_leaf_yields (.lift_bind fun _ _ => .pure ⟨_, rfl, rfl⟩) fuel⟩
  | @either l r op _ _ ihl ihr =>
    have hparts := Tree.isMadeOf_part rfl hquiet
    obtain ⟨κl, hl⟩ := ihl (hparts l (by simp))
    obtain ⟨κr, hr⟩ := ihr (hparts r (by simp))
    exact ⟨fun _ => .truth, .form fun fuel m =>
      eitherMeaning_yields (hl fuel m) (hr fuel m)⟩
  | @both l r op _ _ ihl ihr =>
    have hparts := Tree.isMadeOf_part rfl hquiet
    obtain ⟨κl, hl⟩ := ihl (hparts l (by simp))
    obtain ⟨κr, hr⟩ := ihr (hparts r (by simp))
    exact ⟨fun _ => .truth, .form fun fuel m =>
      bothMeaning_yields (hl fuel m) (hr fuel m)⟩
  | @comparison l r op _ _ ihl ihr =>
    have hparts := Tree.isMadeOf_part rfl hquiet
    obtain ⟨κl, hl⟩ := ihl (hparts l (by simp))
    obtain ⟨κr, hr⟩ := ihr (hparts r (by simp))
    exact ⟨fun _ => .truth, .form fun fuel m =>
      comparisonMeaning_yields (hl fuel m) (hr fuel m) (Tree.operator_yields rfl op fuel m)⟩
  | @sum l r op _ _ ihl ihr =>
    have hparts := Tree.isMadeOf_part rfl hquiet
    obtain ⟨κl, hl⟩ := ihl (hparts l (by simp))
    obtain ⟨κr, hr⟩ := ihr (hparts r (by simp))
    exact ⟨fun Γ => calculatedKind (Calculation.ofSum? op) (κl Γ), .form fun fuel m =>
      sumMeaning_yields (hl fuel m) (hr fuel m) (Tree.operator_yields rfl op fuel m)⟩
  | @product l r op _ _ ihl ihr =>
    have hparts := Tree.isMadeOf_part rfl hquiet
    obtain ⟨κl, hl⟩ := ihl (hparts l (by simp))
    obtain ⟨κr, hr⟩ := ihr (hparts r (by simp))
    exact ⟨fun Γ => calculatedKind (Calculation.ofProduct? op) (κl Γ), .form fun fuel m =>
      productMeaning_yields (hl fuel m) (hr fuel m) (Tree.operator_yields rfl op fuel m)⟩
  | @power l r _ _ ihl ihr =>
    have hparts := Tree.isMadeOf_part rfl hquiet
    obtain ⟨κl, hl⟩ := ihl (hparts l (by simp))
    obtain ⟨κr, hr⟩ := ihr (hparts r (by simp))
    exact ⟨κl, .form fun fuel m => powerMeaning_yields (hl fuel m) (hr fuel m)⟩
  | @denial e op _ ih =>
    obtain ⟨κ, he⟩ := ih (Tree.isMadeOf_part rfl hquiet e (by simp))
    exact ⟨fun _ => .truth, .form fun fuel m => denialMeaning_yields (he fuel m)⟩
  | @negative e _ ih =>
    obtain ⟨κ, he⟩ := ih (Tree.isMadeOf_part rfl hquiet e (by simp))
    exact ⟨κ, .form fun fuel m => negativeMeaning_yields (he fuel m)⟩
  | @rounding e op _ ih =>
    obtain ⟨κ, he⟩ := ih (Tree.isMadeOf_part rfl hquiet e (by simp))
    exact ⟨fun _ => .int, .form fun fuel m =>
      roundingMeaning_yields (he fuel m) (Tree.operator_yields rfl op fuel m)⟩
  | @group e _ ih =>
    obtain ⟨κ, he⟩ := ih (Tree.isMadeOf_part rfl hquiet e (by simp))
    exact ⟨κ, .form fun fuel m => groupMeaning_yields (he fuel m)⟩
  | @measure e word _ ih =>
    obtain ⟨κ, he⟩ := ih (Tree.isMadeOf_part rfl hquiet e (by simp))
    exact ⟨fun _ => .int, .form fun fuel m => measureMeaning_yields (he fuel m)⟩
  | @index x e _ ih =>
    obtain ⟨κ, he⟩ := ih (Tree.isMadeOf_part rfl hquiet e (by simp))
    exact ⟨fun _ => .text, .form fun fuel m =>
      indexMeaning_yields (he fuel m) (Tree.named_yields x fuel m)⟩
  | @transmute e word arrow kind _ ih =>
    obtain ⟨κ, he⟩ := ih (Tree.isMadeOf_part rfl hquiet e (by simp))
    exact ⟨fun _ => .ofWord kind, .form fun fuel m =>
      transmuteMeaning_yields (he fuel m) (Tree.operator_yields rfl kind fuel m)⟩
  | @braced e mark mark' _ ih =>
    obtain ⟨κ, he⟩ := ih (Tree.isMadeOf_part rfl hquiet e (by simp))
    exact ⟨κ, .form fun fuel m =>
      partMeaning_yields_braced (Tree.silent_yields rfl mark fuel m) (he fuel m)
        (Tree.silent_yields rfl mark' fuel m)⟩
  | rune x =>
    exact ⟨fun Γ => ((Γ x).bind Prod.fst).getD .int, .form fun fuel m =>
      runeMeaning_yields (Tree.nameToken_yields x fuel m)⟩
  | past x yore =>
    exact ⟨fun Γ => ((Γ x).bind Prod.snd).getD .int, .form fun fuel m =>
      pastMeaning_yields (Tree.nameToken_yields x fuel m)⟩
  | prose text =>
    exact ⟨fun _ => .text, .form fun fuel m =>
      partMeaning_yields_prose (Tree.meaning_leaf_yields (literalText_yields text m) fuel)⟩
  | @interpolation ps mark mark' _ ih =>
    have hps : ∀ p ∈ ps, ∃ κ, p.HasKind κ :=
      fun p hp => ih p hp (Tree.isMadeOf_part rfl hquiet p (by simp [hp]))
    refine ⟨fun _ => .text, .form fun fuel m => interpolationMeaning_yields fun p hp => ?_⟩
    obtain ⟨κ, hp⟩ := hps p hp
    exact (hp fuel m).imp fun _ _ => trivial
  | collection parts => exact ⟨fun _ => .int, .form fun _ _ => .fail _⟩
  | cast parts =>
    exact absurd (show Form.cast.isQuiet = true from Tree.passes_here hquiet) (by decide)
  | listen parts =>
    exact absurd (show Form.listen.isQuiet = true from Tree.passes_here hquiet) (by decide)
  | promptedListen parts =>
    exact absurd (show Form.promptedListen.isQuiet = true from Tree.passes_here hquiet) (by decide)

/-- **The kind of a result depends on kinds only.** Let an expression of a program be evaluated in
two machines that have the same runes, and let the values and the pasts of each rune be of the same
kind in both. If nothing is cast and nothing is listened to, and if there are results, then they are
rune's values of the same kind. -/
theorem same_kinds_same_kind {source : String} {program e : Tree}
    (hread : Tree.read source = .ok program) (he : e ∈ program.subtrees)
    (hexpression : e.isExpression = true) (hquiet : e.isMadeOf Form.isQuiet = true) {m m' : Machine}
    (hkinds : ∀ x, m.kinds x = m'.kinds x) {fuel fuel' : Nat} {d d' : Datum} {m₁ m₁' : Machine}
    (hd : e.meaning fuel m = (.done d, m₁)) (hd' : e.meaning fuel' m' = (.done d', m₁')) :
    ∃ k, d.kind = .ok k ∧ d'.kind = .ok k := by
  obtain ⟨κ, hκ⟩ := (Expression.of_read hread he hexpression).exists_kind hquiet
  obtain ⟨⟨v, rfl, hv⟩, -⟩ := hκ fuel m d m₁ hd
  obtain ⟨⟨v', rfl, hv'⟩, -⟩ := hκ fuel' m' d' m₁' hd'
  have hsame : v.kind = v'.kind := by rw [hv, hv', funext hkinds]
  exact ⟨v.kind, rfl, congrArg Except.ok hsame.symm⟩

/-- The machine with a whole number and its past in the rune `n`. -/
def wholeHeld (value past : Int) : Machine :=
  { scope := [{ own := [("n", ⟨some (.int value), some .int, false, some (.int past)⟩)] }] }

/-- The machine that holds a whole number with a past one knows the kinds of both. -/
theorem kinds_wholeHeld (value past : Int) (x : String) :
    (wholeHeld value past).kinds x = if x = "n" then some (some .int, some .int) else none := by
  by_cases hx : x = "n"
  · subst hx
    rfl
  · have hfind : (wholeHeld value past).scope.find? x = none := by
      rw [wholeHeld, Scope.find?_cons, Table.find?_cons, if_neg hx]
      rfl
    rw [Machine.kinds, hfind, if_neg hx]
    rfl

/-- A past that stands behind a product is the past of its second factor. -/
theorem read_timesPast :
    Tree.read "reveal n * n from days of yore;" = .ok (revealProgram (timesPast "n")) :=
  GivenText.timesPast.read

/-- The product of a whole number and its past is whole, whatever the numbers are. -/
theorem same_kinds_same_kind_product :
    (timesPast "n").meaning 4 (wholeHeld 3 2) = (.done (.rune (.int 6)), wholeHeld 3 2) ∧
      (timesPast "n").meaning 5 (wholeHeld (-1) 0) = (.done (.rune (.int 0)), wholeHeld (-1) 0) ∧
      ∃ k, (Datum.rune (.int 6)).kind = .ok k ∧ (Datum.rune (.int 0)).kind = .ok k := by
  have h : (timesPast "n").meaning 4 (wholeHeld 3 2) = (.done (.rune (.int 6)), wholeHeld 3 2) :=
    rfl
  have h' : (timesPast "n").meaning 5 (wholeHeld (-1) 0) =
      (.done (.rune (.int 0)), wholeHeld (-1) 0) := rfl
  have hmem : timesPast "n" ∈ (revealProgram (timesPast "n")).subtrees := by
    simp [revealProgram, Tree.subtrees, Tree.subtreesAll, Tree.self_mem_subtrees]
  have hkinds : ∀ x, (wholeHeld 3 2).kinds x = (wholeHeld (-1) 0).kinds x :=
    fun x => (kinds_wholeHeld 3 2 x).trans (kinds_wholeHeld (-1) 0 x).symm
  exact ⟨h, h', same_kinds_same_kind read_timesPast hmem rfl (by decide) hkinds h h'⟩

end Spellbook
