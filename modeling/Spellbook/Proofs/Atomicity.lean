import Spellbook.Proofs.Check

/-!
# Statements that do all or nothing

An expression in which nothing is cast only looks at the runes, however it ends
(`Tree.meaning_keeps_untouched`). A statement on a rune evaluates such expressions and asks about
the rune first, and what it does to the rune is the last thing that it does: if it does not get so
far, then nothing has changed (`Form.meaning_keeps_allOrNothing`).
-/

namespace Spellbook

/-! ## Trees made of some kinds of node -/

/-- A check that all nodes are of some kinds. -/
def madeOf (allowed : Form → Bool) : Check Unit where
  here _ t :=
    match t with
    | .node (.form f) _ => allowed f
    | _ => true
  inside _ _ _ := ()
  body? := none

/-- Whether all nodes of a tree are of some kinds. -/
def Tree.isMadeOf (allowed : Form → Bool) (t : Tree) : Bool := t.passes (madeOf allowed) ()

/-- The parts of a tree are made of the same forms. -/
theorem Tree.isMadeOf_part {allowed : Form → Bool} {f : Form} {parts : List Tree}
    (hf : f.isDirect = true) (h : (Tree.node (.form f) parts).isMadeOf allowed = true) :
    ∀ t ∈ parts, t.isMadeOf allowed = true := by
  intro t ht
  obtain ⟨i, hi⟩ := List.mem_iff_getElem?.mp ht
  exact Tree.passes_part hf h hi

/-- The kinds of node that expressions consist of. -/
def Form.inExpression : Form → Bool
  | .either | .both | .comparison | .sum | .product | .denial | .negative | .rounding
    | .power | .group
  | .measure | .index | .collection | .tome | .tomeContents | .name | .past | .yore | .rune
  | .cast | .arguments | .listen | .promptedListen | .transmute | .interpolation | .part => true
  | _ => false

/-- An expression in which nothing is cast. -/
def Tree.isCastFree (t : Tree) : Bool := t.isMadeOf fun f => f.inExpression && f != .cast

/-! ## Expressions -/

/-- The runes and the incantations are left as they were. -/
def Law.untouched : Law := fun m _ m' => m'.scope = m.scope ∧ m'.book = m.book

theorem Law.untouched_sequential : untouched.Sequential where
  failed _ := ⟨rfl, rfl⟩
  exhausted _ := ⟨rfl, rfl⟩
  speech _ _ hscope hbook := ⟨hscope, hbook⟩
  trans h h' := ⟨h'.1.trans h.1, h'.2.trans h.2⟩

/-- The forms of expressions but the cast are plain and direct. -/
theorem Form.isPlain_of_inExpression {f : Form} (h : (f.inExpression && f != .cast) = true) :
    f.isPlain = true ∧ f.isDirect = true := by
  revert h
  cases f <;> decide

/-- **An expression in which nothing is cast touches nothing.** -/
theorem Tree.meaning_keeps_untouched {t : Tree} (ht : t.isCastFree = true) (fuel : Nat) :
    (t.meaning fuel).Keeps .untouched := by
  refine Tree.meaning_keeps_of_forms (fun _ : Unit => .untouched) (fun _ t => t.isCastFree = true)
    (fun _ => Law.untouched_sequential) (fun _ _ => ?_) (fun fuel ih _ f parts hf => ?_)
      fuel (s := ()) ht
  · exact ⟨fun _ _ => ⟨rfl, rfl⟩, fun _ _ => ⟨rfl, rfl⟩⟩
  · obtain ⟨hplain, hdirect⟩ := Form.isPlain_of_inExpression (Tree.passes_here hf)
    have hparts : ∀ t ∈ parts, (t.meaning fuel).Keeps .untouched :=
      fun t ht => ih (s := ()) (Tree.isMadeOf_part hdirect hf t ht)
    exact Form.meaning_keeps_of_isPlain Law.untouched_sequential hparts fuel hplain

/-! ## Statements -/

/-- The runes and the incantations are left as they were, unless the spell comes to a result. -/
def Law.allOrNothing : Law := fun m o m' => o = .done ∨ m'.scope = m.scope ∧ m'.book = m.book

/-- The statements that write, change or dispel a rune. -/
def runeStatements : List Form :=
  [.declare, .declareSealed, .assign, .dispel, .sealRune, .step, .compound]

section
variable {α β : Type} {x : Spell α} {f : α → Spell β}

/-- What comes before the act must not touch anything. -/
theorem Spell.allOrNothing_bind (hx : x.Keeps .untouched) (hf : ∀ a, (f a).Keeps .allOrNothing) :
    (x >>= f).Keeps .allOrNothing := by
  intro m
  refine Spell.Ends.bind (.inr (hx m)) fun a m₁ hdone _ => ?_
  have hsame : Law.untouched m .done m₁ := by
    have hx := hx m
    rwa [Spell.Ends, hdone] at hx
  exact (hf a m₁).imp_right fun h => Law.untouched_sequential.trans (o := .done) hsame h

/-- A check before anything was changed leaves the case where it passes. -/
theorem Spell.allOrNothing_check {c : Prop} [Decidable c] {e : Fault} {k : α → Spell β}
    {k' : Spell β} (hk : k'.Keeps .allOrNothing) :
    (if c then (Spell.fail e : Spell α) >>= k else k').Keeps .allOrNothing :=
  fun m => Spell.Ends.check (.inr ⟨rfl, rfl⟩) fun _ => hk m

end

section
open Spell
variable {run : Run} {parts : List Tree} (h : ∀ t ∈ parts, (run t).Keeps .untouched)
include h

theorem declareMeaning_keeps_allOrNothing (isSealed : Bool) (n : Nat) :
    (declareMeaning isSealed n run parts).Keeps .allOrNothing := by
  have hS := Law.untouched_sequential
  refine allOrNothing_bind (runKey_keeps hS h n) fun name => ?_
  refine allOrNothing_bind (hS.find? name) fun found => ?_
  refine allOrNothing_check ?_
  dsimp only
  split
  · exact fun _ => .inl rfl
  · exact fun _ => .inl rfl
  · rename_i t _ ht
    refine allOrNothing_bind (h t (List.mem_of_getElem? ht)) fun d => ?_
    refine allOrNothing_bind (hS.lift _) fun v => ?_
    exact fun _ => .inl rfl

theorem assignMeaning_keeps_allOrNothing : (assignMeaning run parts).Keeps .allOrNothing := by
  have hS := Law.untouched_sequential
  refine allOrNothing_bind (runPart_keeps hS h 0) fun name => ?_
  refine allOrNothing_bind (runPart_keeps hS h 1) fun d => ?_
  refine allOrNothing_bind (hS.lift _) fun name => ?_
  refine allOrNothing_bind (hS.changeable name) fun e => ?_
  refine allOrNothing_bind (hS.lift _) fun v => ?_
  exact fun _ => .inl rfl

theorem dispelMeaning_keeps_allOrNothing : (dispelMeaning run parts).Keeps .allOrNothing := by
  have hS := Law.untouched_sequential
  refine allOrNothing_bind (runKey_keeps hS h 1) fun name => ?_
  refine allOrNothing_bind (hS.written name) fun e => ?_
  exact fun _ => .inl rfl

theorem sealMeaning_keeps_allOrNothing : (sealMeaning run parts).Keeps .allOrNothing := by
  have hS := Law.untouched_sequential
  refine allOrNothing_bind (runKey_keeps hS h 1) fun name => ?_
  refine allOrNothing_bind (hS.changeable name) fun e => ?_
  exact fun _ => .inl rfl

theorem stepMeaning_keeps_allOrNothing : (stepMeaning run parts).Keeps .allOrNothing := by
  have hS := Law.untouched_sequential
  refine allOrNothing_bind (runKey_keeps hS h 0) fun name => ?_
  refine allOrNothing_bind (hS.changeable name) fun e => ?_
  refine allOrNothing_bind (runPart_keeps hS h 1) fun op => ?_
  refine allOrNothing_bind (hS.known name) fun e => ?_
  refine allOrNothing_bind (hS.lift _) fun isNumber => ?_
  dsimp only
  split
  · exact allOrNothing_bind (hS.lift _) fun s _ => .inr ⟨rfl, rfl⟩
  · refine allOrNothing_bind (hS.lift _) fun op => ?_
    split
    · exact fun _ => .inr ⟨rfl, rfl⟩
    · refine allOrNothing_bind (hS.lift _) fun d => ?_
      refine allOrNothing_bind (hS.lift _) fun v => ?_
      exact fun _ => .inl rfl

theorem compoundMeaning_keeps_allOrNothing : (compoundMeaning run parts).Keeps .allOrNothing := by
  have hS := Law.untouched_sequential
  refine allOrNothing_bind (runKey_keeps hS h 0) fun name => ?_
  refine allOrNothing_bind (hS.changeable name) fun e => ?_
  refine allOrNothing_bind (runPart_keeps hS h 1) fun op => ?_
  refine allOrNothing_bind (runPart_keeps hS h 2) fun other => ?_
  refine allOrNothing_bind (hS.known name) fun e => ?_
  refine allOrNothing_bind (hS.lift _) fun isNumber => ?_
  refine allOrNothing_bind (hS.lift _) fun kind => ?_
  dsimp only
  split
  · exact allOrNothing_bind (hS.lift _) fun s _ => .inr ⟨rfl, rfl⟩
  · refine allOrNothing_bind (hS.lift _) fun op => ?_
    split
    · exact fun _ => .inr ⟨rfl, rfl⟩
    · refine allOrNothing_bind (hS.lift _) fun a => ?_
      refine allOrNothing_bind (hS.lift _) fun b => ?_
      refine allOrNothing_bind (hS.lift _) fun v => ?_
      exact fun _ => .inl rfl

/-- **A statement on a rune does all or nothing**, if its parts touch nothing. -/
theorem Form.meaning_keeps_allOrNothing {f : Form} (hf : f ∈ runeStatements) (fuel : Nat) :
    (f.meaning fuel run parts).Keeps .allOrNothing := by
  simp only [runeStatements, List.mem_cons, List.not_mem_nil, or_false] at hf
  obtain rfl | rfl | rfl | rfl | rfl | rfl | rfl := hf
  · exact declareMeaning_keeps_allOrNothing h false 1
  · exact declareMeaning_keeps_allOrNothing h true 2
  · exact assignMeaning_keeps_allOrNothing h
  · exact dispelMeaning_keeps_allOrNothing h
  · exact sealMeaning_keeps_allOrNothing h
  · exact stepMeaning_keeps_allOrNothing h
  · exact compoundMeaning_keeps_allOrNothing h

end

/-- **Evaluation is pure and statements are atomic, where nothing is cast.** An expression leaves
the runes and the incantations as they were, in whatever way it ends. So does a statement on a rune
that fails, or that comes to no result for another reason. -/
theorem cast_free_atomic (fuel : Nat) (m : Machine) :
    (∀ e : Tree, e.isCastFree = true →
      (e.meaning fuel m).2.scope = m.scope ∧ (e.meaning fuel m).2.book = m.book) ∧
    ∀ f ∈ runeStatements, ∀ parts : List Tree, (∀ t ∈ parts, t.isCastFree = true) →
      ((Tree.form f parts).meaning fuel m).1.outcome ≠ .done →
        ((Tree.form f parts).meaning fuel m).2.scope = m.scope ∧
          ((Tree.form f parts).meaning fuel m).2.book = m.book := by
  refine ⟨fun e he => Tree.meaning_keeps_untouched he fuel m, fun f hf parts hparts hend => ?_⟩
  cases fuel with
  | zero => exact ⟨rfl, rfl⟩
  | succ fuel =>
    have hrun : ∀ t ∈ parts, (t.meaning fuel).Keeps .untouched :=
      fun t ht => Tree.meaning_keeps_untouched (hparts t ht) fuel
    exact (Form.meaning_keeps_allOrNothing hrun hf fuel m).resolve_left hend

/-- The machine with a number in the rune `n` and a line to listen to. -/
def numberAndLine : Machine where
  scope := [{ own := [("n", ⟨some (.int 2), some .int, false, some (.int 1)⟩)] }]
  input := "3\n".toList

/-- The tree of `listen`. -/
def hearing : Tree := .form .listen [.leaf .listen "listen"]

/-- The parts of `n += listen`. -/
def addsHeard : List Tree := [.named "n", .leaf .compoundOp "+=", hearing]

/-- A number is to be changed by a line that is listened to. The line is gone, but it is no rune's
value, and the number, its kind and its past are still there. -/
theorem cast_free_atomic_heard :
    hearing.meaning 4 numberAndLine = (.done (.word "3"), { numberAndLine with input := [] }) ∧
      (hearing.meaning 4 numberAndLine).2.scope = numberAndLine.scope ∧
      ((Tree.form .compound addsHeard).meaning 4 numberAndLine).1 =
        .failed (.noAttribute "str" "type_name") ∧
      ((Tree.form .compound addsHeard).meaning 4 numberAndLine).2.scope = numberAndLine.scope := by
  obtain ⟨hpure, hatomic⟩ := cast_free_atomic 4 numberAndLine
  have hfailed : ((Tree.form .compound addsHeard).meaning 4 numberAndLine).1 =
      .failed (.noAttribute "str" "type_name") := rfl
  have hend : ((Tree.form .compound addsHeard).meaning 4 numberAndLine).1.outcome ≠ .done := by
    rw [hfailed]
    decide
  exact ⟨rfl, (hpure hearing (by decide)).1, hfailed,
    (hatomic .compound (by decide) addsHeard (by decide) hend).1⟩

end Spellbook
