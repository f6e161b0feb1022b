import Spellbook.Proofs.CycleRune
import Spellbook.Proofs.Truth

/-!
# Cycles with a condition as cycles without an end

A cycle with `lest` asks its condition before each turn, outside of the body. A cycle without an end
has no condition, but its body can shatter it. So the condition may as well be asked at the
beginning of the body, by a `foretell` whose block shatters the cycle: both come to the same ending
in the same machine, or both to none (`lest_cycle_guarded`). The one thing in the way is a condition
that shatters or persists itself, as a cast may do: the second cycle takes it for its own.

The two are compared turn by turn. With the same fuel for the block they do the same turns
(`endlessTurns_guarded`), but the guard hands less fuel to the condition. Since more fuel never
changes an ending, each cycle lies between two runs of the other.
-/

namespace Spellbook

/-- The tree of `cycle (ad infinitum) block`. -/
def endlessCycle (block : Tree) : Tree :=
  .form .endlessCycle [.leaf .cycle "cycle", .leaf .ad "ad", .leaf .infinitum "infinitum", block]

/-- The tree of `foretell (c) { shatter; }`. -/
def shatterIf (c : Tree) : Tree :=
  .form .foretell [.leaf .foretell "foretell", c, shattering, .absent, .absent]

/-- The tree of `cycle (ad infinitum) { foretell (c) { shatter; } body }`. -/
def guardedCycle (c : Tree) (body : List Tree) : Tree :=
  endlessCycle (.form .block (shatterIf c :: body))

/-- In `m` the condition neither shatters a cycle nor persists in one. -/
def Tree.SparesCycles (c : Tree) (m : Machine) : Prop :=
  ∀ n, (c.meaning n m).1.outcome ≠ .shattered ∧ (c.meaning n m).1.outcome ≠ .persisted

/-- The machines in which a cycle with `lest` asks its condition, if it begins in `m₀`. -/
inductive LestReaches (c block : Tree) (m₀ : Machine) : Machine → Prop
  | start : LestReaches c block m₀ m₀
  | turn {m m₁ m₂ : Machine} {n : Nat} {d : Datum} (hbefore : LestReaches c block m₀ m)
      (hcondition : c.meaning n m = (.done d, m₁)) (hfalse : d.truth = .ok false)
        (hturned : Turned block m₁ m₂) :
      LestReaches c block m₀ m₂

/-- Wherever the cycle asks its condition, the condition leaves the cycle to its block. -/
def LestSpares (c block : Tree) (m₀ : Machine) : Prop :=
  ∀ m, LestReaches c block m₀ m → c.SparesCycles m

/-! ### Turns -/

section
variable {c : Tree} {body : List Tree} {m₀ m : Machine} {n : Nat}

theorem goesOn_congr {x y : Spell Datum} (h : x m = y m) : goesOn x m = goesOn y m := by
  refine Spell.bind_of_eq ?_
  rw [Spell.attempt, Spell.attempt, h]

/-- A cycle does not concern itself with a beginning of its body that neither shatters nor
persists. -/
theorem goesOn_bind {α : Type} {x : Spell α} {f : α → Spell Datum}
    (hx : (x m).1.outcome ≠ .shattered ∧ (x m).1.outcome ≠ .persisted) :
    goesOn (x >>= f) m = (x >>= fun a => goesOn (f a)) m := by
  rw [goesOn, Spell.bind_apply, Spell.bind, Spell.attempt, Spell.bind_apply, Spell.bind,
    Spell.bind_apply, Spell.bind]
  rcases hxm : x m with ⟨e, m'⟩
  rw [hxm] at hx
  cases e with
  | done a => rfl
  | proclaimed | failed | exhausted => rfl
  | shattered => exact absurd rfl hx.1
  | persisted => exact absurd rfl hx.2

/-- The guard asks the condition, and shatters the cycle if it is true. -/
theorem meaning_shatterIf (c : Tree) (n : Nat) (m : Machine) : (shatterIf c).meaning (n + 4) m =
    (c.meaning (n + 3) >>= fun d => liftM d.truth >>= fun isTrue =>
      if isTrue then Spell.finish .shattered else pure .nothing) m := by
  refine Spell.bind_congr (x := c.meaning (n + 3)) fun d m₁ _ => ?_
  refine Spell.bind_congr (x := liftM d.truth) fun isTrue m₂ _ => ?_
  cases isTrue <;> rfl

/-- A block that begins with a guard goes on with the rest where the condition is false. -/
theorem meaning_guarded (c : Tree) (body : List Tree) (n : Nat) (m : Machine) :
    (Tree.form .block (shatterIf c :: body)).meaning (n + 5) m =
      (c.meaning (n + 3) >>= fun d => liftM d.truth >>= fun isTrue =>
        if isTrue then Spell.finish .shattered else (Tree.form .block body).meaning (n + 5)) m := by
  show ((shatterIf c).meaning (n + 4) >>= fun _ => (Tree.form .block body).meaning (n + 5)) m = _
  rw [Spell.bind_of_eq (meaning_shatterIf c n m), Spell.bind_assoc]
  refine Spell.bind_congr fun d m₁ _ => ?_
  rw [Spell.bind_assoc]
  refine Spell.bind_congr fun isTrue m₂ _ => ?_
  cases isTrue <;> rfl

/-- A turn with a guard, if the condition leaves the cycle to it. -/
theorem goesOn_guarded (hc : c.SparesCycles m) (body : List Tree) (n : Nat) :
    goesOn ((Tree.form .block (shatterIf c :: body)).meaning (n + 5)) m =
      (c.meaning (n + 3) >>= fun d => liftM d.truth >>= fun isTrue =>
        if isTrue then pure false else goesOn ((Tree.form .block body).meaning (n + 5))) m := by
  rw [goesOn_congr (meaning_guarded c body n m), goesOn_bind (hc (n + 3))]
  refine Spell.bind_congr fun d m₁ _ => ?_
  cases d.truth with
  | error f => rfl
  | ok isTrue => cases isTrue <;> rfl

/-- With the same fuel for the block, the cycle with the guard does the turns of the cycle with the
condition. -/
theorem endlessTurns_guarded (hc : LestSpares c (.form .block body) m₀)
    (h : LestReaches c (.form .block body) m₀ m) (n turns : Nat) :
    endlessTurns ((Tree.form .block (shatterIf c :: body)).meaning (n + 5)) turns m =
      lestTurns (c.meaning (n + 3)) ((Tree.form .block body).meaning (n + 5)) turns m := by
  induction turns generalizing m with
  | zero => rfl
  | succ turns ih =>
    show (goesOn _ >>= fun goes => if goes then endlessTurns _ turns else pure () : Spell Unit) m =
      _
    rw [Spell.bind_of_eq (goesOn_guarded (hc m h) body n), Spell.bind_assoc]
    refine Spell.bind_congr fun d m₁ hcondition => ?_
    cases htruth : d.truth with
    | error f => rfl
    | ok isTrue =>
      cases isTrue with
      | true => rfl
      | false =>
        -- the turn is done in the same machine, and after it the condition is asked again
        refine Spell.bind_congr (x := goesOn _) fun goes m₂ hgoes => ?_
        obtain ⟨rfl, hturned⟩ | ⟨rfl, -⟩ := goesOn_done hgoes
        · exact ih (h.turn hcondition htruth ⟨n + 5, hturned⟩)
        · rfl

/-! ### Fuel -/

/-- A tree whose endings are all endings of another comes to none if the other does not. -/
theorem exhausted_of_endings {t t' : Tree}
    (h : ∀ e m', e.outcome ≠ .exhausted → (∃ n, t.meaning n m = (e, m')) →
      ∃ n, t'.meaning n m = (e, m'))
    (h' : ∀ n, (t'.meaning n m).1.outcome = .exhausted) (n : Nat) : (t.meaning n m).1.outcome =
      .exhausted := by
  by_contra hout
  obtain ⟨n', hn'⟩ := h _ _ hout ⟨n, rfl⟩
  have hnone := h' n'
  rw [hn'] at hnone
  exact hout hnone

/-- The cycle with the guard does the turns of the cycle with the condition, which has a little less
fuel. -/
theorem meaning_guardedCycle (hc : LestSpares c (.form .block body) m) (n : Nat) :
    (guardedCycle c body).meaning (n + 6) m =
      (lestTurns (c.meaning (n + 3)) ((Tree.form .block body).meaning (n + 5))
        (n + 5) >>= fun _ => pure .nothing) m :=
  Spell.bind_of_eq (endlessTurns_guarded hc .start n (n + 5))

theorem guardedCycle_of_lestCycle (hc : LestSpares c (.form .block body) m)
    {e : Ending Datum} {m' : Machine} (he : e.outcome ≠ .exhausted)
    (h : (lestCycle c (.form .block body)).meaning n m = (e, m')) :
    (guardedCycle c body).meaning (n + 6) m = (e, m') := by
  have hlong : (lestTurns (c.meaning (n + 3)) ((Tree.form .block body).meaning (n + 3)) (n + 3) >>=
      fun _ =>
      pure .nothing : Spell Datum) m = (e, m') := Tree.meaning_of_le (k := n + 4) (by omega) he h
  have hmore :=
    (lestTurns_outlasts (Tree.meaning_outlasts (Nat.le_add_right (n + 3) 2) (.form .block body))
    (Nat.le_add_right (n + 3) 2) (.refl (c.meaning (n + 3)))).andThen fun _ =>
      (pure .nothing : Spell Datum)
  rw [meaning_guardedCycle hc, ← hlong]
  exact hmore m (by rw [hlong]; exact he)

theorem lestCycle_of_guardedCycle (hc : LestSpares c (.form .block body) m)
    {e : Ending Datum} {m' : Machine} (he : e.outcome ≠ .exhausted)
    (h : (guardedCycle c body).meaning n m = (e, m')) :
    (lestCycle c (.form .block body)).meaning (n + 6) m = (e, m') := by
  have hlong : (guardedCycle c body).meaning (n + 6) m = (e, m') :=
    Tree.meaning_of_le (by omega) he h
  rw [meaning_guardedCycle hc] at hlong
  have hmore :=
    (lestTurns_outlasts (.refl ((Tree.form .block body).meaning (n + 5))) (Nat.le_refl (n + 5))
    (Tree.meaning_outlasts (Nat.le_add_right (n + 3) 2) c)).andThen fun _ =>
      (pure .nothing : Spell Datum)
  rw [← hlong]
  exact hmore m (by rw [hlong]; exact he)

/-- **A cycle with a condition is a cycle without an end whose body begins with a guard.** If the
condition, wherever it is asked, neither shatters a cycle nor persists in one, then the two come to
the same endings, in machines with the same runes, incantations, output, input and draws. And if one
comes to no ending with any fuel, neither does the other. -/
theorem lest_cycle_guarded (hc : LestSpares c (.form .block body) m) :
    (∀ e m', e.outcome ≠ .exhausted →
      ((∃ n, (lestCycle c (.form .block body)).meaning n m = (e, m')) ↔
        ∃ n, (guardedCycle c body).meaning n m = (e, m'))) ∧
    ((∀ n, ((lestCycle c (.form .block body)).meaning n m).1.outcome = .exhausted) ↔
      ∀ n, ((guardedCycle c body).meaning n m).1.outcome = .exhausted) := by
  have hendings (e : Ending Datum) (m' : Machine) (he : e.outcome ≠ .exhausted) :
      (∃ n, (lestCycle c (.form .block body)).meaning n m = (e, m')) ↔
        ∃ n, (guardedCycle c body).meaning n m = (e, m') := by
    constructor
    · rintro ⟨n, h⟩
      exact ⟨n + 6, guardedCycle_of_lestCycle hc he h⟩
    · rintro ⟨n, h⟩
      exact ⟨n + 6, lestCycle_of_guardedCycle hc he h⟩
  exact ⟨hendings, exhausted_of_endings fun e m' he => (hendings e m' he).2,
    exhausted_of_endings fun e m' he => (hendings e m' he).1⟩

end

/-- The condition that listens to a line and is true if there is something in it. -/
def listening : Tree := .form .listen [.leaf .listen "listen"]

theorem listening_sparesCycles (m : Machine) : listening.SparesCycles m := by
  intro n
  obtain ⟨scope, book, output, input, draws⟩ := m
  cases n with
  | zero => exact (by decide : Outcome.exhausted ≠ .shattered ∧ Outcome.exhausted ≠ .persisted)
  | succ n =>
    cases input with
    | nil => exact (by decide : Outcome.failed ≠ .shattered ∧ Outcome.failed ≠ .persisted)
    | cons c cs => exact (by decide : Outcome.done ≠ .shattered ∧ Outcome.done ≠ .persisted)

/-- The instructions `reveal Truthsung; persist;`. -/
def persisting : List Tree :=
  [revelation (.leaf .truth "Truthsung"), .form .interrupt [.leaf .persist "persist"]]

/-- The condition takes lines from the input until one is not empty. The cycle without an end does
so too, though its body persists in each turn. -/
theorem lest_cycle_guarded_listening :
    ∃ m', m'.output = "TruthsungTruthsung" ∧ m'.input = ['y'] ∧
      ∃ n, (guardedCycle listening persisting).meaning n { input := "\n\nx\ny".toList } =
        (.done .nothing, m') := by
  have hc : LestSpares listening (.form .block persisting) { input := "\n\nx\ny".toList } :=
    fun m _ => listening_sparesCycles m
  obtain ⟨hending, -⟩ := lest_cycle_guarded hc
  exact ⟨_, rfl, rfl, (hending (.done .nothing) _ (by decide)).1 ⟨8, rfl⟩⟩

end Spellbook
