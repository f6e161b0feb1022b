import Spellbook.Proofs.Chance
import Spellbook.Proofs.EachCycle

/-!
# Instructions that are reached

Blocks, choices and cycles run trees that are in them, one after the other. `Begins` says, for each
of these kinds of node, which part it comes to run next and in which machine: what was run before
has come to a result, or has persisted in a cycle. `Reaches` follows a run from node to part, to any
depth.

A node does not outlive the part it runs. If that leaves by some way out, so does the node, and the
machine that is left behind is the same (`Reaches.holds`).
-/

namespace Spellbook

/-! ### Turns -/

/-- `TurnBegins body between asks m m'`: a turn of the cycle begins in `m'`. All turns before it are
done, and so is what comes between them. -/
inductive TurnBegins (body : Spell Datum) (between : Spell Unit) :
    List (Spell Bool) → Machine → Machine → Prop
  | first {ask : Spell Bool} {asks : List (Spell Bool)} {m m₁ : Machine}
  (hask : ask m = (.done true, m₁)) :
      TurnBegins body between (ask :: asks) m m₁
  | later {ask : Spell Bool} {asks : List (Spell Bool)} {m m₁ m₂ m₃ m' : Machine}
      (hask : ask m = (.done true, m₁))
      (hbody : goesOn body m₁ = (.done true, m₂)) (hbetween : between m₂ = (.done (), m₃))
      (hrest : TurnBegins body between asks m₃ m') : TurnBegins body between (ask :: asks) m m'

theorem TurnBegins.holds {S : Exits} {body : Spell Datum} {between : Spell Unit}
    {asks : List (Spell Bool)} {m m' : Machine} (h : TurnBegins body between asks m m')
    (hbody : S.Holds (body m')) (last : Spell Unit) :
    S.Holds (turns body between last asks m) := by
  induction h with
  | first hask =>
    rw [turns, Spell.bind_of_done hask]
    exact Exits.holds_bind (goesOn_holds hbody) _
  | later hask hgoes hbetween _ ih =>
    rw [turns, Spell.bind_of_done hask]
    show S.Holds ((goesOn body >>= _) _)
    rw [Spell.bind_of_done hgoes]
    show S.Holds ((between >>= _) _)
    rw [Spell.bind_of_done hbetween]
    exact ih hbody

/-! ### The part that is run next -/

/-- `Takes n parts m block m'`: the branches of a choice come to run the block in `m'`. Each begins
with a word; if that is `resolve` its block is taken, and otherwise its condition is asked. -/
inductive Takes (n : Nat) : List Tree → Machine → Tree → Machine → Prop
  | last {word block : Tree} {d : Datum} {isLast : Bool} {m m₁ : Machine}
  (hword : word.meaning n m = (.done d, m₁))
      (hlast : isResolve d = .ok isLast) : Takes n [word, block] m block m₁
  | resolve {word block t : Tree} {rest : List Tree} {d : Datum} {m m₁ : Machine}
      (hword : word.meaning n m = (.done d, m₁)) (hlast : isResolve d = .ok true) :
      Takes n (word :: block :: t :: rest) m block m₁
  | isTrue {word condition block : Tree} {rest : List Tree} {d c : Datum} {m m₁ m₂ : Machine}
      (hword : word.meaning n m = (.done d, m₁)) (hlast : isResolve d = .ok false)
      (hcondition : condition.meaning n m₁ = (.done c, m₂)) (hc : c.truth = .ok true) :
      Takes n (word :: condition :: block :: rest) m block m₂
  | isFalse {word condition block t : Tree} {rest : List Tree} {d c : Datum} {m m₁ m₂ m₃ : Machine}
      (hword : word.meaning n m = (.done d, m₁)) (hlast : isResolve d = .ok false)
      (hcondition : condition.meaning n m₁ = (.done c, m₂)) (hc : c.truth = .ok false)
      (hrest : Takes n rest m₂ t m₃) : Takes n (word :: condition :: block :: rest) m t m₃

theorem ne_absent_of_done {n : Nat} {t : Tree} {d : Datum} {m m' : Machine}
    (h : t.meaning n m = (.done d, m')) :
    t ≠ .absent := by
  rintro rfl
  cases n <;> cases h

theorem Takes.holds {S : Exits} {n : Nat} {parts : List Tree} {block : Tree} {m m' : Machine}
    (h : Takes n parts m block m') (hblock : S.Holds (block.meaning n m')) :
    S.Holds (branches (Tree.meaning n) parts m) := by
  induction h with
  | last hword hlast =>
    rw [branches.eq_4 _ _ _ (ne_absent_of_done hword), Spell.bind_of_done hword, hlast]
    exact Exits.holds_bind hblock _
  | resolve hword hlast =>
    rw [branches.eq_5 _ _ _ _ _ (ne_absent_of_done hword), Spell.bind_of_done hword, hlast]
    exact Exits.holds_bind hblock _
  | isTrue hword hlast hcondition hc =>
    rw [branches.eq_5 _ _ _ _ _ (ne_absent_of_done hword), Spell.bind_of_done hword, hlast]
    refine (congrArg S.Holds (Spell.bind_of_done hcondition)).mpr ?_
    rw [hc]
    exact Exits.holds_bind hblock _
  | isFalse hword hlast hcondition hc _ ih =>
    rw [branches.eq_5 _ _ _ _ _ (ne_absent_of_done hword), Spell.bind_of_done hword, hlast]
    refine (congrArg S.Holds (Spell.bind_of_done hcondition)).mpr ?_
    rw [hc]
    exact ih hblock

theorem Takes.mem {n : Nat} {parts : List Tree} {block : Tree} {m m' : Machine}
    (h : Takes n parts m block m') :
    block ∈ parts := by
  induction h with
  | last | resolve | isTrue => simp
  | isFalse _ _ _ _ _ ih => simp [ih]

/-- `Begins n f parts m t m'`: a node of the kind `f`, which is a block, a choice or a cycle, comes
to run the tree `t` in `m'`. -/
inductive Begins (n : Nat) : Form → List Tree → Machine → Tree → Machine → Prop
  | block {before after : List Tree} {t : Tree} {m m₁ : Machine}
      (hbefore : runEach (Tree.meaning n) before m = (.done .nothing, m₁)) :
      Begins n .block (before ++ t :: after) m t m₁
  | foretell {parts : List Tree} {t : Tree} {m m₁ : Machine} (htakes : Takes n parts m t m₁) :
      Begins n .foretell parts m t m₁
  | mayhaps {word ratio t : Tree} {rest : List Tree} {chance : Datum} {m m₁ : Machine}
      (hratio : chanceMeaning (Tree.meaning n) ratio m = (.done chance, m₁))
      (hbelow : (Datum.bare (.float m₁.drawn)).compare .less chance = .ok true) :
      Begins n .mayhaps (word :: ratio :: t :: rest) m t m₁.afterDraw
  | rangeCycle {parts : List Tree} {t : Tree} {d : Datum} {r : Range} {m m₁ m₂ : Machine}
      (hrange : runPart (Tree.meaning n) parts 1 m = (.done d, m₁)) (hr : Range.ofDatum d = .ok r)
      (ht : parts[2]? = some t)
      (hturn : TurnBegins (t.meaning n) (stepRange r.name r.step)
        (List.replicate n (askRange r.name r.stop))
        (m₁.mapScope (·.write r.name ⟨some r.start, some r.kind, false, none⟩)) m₂) :
      Begins n .rangeCycle parts m t m₂
  | eachCycle {parts : List Tree} {t : Tree} {key : Datum} {x w : String} {m m₁ m₂ m₃ : Machine}
      (hkey : runPart (Tree.meaning n) parts 1 m = (.done key, m₁)) (hx : keyOf key = .ok x)
      (hw : runPart (Tree.meaning n) parts 3 m₁ = (.done (.rune (.text w)), m₂))
        (hfree : m₂.scope.find? x = none)
      (ht : parts[4]? = some t)
      (hturn : TurnBegins (t.meaning n) (pure ()) (w.toList.map (askEach x))
        (m₂.withLetters x) m₃) :
      Begins n .eachCycle parts m t m₃
  | lestCycle {parts : List Tree} {t : Tree} {m m₁ : Machine} (ht : parts[3]? = some t)
      (hturn : TurnBegins (t.meaning n) (pure ())
        (List.replicate n (askLest (runPart (Tree.meaning n) parts 2))) m m₁) :
      Begins n .lestCycle parts m t m₁
  | endlessCycle {parts : List Tree} {t : Tree} {m m₁ : Machine} (ht : parts[3]? = some t)
      (hturn : TurnBegins (t.meaning n) (pure ()) (List.replicate n (pure true)) m m₁) :
      Begins n .endlessCycle parts m t m₁

/-- A block begins with its first instruction. -/
theorem Begins.head {n : Nat} {t : Tree} {after : List Tree} {m : Machine} :
    Begins n .block (t :: after) m t m :=
  @Begins.block n [] after t m m rfl

theorem Begins.mem {n : Nat} {f : Form} {parts : List Tree} {t : Tree} {m m' : Machine}
    (h : Begins n f parts m t m') : t ∈ parts := by
  cases h with
  | block => simp
  | foretell htakes => exact htakes.mem
  | mayhaps => simp
  | rangeCycle _ _ ht _ | eachCycle _ _ _ _ ht _ | lestCycle ht _ | endlessCycle ht _ =>
    exact List.mem_of_getElem? ht

theorem part_of_getElem? {parts : List Tree} {i : Nat} {t : Tree} (ht : parts[i]? = some t)
    (m : Machine) :
    part parts i m = (.done t, m) := by
  rw [part, ht]
  rfl

theorem runEach_append (run : Run) (before after : List Tree) (m : Machine) :
    runEach run (before ++ after) m = (runEach run before >>= fun _ => runEach run after) m := by
  induction before generalizing m with
  | nil => rfl
  | cons t ts ih =>
    rw [List.cons_append, runEach, runEach, Spell.bind_assoc]
    exact Spell.bind_congr fun _ m' _ => ih m'

/-- **A node leaves as the part does that it comes to run.** -/
theorem Begins.holds {S : Exits} {n : Nat} {f : Form} {parts : List Tree} {t : Tree}
    {m m' : Machine} (h : Begins n f parts m t m') (ht : S.Holds (t.meaning n m')) :
    S.Holds ((Tree.form f parts).meaning (n + 1) m) := by
  cases h with
  | @block before after _ _ _ hbefore =>
    show S.Holds (runEach (Tree.meaning n) (before ++ t :: after) m)
    rw [runEach_append, Spell.bind_of_done hbefore]
    exact Exits.holds_bind ht _
  | foretell htakes => exact htakes.holds ht
  | mayhaps hratio hbelow =>
    rw [meaning_mayhaps, Spell.bind_of_done hratio, Spell.bind_of_done (draw_apply _), hbelow]
    exact Exits.holds_bind ht _
  | @rangeCycle _ _ d r _ m₁ _ hrange hr hpart hturn =>
    have hrange' : (liftM (Range.ofDatum d) : Spell Range) m₁ = (.done r, m₁) := by
      rw [hr]
      rfl
    have hwrite : Spell.write r.name ⟨some r.start, some r.kind, false, none⟩ m₁ =
      (.done (), m₁.mapScope (·.write r.name ⟨some r.start, some r.kind, false, none⟩)) := rfl
    show S.Holds (rangeCycleMeaning n (Tree.meaning n) parts m)
    rw [rangeCycleMeaning, Spell.bind_of_done hrange, Spell.bind_of_done hrange',
      Spell.bind_of_done hwrite, Spell.bind_of_done (part_of_getElem? hpart _), rangeTurns_eq_turns]
    exact Exits.holds_bind (hturn.holds ht _) _
  | @eachCycle _ _ key x w _ m₁ m₂ _ hkey hx hw hfree hpart hturn =>
    -- A turn has begun, so there is a first character.
    have hne : w ≠ "" := by
      rintro rfl
      cases hturn
    show S.Holds (eachCycleMeaning (Tree.meaning n) parts m)
    rw [eachCycleMeaning, Spell.bind_of_done hkey, Spell.bind_of_done hw,
      Spell.bind_of_done (part_of_getElem? hpart _), hx]
    show S.Holds (eachRest (Tree.meaning n) x t (.rune (.text w)) m₂)
    rw [eachRest_of_text _ hfree hne, eachTurn_eq_turns]
    exact Exits.holds_bind (hturn.holds ht _) _
  | lestCycle hpart hturn =>
    show S.Holds (lestCycleMeaning n (Tree.meaning n) parts m)
    rw [lestCycleMeaning, Spell.bind_of_done (part_of_getElem? hpart _), lestTurns_eq_turns]
    exact Exits.holds_bind (hturn.holds ht _) _
  | endlessCycle hpart hturn =>
    show S.Holds (endlessCycleMeaning n (Tree.meaning n) parts m)
    rw [endlessCycleMeaning, Spell.bind_of_done (part_of_getElem? hpart _), endlessTurns_eq_turns]
    exact Exits.holds_bind (hturn.holds ht _) _

/-! ### Whole runs -/

/-- `Reaches n t m k u m'`: run with the fuel `n` in `m`, the tree `t` comes to run the tree `u` in
`m'`, to which it gives the fuel `k`. Around `u` there are only blocks, choices and cycles. -/
inductive Reaches : Nat → Tree → Machine → Nat → Tree → Machine → Prop
  | here {n : Nat} {t : Tree} {m : Machine} : Reaches n t m n t m
  | inside {n k : Nat} {f : Form} {parts : List Tree} {t u : Tree} {m m₁ m' : Machine}
      (hbegins : Begins n f parts m t m₁) (hreaches : Reaches n t m₁ k u m') :
      Reaches (n + 1) (.form f parts) m k u m'

theorem Reaches.mem_subtrees {n k : Nat} {t u p : Tree} {m m' : Machine} (h : Reaches n t m k u m')
    (ht : t ∈ p.subtrees) : u ∈ p.subtrees := by
  induction h with
  | here => exact ht
  | inside hbegins _ ih => exact ih (Tree.part_mem_subtrees hbegins.mem ht)

/-- **A run leaves as the tree does that it reaches.** -/
theorem Reaches.holds {S : Exits} {n k : Nat} {t u : Tree} {m m' : Machine}
    (h : Reaches n t m k u m') (hu : S.Holds (u.meaning k m')) : S.Holds (t.meaning n m) := by
  induction h with
  | here => exact hu
  | inside hbegins _ ih => exact hbegins.holds (ih hu)

theorem Reaches.meaning_eq {n k : Nat} {t u : Tree} {m m' : Machine} {r : Ending Datum × Machine}
    (h : Reaches n t m k u m') (hu : u.meaning k m' = r) (hr : (Exits.only r).Holds r) :
    t.meaning n m = r :=
  Exits.eq_of_only (h.holds (by rw [hu]; exact hr))

end Spellbook
