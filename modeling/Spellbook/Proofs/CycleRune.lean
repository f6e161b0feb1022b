import Spellbook.Proofs.EachCycle

/-!
# The rune of a cycle

A cycle over a range and a cycle over a text have a rune of their own, which has to be free before.
What becomes of it depends on the cycle. When a cycle over a range completes it dispels its rune,
however it came to its end. A cycle over a text leaves it as the body left it in the last turn, so
it is still written as a rule, and then the same cycle is refused if it is run again
(`cycle_rune_afterwards`).

Between two turns the rune takes its next value, and no cycle asks whether it is sealed. So the body
can seal the rune and it is changed nevertheless; only the sum of a range may fail
(`cycle_changes_sealed_rune`).
-/

namespace Spellbook

/-! ### After the cycle -/

/-- The block ends a turn of its cycle in `m'`: it comes to its end, persists or shatters the
cycle. -/
def EndsTurn (block : Tree) (m m' : Machine) : Prop :=
  Turned block m m' ∨ ∃ n, block.meaning n m = (.shattered, m')

section
variable {block start stop step : Tree} {x : String} {m m₁ m' : Machine} {cs : List Char}
  {d : Datum} {fuel : Nat}

/-- The last of several turns. -/
theorem EachTurned.last (h : EachTurned block x cs m m') (hcs : cs ≠ []) :
    ∃ c ∈ cs, ∃ m₁ : Machine, m₁.scope.isWritten x = true ∧
    Turned block (m₁.advance x (letter c)) m' := by
  induction h with
  | nil => exact absurd rfl hcs
  | @cons c cs m m₁ m' hwritten hturned hrest ih =>
    cases hrest with
    | nil => exact ⟨c, List.mem_cons_self, m, hwritten, hturned⟩
    | cons hwritten' hturned' hrest' =>
      obtain ⟨c', hc', hlast⟩ := ih (List.cons_ne_nil _ _)
      exact ⟨c', List.mem_cons_of_mem c hc', hlast⟩

/-- What turns over a text leave is what the block left in the last of them. -/
theorem EachEnds.last (h : EachEnds block x cs m m') (hcs : cs ≠ []) :
    ∃ c ∈ cs, ∃ m₁ : Machine, m₁.scope.isWritten x = true ∧
    EndsTurn block (m₁.advance x (letter c)) m' := by
  cases h with
  | through h =>
    obtain ⟨c, hc, m₁, hwritten, hturned⟩ := h.last hcs
    exact ⟨c, hc, m₁, hwritten, .inl hturned⟩
  | @shattered before after c m₁ n hsplit _ hwritten hshattered =>
    subst hsplit
    exact ⟨c, List.mem_append_right _ List.mem_cons_self, m₁, hwritten, .inr ⟨n, hshattered⟩⟩

/-- A range that is written out is over the rune that it names. -/
theorem rangeOf_gives (x : String) (start stop step : Tree) (fuel : Nat) (m : Machine) :
    ((rangeOf x start stop step).meaning fuel).Gives
      (fun d _ => isKeyword x = false ∧ ∀ r, Range.ofDatum d = .ok r → r.name = x) m := by
  cases fuel with
  | zero => exact nofun
  | succ fuel =>
    have hgives : (rangeMeaning (Tree.meaning fuel) [.named x, start, stop, step]).Gives
        (fun d _ => ∀ r, Range.ofDatum d = .ok r → r.name = x) m := by
      refine named_bind_gives ?_
      refine Spell.Gives.bind fun start _ _ => ?_
      refine Spell.Gives.bind fun stop _ _ => ?_
      refine Spell.Gives.bind fun t _ _ => ?_
      refine absentOr_gives fun step _ => ?_
      refine Spell.Gives.lift_bind fun start _ => ?_
      refine Spell.Gives.lift_bind fun stop _ => ?_
      refine Spell.Gives.lift_bind fun step _ => ?_
      refine Spell.Gives.check fun _ => ?_
      refine Spell.Gives.lift_bind fun name hname => ?_
      cases hname
      refine Spell.Gives.bind fun found m _ => ?_
      refine Spell.Gives.check fun _ => ?_
      intro d m' h r hr
      cases h
      rw [Range.ofDatum_toDatum] at hr
      cases hr
      rfl
    intro d m' h
    obtain ⟨_, _, hname, -⟩ := Spell.exists_of_bind_done h
    exact ⟨isKeyword_of_named_done hname, hgives d m' h⟩

/-- A cycle over a range that completes has dispelled its rune. -/
theorem rangeCycle_done (h : (rangeCycle x start stop step block).meaning fuel m = (.done d, m')) :
    isKeyword x = false ∧ m'.scope.find? x = none := by
  cases fuel with
  | zero => cases h
  | succ fuel =>
    obtain ⟨d₁, m₁, hrange, h⟩ := Spell.exists_of_bind_done h
    obtain ⟨hx, hname⟩ := rangeOf_gives x start stop step fuel m d₁ m₁ hrange
    obtain ⟨r, m₂, hr, h⟩ := Spell.exists_of_bind_done h
    obtain rfl := hname r (Spell.eq_of_lift_done hr).1
    obtain ⟨_, m₃, -, h⟩ := Spell.exists_of_bind_done h
    obtain ⟨b, m₄, -, h⟩ := Spell.exists_of_bind_done h
    obtain ⟨_, m₅, -, h⟩ := Spell.exists_of_bind_done h
    obtain ⟨_, m₆, -, h⟩ := Spell.exists_of_bind_done h
    cases h
    exact ⟨hx, Scope.find?_dispel_self _ _⟩

/-- A block that does not dispel the rune of its cycle over a text leaves it written for good. -/
theorem EachEnds.isWritten (h : EachEnds block x cs m m') (hcs : cs ≠ [])
    (hblock : ∀ m₁ m₂, m₁.scope.isWritten x = true → EndsTurn block m₁ m₂ →
      m₂.scope.isWritten x = true) :
    m'.scope.isWritten x = true := by
  obtain ⟨c, -, m₁, hwritten, hlast⟩ := h.last hcs
  exact hblock _ _ (Machine.isWritten_advance hwritten _) hlast

/-- **The rune of a cycle when the cycle has completed.** A cycle over a range has dispelled it, and
can be run again at once. A cycle over the members of a datum has found it free. It has not written
it if there are no members, but a cycle over a text leaves it as the body left it, so it is still
written unless the body has dispelled it, and then the same cycle is refused. -/
theorem cycle_rune_afterwards :
    (∀ start stop step, (rangeCycle x start stop step block).meaning fuel m = (.done d, m') →
      m'.scope.find? x = none ∧
      ∀ a b c m'', (∃ m₁ m₂, start.Evaluates m' a m₁ ∧ stop.Evaluates m₁ b m₂ ∧
        step.EvaluatesStep m₂ c m'') →
        a.kind.isNumber = true → b.kind.isNumber = true → c.kind.isNumber = true →
        m''.scope.find? x = m'.scope.find? x →
        ∃ n, ∀ fuel, n ≤ fuel → (rangeCycle x start stop step block).meaning (fuel + 1) m' =
          (rangeTurns (block.meaning fuel) x b c fuel >>= fun _ => Spell.known x >>= fun _ =>
            Spell.dispel x >>= fun _ => pure .nothing) (m''.withRange x a b c)) ∧
    (∀ e n d₁ m₁, e.meaning n m = (.done d₁, m₁) →
      (eachCycle x e block).meaning fuel m = (.done d, m') →
      m₁.scope.find? x = none ∧
      (d₁.length = .ok 0 → m' = m₁ ∧ m'.scope.find? x = none) ∧
      (∀ w, d₁ = .rune (.text w) → w ≠ "" → EachEnds block x w.toList (m₁.withLetters x) m' ∧
        ((∀ m₂ m₃, m₂.scope.isWritten x = true → EndsTurn block m₂ m₃ →
          m₃.scope.isWritten x = true) →
          m'.scope.isWritten x = true)) ∧
      ∀ n' d₂ m'', e.meaning n' m' = (.done d₂, m'') → m''.scope.isWritten x = true →
        ∃ n, ∀ fuel, n ≤ fuel →
          (eachCycle x e block).meaning fuel m' = (.failed (.alreadyWritten x), m'')) := by
  constructor
  · intro start stop step h
    obtain ⟨hx, hfree⟩ := rangeCycle_done h
    refine ⟨hfree, fun a b c m'' hvalues ha hb hc hsame => ?_⟩
    exact meaning_rangeCycle_eq ⟨hx, hvalues, ha, hb, hc, hsame.trans hfree⟩ block
  · intro e n d₁ m₁ he h
    obtain ⟨hx, hfree, hempty, hturns⟩ := eachCycle_done he h
    refine ⟨hfree, fun hlength => ?_, fun w hd hw => ?_, fun n' d₂ m'' he' hwritten => ?_⟩
    · obtain rfl := hempty hlength
      exact ⟨rfl, hfree⟩
    · have hends := hturns w hd hw
      exact ⟨hends, hends.isWritten fun hnil => hw (String.toList_eq_nil_iff.mp hnil)⟩
    · refine ⟨n' + 3, fun fuel hfuel => ?_⟩
      obtain ⟨j, rfl⟩ : ∃ j, fuel = j + 1 := ⟨fuel - 1, by omega⟩
      rw [meaning_eachCycle_eq_rest hx he' block (by omega), eachRest_of_written _ hwritten]

end

/-- The block of `{ shatter; }`. -/
def shattering : Tree := .form .block [.form .interrupt [.leaf .shatter "shatter"]]

/-- A range and a text that are shattered in the first turn: the rune of the range is gone and that
of the text is refused. -/
theorem cycle_rune_afterwards_shattered :
    (∃ m', (rangeCycle "i" (.leaf .whole "1") (.leaf .whole "9") .absent shattering).meaning 8 {} =
      (.done .nothing, m') ∧ m'.scope.find? "i" = none) ∧
    ∃ m', (eachCycle "c" (runeValue "s") shattering).meaning 8 textHeld = (.done .nothing, m') ∧
      m'.scope.isWritten "c" = true ∧ ∃ n, ∀ fuel, n ≤ fuel →
        (eachCycle "c" (runeValue "s") shattering).meaning fuel m' =
          (.failed (.alreadyWritten "c"), m') := by
  obtain ⟨m', h⟩ : ∃ m',
    (rangeCycle "i" (.leaf .whole "1") (.leaf .whole "9") .absent shattering).meaning 8 {} =
      (.done .nothing, m') := ⟨_, rfl⟩
  refine ⟨⟨m', h, (cycle_rune_afterwards.1 _ _ _ h).1⟩, _, rfl, rfl, ?_⟩
  obtain ⟨-, -, -, hagain⟩ := cycle_rune_afterwards.2 (runeValue "s") 2 _ _ rfl
    (rfl : (eachCycle "c" (runeValue "s") shattering).meaning 8 textHeld = _)
  exact hagain 2 _ _ rfl rfl

/-- The rune is free before a cycle over a text, and when the cycle has completed it is written: the
same cycle is refused. -/
theorem text_cycle_leaves_rune :
    let cycle := eachCycle "c" (runeValue "s") (.form .block [])
    let left := (cycle.meaning 8 textHeld).2
    textHeld.scope.find? "c" = none ∧ (cycle.meaning 8 textHeld).1 = .done .nothing ∧
      left.scope.find? "c" = some ⟨some (letter 'b'), some .text, false, some (letter 'a')⟩ ∧
      (cycle.meaning 8 left).1 = .failed (.alreadyWritten "c") :=
  ⟨rfl, rfl, rfl, rfl⟩

/-! ### Between two turns -/

/-- `RangeTurned block x stop step k m m'`: the block does `k` turns of a cycle over a range and
leads from `m` to `m'`. Each turn begins with a value that is not above the end, and after it the
rune takes the next one. -/
inductive RangeTurned (block : Tree) (x : String) (stop step : Value) :
    Nat → Machine → Machine → Prop
  | none {m : Machine} : RangeTurned block x stop step 0 m m
  | turn {k : Nat} {m m₁ m' : Machine} {e e' : Entry} {v : Value} (hseen : m.scope.find? x = some e)
      (hwithin : e.isWithin stop = .ok true) (hturned : Turned block m m₁)
        (hleft : m₁.scope.find? x = some e')
      (hnext : e'.next step = .ok v) (hrest : RangeTurned block x stop step k (m₁.advance x v) m') :
      RangeTurned block x stop step (k + 1) m m'

/-- The block has done `k` turns of a cycle over a range and one more, and has left `m'` to the
step. -/
def RangeLeaves (block : Tree) (x : String) (stop step : Value) (k : Nat) (m m' : Machine) : Prop :=
  ∃ m₁ e, RangeTurned block x stop step k m m₁ ∧ m₁.scope.find? x = some e ∧
  e.isWithin stop = .ok true ∧
    Turned block m₁ m'

/-- The turns of a cycle over a range that are left to do, and its end. -/
def rangeRest (block : Tree) (x : String) (stop step : Value) (fuel turns : Nat) : Spell Datum := do
  rangeTurns (block.meaning fuel) x stop step turns
  let _ ← Spell.known x
  Spell.dispel x
  return .nothing

/-- The turn of a cycle over a text whose rune has taken its character, and those for the characters
`cs`. -/
def letterRest (block : Tree) (x : String) (cs : List Char) (fuel : Nat) : Spell Datum :=
  goesOn (block.meaning fuel) >>= fun goes =>
    (if goes then eachTurn (block.meaning fuel) x cs else pure ()) >>= fun _ => pure .nothing

section
variable {block start stop step : Tree} {x : String} {a b c : Value} {m m₁ m' : Machine}
  {e : Entry} {k : Nat}

/-- After a turn the rest is done from the step on. -/
theorem rangeTurns_turned (hseen : m.scope.find? x = some e) (hwithin : e.isWithin b = .ok true)
    (hturned : Turned block m m₁) :
    ∃ n, ∀ fuel, n ≤ fuel → ∀ f, rangeTurns (block.meaning fuel) x b c (f + 1) m =
      (stepRange x c >>= fun _ => rangeTurns (block.meaning fuel) x b c f) m₁ := by
  obtain ⟨n, hn⟩ := hturned.meaning_of_le
  refine ⟨n, fun fuel hfuel f => ?_⟩
  rw [rangeTurns_run hseen hwithin, Spell.bind_of_done (goesOn_of_turn (hn fuel hfuel))]
  rfl

/-- With enough fuel for the block, the turns that are done can be taken off. -/
theorem RangeTurned.rangeTurns_add (h : RangeTurned block x b c k m m') :
    ∃ n, ∀ fuel, n ≤ fuel → ∀ f,
    rangeTurns (block.meaning fuel) x b c (f + k) m =
      rangeTurns (block.meaning fuel) x b c f m' := by
  induction h with
  | none => exact ⟨0, fun _ _ _ => rfl⟩
  | @turn k m m₁ m' e e' v hseen hwithin hturned hleft hnext _ ih =>
    obtain ⟨n, hn⟩ := rangeTurns_turned hseen hwithin hturned
    obtain ⟨n', hn'⟩ := ih
    refine ⟨max n n', fun fuel hfuel f => ?_⟩
    have hstep : stepRange x c m₁ = (.done (), m₁.advance x v) := by rw [stepRange_eq hleft, hnext]
    rw [← Nat.add_assoc, hn fuel (by omega) (f + k), Spell.bind_of_done hstep]
    exact hn' fuel (by omega) f

/-- A cycle over a range, seen from the step after one of its turns. -/
theorem RangeLeaves.meaning_rangeCycle (hvalues : RangeEvaluates x start stop step m a b c m₁)
    (h : RangeLeaves block x b c k (m₁.withRange x a b c) m') : ∃ n, ∀ fuel, n ≤ fuel →
      (rangeCycle x start stop step block).meaning (fuel + k + 2) m =
        (stepRange x c >>= fun _ => rangeRest block x b c (fuel + k + 1) fuel) m' := by
  obtain ⟨m₂, e, hbefore, hseen, hwithin, hturned⟩ := h
  obtain ⟨n₁, h₁⟩ := meaning_rangeCycle_eq hvalues block
  obtain ⟨n₂, h₂⟩ := hbefore.rangeTurns_add
  obtain ⟨n₃, h₃⟩ := rangeTurns_turned hseen hwithin hturned
  refine ⟨n₁ + n₂ + n₃, fun fuel hfuel => ?_⟩
  have hturns : rangeTurns (block.meaning (fuel + k + 1)) x b c (fuel + k + 1)
      (m₁.withRange x a b c) =
      (stepRange x c >>= fun _ => rangeTurns (block.meaning (fuel + k + 1)) x b c fuel) m' := by
    rw [show fuel + k + 1 = fuel + 1 + k by omega, h₂ _ (by omega) (fuel + 1), h₃ _ (by omega)]
  rw [h₁ _ (by omega), Spell.bind_of_eq hturns, Spell.bind_assoc]
  rfl

/-- A cycle over a text, seen from one of its turns. -/
theorem EachTurned.meaning_eachCycle_append {w : String} {t : Tree}
    {before after : List Char} {l : Char} (hx : isKeyword x = false) (ht : t.EvaluatesText m w m₁)
    (hfree : m₁.scope.find? x = none) (hw : w.toList = before ++ l :: after)
    (h : EachTurned block x before (m₁.withLetters x) m') (hwritten : m'.scope.isWritten x = true) :
    ∃ n, ∀ fuel, n ≤ fuel →
      (eachCycle x t block).meaning (fuel + 1) m =
        letterRest block x after fuel (m'.advance x (letter l)) := by
  have hne : w ≠ "" := by
    rintro rfl
    simp at hw
  obtain ⟨n₁, h₁⟩ := meaning_eachCycle_eq hx ht hfree hne block
  obtain ⟨n₂, h₂⟩ := h.eachTurn_append
  refine ⟨n₁ + n₂, fun fuel hfuel => ?_⟩
  have hturns := (h₂ fuel (by omega) (l :: after)).trans (eachTurn_cons _ hwritten)
  rw [h₁ _ (by omega), hw, Spell.bind_of_eq hturns, Spell.bind_assoc]
  rfl

/-- **The step of a cycle does not ask whether its rune is sealed.** After a turn over a range the
rune takes the sum of its value and the step, if there is a sum, and keeps its seal; if the sum
fails, so does the cycle. For each character of a text the rune takes the character, and keeps its
seal too. In both cases the cycle goes on from there. -/
theorem cycle_changes_sealed_rune :
    (∀ start stop step a b c k m₂ entry, RangeEvaluates x start stop step m a b c m₁ →
      RangeLeaves block x b c k (m₁.withRange x a b c) m₂ → m₂.scope.find? x = some entry →
      (∀ v, entry.next c = .ok v →
        (m₂.advance x v).scope.find? x = some { entry with value := some v, past := entry.value } ∧
        ∃ n, ∀ fuel, n ≤ fuel → (rangeCycle x start stop step block).meaning (fuel + k + 2) m =
          rangeRest block x b c (fuel + k + 1) fuel (m₂.advance x v)) ∧
      ∀ f, entry.next c = .error f →
        ∃ m', m'.scope.find? x = some { entry with past := entry.value } ∧
        ∃ n, ∀ fuel, n ≤ fuel → (rangeCycle x start stop step block).meaning (fuel + k + 2) m =
          (.failed f, m')) ∧
    ∀ t w before l after m₂ entry, isKeyword x = false → t.EvaluatesText m w m₁ →
      m₁.scope.find? x = none →
      w.toList = before ++ l :: after → EachTurned block x before (m₁.withLetters x) m₂ →
      m₂.scope.find? x = some entry →
      (m₂.advance x (letter l)).scope.find? x =
        some { entry with value := some (letter l), past := entry.value } ∧
      ∃ n, ∀ fuel, n ≤ fuel → (eachCycle x t block).meaning (fuel + 1) m =
        letterRest block x after fuel (m₂.advance x (letter l)) := by
  constructor
  · intro start stop step a b c k m₂ entry hvalues hleaves hfind
    obtain ⟨n, hn⟩ := hleaves.meaning_rangeCycle hvalues
    have hstep : stepRange x c m₂ = _ := stepRange_eq hfind
    refine ⟨fun v hv => ⟨Machine.find?_advance hfind v, n, fun fuel hfuel => ?_⟩, fun f hf => ?_⟩
    · rw [hv] at hstep
      rw [hn fuel hfuel, Spell.bind_of_done hstep]
    · rw [hf] at hstep
      exact ⟨_, Scope.find?_modify_of_some (fun e => { e with past := e.value }) hfind, n,
        fun fuel hfuel =>
        (hn fuel hfuel).trans (Spell.bind_of_failed hstep)⟩
  · intro t w before l after m₂ entry hx ht hfree hw hbefore hfind
    exact ⟨Machine.find?_advance hfind _,
      hbefore.meaning_eachCycle_append hx ht hfree hw (Scope.isWritten_iff.mpr ⟨entry, hfind⟩)⟩

end

/-- The block of `{ foretell (once) { once = Falsehood; seal x; } }`. -/
def sealingOnce (x : String) : Tree :=
  .form .block [.form .foretell [.leaf .foretell "foretell", runeValue "once",
    .form .block [assignment "once" (.leaf .truth "Falsehood"),
      .form .sealRune [.leaf .sealWord "seal", .named x]],
    .absent, .absent]]

/-- The machine in which the body has still to seal its rune. -/
def unsealed : Machine :=
  { scope :=
    [{ own :=
      [("s", .fresh (some (.text "ab")) false), ("once", .fresh (some (.truth true)) false)] }] }

/-- The machine in which it has, when the rune `x` held `v`. -/
def sealedWith (x : String) (v : Value) : Machine :=
  { scope := [{ own := [("s", .fresh (some (.text "ab")) false),
      ("once", ⟨some (.truth false), some .truth, false, some (.truth true)⟩),
      (x, ⟨some v, some v.kind, true, none⟩)] }] }

/-- The cycle of `cycle (i 1 -> 2)` with the body that seals `i`. -/
def sealedRange : Tree :=
  rangeCycle "i" (.leaf .whole "1") (.leaf .whole "2") .absent (sealingOnce "i")

/-- The cycle of `cycle (c betwixt s)` with the body that seals `c`. -/
def sealedLetters : Tree := eachCycle "c" (runeValue "s") (sealingOnce "c")

/-- Both runes are sealed in the first turn, and take another value for the second. -/
theorem cycle_changes_sealed_rune_once :
    (∃ n, ∀ fuel, n ≤ fuel → sealedRange.meaning (fuel + 2) unsealed =
      rangeRest (sealingOnce "i") "i" (.int 2) (.int 1) (fuel + 1) fuel
        ((sealedWith "i" (.int 1)).advance "i" (.int 2))) ∧
    ∃ n, ∀ fuel, n ≤ fuel → sealedLetters.meaning (fuel + 1) unsealed =
      letterRest (sealingOnce "c") "c" [] fuel
        ((sealedWith "c" (letter 'a')).advance "c" (letter 'b')) := by
  have hvalues : RangeEvaluates "i" (.leaf .whole "1") (.leaf .whole "2") .absent unsealed
      (.int 1) (.int 2) (.int 1) unsealed :=
    ⟨by decide, ⟨_, _, ⟨1, _, rfl, rfl⟩, ⟨1, _, rfl, rfl⟩, .inl ⟨rfl, rfl, rfl⟩⟩, rfl,
      rfl, rfl, rfl⟩
  have hleaves : RangeLeaves (sealingOnce "i") "i" (.int 2) (.int 1) 0
      (unsealed.withRange "i" (.int 1) (.int 2) (.int 1)) (sealedWith "i" (.int 1)) :=
    ⟨_, _, .none, rfl, rfl, 8, .inl ⟨.nothing, rfl⟩⟩
  have hturned : EachTurned (sealingOnce "c") "c" ['a'] (unsealed.withLetters "c")
      (sealedWith "c" (letter 'a')) :=
    .cons rfl ⟨8, .inl ⟨.nothing, rfl⟩⟩ .nil
  have hrange := cycle_changes_sealed_rune.1 _ _ _ _ _ _ _ _ _ hvalues hleaves rfl
  have hs : (runeValue "s").EvaluatesText unsealed "ab" unsealed := ⟨2, rfl⟩
  have hletters :=
    cycle_changes_sealed_rune.2 _ _ ['a'] 'b' [] _ _ (by decide) hs rfl rfl hturned rfl
  exact ⟨(hrange.1 (.int 2) rfl).2, hletters.2⟩

/-- The body seals the rune in the first turn, and the cycle nevertheless gives it another value for
the second and completes. -/
theorem sealed_cycle_rune_changed :
    (Turned (sealingOnce "i") (unsealed.withRange "i" (.int 1) (.int 2) (.int 1))
      (sealedWith "i" (.int 1)) ∧
      stepRange "i" (.int 1) (sealedWith "i" (.int 1)) =
        (.done (), (sealedWith "i" (.int 1)).advance "i" (.int 2)) ∧
      (sealedRange.meaning 9 unsealed).1 = .done .nothing) ∧
    Turned (sealingOnce "c") ((unsealed.withLetters "c").advance "c" (letter 'a'))
    (sealedWith "c" (letter 'a')) ∧
    sealedLetters.meaning 9 unsealed =
      (.done .nothing, (sealedWith "c" (letter 'a')).advance "c" (letter 'b')) :=
  ⟨⟨⟨8, .inl ⟨.nothing, rfl⟩⟩, rfl, rfl⟩, ⟨8, .inl ⟨.nothing, rfl⟩⟩, rfl⟩

end Spellbook
