import Spellbook.Proofs.Compound

/-!
# Cycles over a range

A cycle over a range gives its rune one value after the other: each is the one before and the step,
as sums are reckoned, and the cycle goes on as long as the value is not above the end. `Turns`
follows such a cycle turn by turn, for a body that leaves the rune alone. If the values pass the
end, the cycle does just these turns and dispels its rune (`meaning_rangeCycle`); if they never do,
it comes to no ending with any fuel (`meaning_rangeCycle_endless`).

For whole numbers the values are known beforehand, and so is the number of turns
(`whole_range_cycle`).
-/

namespace Spellbook

/-! ### Runes that are stepped and dispelled -/

namespace Scope

/-- Two changes of an entry are one. -/
theorem modify_modify (f g : Entry → Entry) (s : Scope) (x : String) :
    (s.modify f x).modify g x = s.modify (g ∘ f) x := by
  induction s with
  | nil => rfl
  | cons frame rest ih =>
    rw [modify_cons, modify_cons]
    -- the rune is written in this frame, or hidden by it, or left to the frames below
    split
    · rw [modify_cons, Table.find?_put_self]
      dsimp only
      rw [Table.put_put]
      rfl
    · rename_i hown
      split
      · rename_i hhidden
        rw [modify_cons, hown]
        exact if_pos hhidden
      · rename_i hhidden
        rw [modify_cons, hown]
        simp only [hhidden, Bool.false_eq_true, if_false, ih]

/-- A rune that was dispelled is not found. -/
theorem find?_dispel_self (s : Scope) (x : String) : (s.dispel x).find? x = none := by
  cases s with
  | nil => rfl
  | cons frame rest =>
    rw [dispel, find?_cons, Table.find?_remove, if_pos rfl]
    dsimp only
    rw [contains_hide, beq_self_eq_true, Bool.and_true]
    cases hhidden : frame.hidden.contains x with
    | true => rw [Bool.or_true, if_pos rfl]
    | false =>
      cases hrest : find? rest x with
      | none => exact ite_self none
      | some e =>
        rw [isWritten, hrest]
        rfl

end Scope

/-- Whether the value of the rune of a range is not above the end. -/
def Entry.isWithin (stop : Value) (e : Entry) : Fallible Bool :=
  (heldDatum e.value).compare .atMost (.rune stop)

def Entry.next (step : Value) (e : Entry) : Fallible Value :=
  ((heldDatum e.value).operateInPlace .plus (.rune step)).bind Datum.toValue

/-- The entry of the rune of a cycle when it takes the next value. -/
def Entry.advance (v : Value) (e : Entry) : Entry := { e with past := e.value, value := some v }

/-- The machine in which the rune of a cycle has taken its next value. -/
def Machine.advance (m : Machine) (x : String) (v : Value) : Machine :=
  m.mapScope (·.modify (Entry.advance v) x)

/-- A rune is written if the scope finds it. -/
theorem Scope.isWritten_iff {s : Scope} {x : String} :
    s.isWritten x = true ↔ ∃ e, s.find? x = some e :=
  Option.isSome_iff_exists

/-- A rune that is advanced holds the next value. -/
theorem Machine.find?_advance {m : Machine} {x : String} {e : Entry}
    (h : m.scope.find? x = some e) (v : Value) :
    (m.advance x v).scope.find? x = some (e.advance v) :=
  Scope.find?_modify_of_some _ h

theorem Machine.isWritten_advance {m : Machine} {x : String}
    (h : m.scope.isWritten x = true) (v : Value) :
    (m.advance x v).scope.isWritten x = true := by
  obtain ⟨e, he⟩ := Scope.isWritten_iff.mp h
  exact Scope.isWritten_iff.mpr ⟨_, Machine.find?_advance he v⟩

/-- The entry of the rune in turn `k`, if it takes the values `vs` one after the other. -/
def turnEntry (kind : Kind) (vs : Nat → Value) : Nat → Entry
  | 0 => ⟨some (vs 0), some kind, false, none⟩
  | k + 1 => ⟨some (vs (k + 1)), some kind, false, some (vs k)⟩

theorem turnEntry_value (kind : Kind) (vs : Nat → Value) (k : Nat) :
    (turnEntry kind vs k).value = some (vs k) := by
  cases k <;> rfl

/-- The entry of a turn is advanced to that of the next. -/
theorem turnEntry_advance (kind : Kind) (vs : Nat → Value) (k : Nat) :
    (turnEntry kind vs k).advance (vs (k + 1)) = turnEntry kind vs (k + 1) := by
  cases k <;> rfl

/-! ### Turns -/

/-- With enough fuel, the block ends in `m'` by coming to its end or by persisting. -/
def Turned (block : Tree) (m m' : Machine) : Prop :=
  ∃ n, (∃ d, block.meaning n m = (.done d, m')) ∨ block.meaning n m = (.persisted, m')

/-- `Turns block x kind vs m₀ k m`: the block has done `k` turns from `m₀` on and `m` is left, where
turn `k` begins. In each turn the rune has its entry and keeps it, and after the turn it takes the
next value. -/
inductive Turns (block : Tree) (x : String) (kind : Kind) (vs : Nat → Value) (m₀ : Machine) :
    Nat → Machine → Prop
  | none : Turns block x kind vs m₀ 0 m₀
  | turn {k : Nat} {m m' : Machine} (hbefore : Turns block x kind vs m₀ k m)
      (hseen : m.scope.find? x = some (turnEntry kind vs k)) (hturned : Turned block m m')
      (hkept : m'.scope.find? x = m.scope.find? x) :
      Turns block x kind vs m₀ (k + 1) (m'.mapScope (·.modify (Entry.advance (vs (k + 1))) x))

section
variable {block : Tree} {m m' : Machine}

/-- A turn with enough fuel is done or goes on early, in the same machine. -/
theorem Turned.meaning_of_le (h : Turned block m m') : ∃ n, ∀ fuel, n ≤ fuel →
    (∃ d, block.meaning fuel m = (.done d, m')) ∨ block.meaning fuel m = (.persisted, m') := by
  obtain ⟨n, h⟩ := h
  refine ⟨n, fun fuel hfuel => ?_⟩
  obtain ⟨d, hd⟩ | hp := h
  · exact .inl ⟨d, Tree.meaning_of_le hfuel nofun hd⟩
  · exact .inr (Tree.meaning_of_le hfuel nofun hp)

/-- Where a block comes to its end or persists, its cycle goes on. -/
theorem goesOn_of_turn {fuel : Nat}
    (h : (∃ d, block.meaning fuel m = (.done d, m')) ∨ block.meaning fuel m = (.persisted, m')) :
    goesOn (block.meaning fuel) m = (.done true, m') := by
  rw [goesOn, Spell.bind_apply, Spell.bind, Spell.attempt]
  obtain ⟨d, h⟩ | h := h <;> rw [h] <;> rfl

end

section
variable {v stop step : Value} {x : String} {e : Entry} {m : Machine}

/-- Runes that hold numbers are compared by their values. -/
theorem compare_numbers (hv : v.kind.isNumber = true) (c : Comparison) (w : Value) :
    (Datum.rune v).compare c (.rune w) = Value.compare c v w := by
  cases v with
  | int | float => rfl
  | text | truth => cases hv

/-- Runes that hold numbers are stepped by their values. -/
theorem operateInPlace_numbers (hv : v.kind.isNumber = true) (hstep : step.kind.isNumber = true)
    (op : Value.Operator) :
    (Datum.rune v).operateInPlace op (.rune step) = (Value.reckon op v step).map .rune := by
  cases v with
  | int n => exact Datum.intOperator_eq hstep op n
  | float x => exact Datum.floatOperator_eq op x step
  | text | truth => cases hv

/-- The step notes the value as the past and stores the next one, whatever else is known of the
rune. -/
theorem stepRange_eq (hfind : m.scope.find? x = some e) : stepRange x step m =
    match e.next step with
    | .ok v => (.done (), m.advance x v)
    | .error f => (.failed f, m.mapScope (·.modify (fun e => { e with past := e.value }) x)) := by
  refine (Spell.bind_of_done (Spell.known_of_find? hfind)).trans ?_
  show (liftM (e.next step) >>= _ : Spell Unit) _ = _
  cases e.next step with
  | error f => rfl
  | ok v =>
    -- the past and the value are written one after the other
    show (Ending.done (), { m with scope := (m.scope.modify _ x).modify _ x }) = _
    rw [Scope.modify_modify]
    rfl

/-- The block is run as long as the value is not above the end. -/
theorem rangeTurns_eq (hseen : m.scope.find? x = some e) (body : Spell Datum) (f : Nat) :
    rangeTurns body x stop step (f + 1) m = (liftM (e.isWithin stop) >>= fun isWithin =>
      if isWithin then goesOn body >>= fun goes =>
        if goes then stepRange x step >>= fun _ => rangeTurns body x stop step f else pure ()
      else pure ()) m :=
  Spell.bind_of_done (Spell.known_of_find? hseen)

/-- A turn is run while the rune is within the range. -/
theorem rangeTurns_run (hseen : m.scope.find? x = some e) (hwithin : e.isWithin stop = .ok true)
    (body : Spell Datum) (f : Nat) :
    rangeTurns body x stop step (f + 1) m = (goesOn body >>= fun goes =>
      if goes then stepRange x step >>= fun _ => rangeTurns body x stop step f else pure ()) m := by
  rw [rangeTurns_eq hseen, hwithin]
  rfl

/-- The rune of a range takes the next value, and its value becomes its past. -/
theorem stepRange_apply {v' : Value} (hfind : m.scope.find? x = some e) (he : e.value = some v)
    (hv : v.kind.isNumber = true) (hstep : step.kind.isNumber = true)
    (hnext : Value.reckon .plus v step = .ok v') :
    stepRange x step m = (.done (), m.mapScope (·.modify (Entry.advance v') x)) := by
  have hsum : e.next step = .ok v' := by
    rw [Entry.next, he, heldDatum, operateInPlace_numbers hv hstep, hnext]
    rfl
  rw [stepRange_eq hfind, hsum]
  rfl

end

/-- In turn `k` the value is a number that is not above the end, and the step leads from it to the
next one. -/
structure IsTurn (vs : Nat → Value) (stop step : Value) (k : Nat) : Prop where
  isNumber : (vs k).kind.isNumber = true
  within : Value.compare .atMost (vs k) stop = .ok true
  next : Value.reckon .plus (vs k) step = .ok (vs (k + 1))

/-- The value after `n` turns is the first above the end. -/
structure EndsAt (vs : Nat → Value) (stop step : Value) (n : Nat) : Prop where
  isTurn : ∀ k < n, IsTurn vs stop step k
  isNumber : (vs n).kind.isNumber = true
  above : Value.compare .atMost (vs n) stop = .ok false

/-- A block that comes to its end or persists wherever a turn begins, and leaves the rune `x`
alone. -/
def GoesOn (block : Tree) (x : String) (kind : Kind) (vs : Nat → Value) (stop step : Value)
    (m₀ : Machine) : Prop :=
  ∀ k m, IsTurn vs stop step k → Turns block x kind vs m₀ k m →
    ∃ m', Turned block m m' ∧ m'.scope.find? x = m.scope.find? x

section
variable {block : Tree} {x : String} {kind : Kind} {vs : Nat →
  Value} {stop step : Value} {m₀ m m' : Machine} {k : Nat}

/-- After some turns the rune holds the value of that turn. -/
theorem Turns.seen (h₀ : m₀.scope.find? x = some (turnEntry kind vs 0))
    (h : Turns block x kind vs m₀ k m) :
    m.scope.find? x = some (turnEntry kind vs k) := by
  cases h with
  | none => exact h₀
  | turn hbefore hseen hturned hkept =>
    rw [Machine.mapScope_scope, Scope.find?_modify_of_some _ (hkept.trans hseen), turnEntry_advance]

/-- As many turns as the values allow are done. -/
theorem exists_turns (hbody : GoesOn block x kind vs stop step m₀)
    (h₀ : m₀.scope.find? x = some (turnEntry kind vs 0)) (n : Nat)
    (hturns : ∀ k < n, IsTurn vs stop step k) :
    ∃ m, Turns block x kind vs m₀ n m := by
  induction n with
  | zero => exact ⟨m₀, .none⟩
  | succ n ih =>
    obtain ⟨m, hm⟩ := ih fun k hk => hturns k (by omega)
    obtain ⟨m', hturned, hkept⟩ := hbody n m (hturns n (by omega)) hm
    exact ⟨_, hm.turn (hm.seen h₀) hturned hkept⟩

/-- A turn whose value is not above the end runs the block. -/
theorem rangeTurns_within (hk : IsTurn vs stop step k)
    (hseen : m.scope.find? x = some (turnEntry kind vs k)) (body : Spell Datum) (f : Nat) :
    rangeTurns body x stop step (f + 1) m = (goesOn body >>= fun goes =>
      if goes then stepRange x step >>= fun _ => rangeTurns body x stop step f else pure ()) m := by
  refine rangeTurns_run hseen ?_ body f
  rw [Entry.isWithin, turnEntry_value, heldDatum, compare_numbers hk.isNumber, hk.within]

/-- One turn of a cycle over a range. -/
theorem rangeTurns_turn (hstep : step.kind.isNumber = true) {fuel : Nat}
    (hk : IsTurn vs stop step k) (hseen : m.scope.find? x = some (turnEntry kind vs k))
    (hturn : (∃ d, block.meaning fuel m = (.done d, m')) ∨ block.meaning fuel m = (.persisted, m'))
    (hkept : m'.scope.find? x = m.scope.find? x) (f : Nat) :
    rangeTurns (block.meaning fuel) x stop step (f + 1) m =
      rangeTurns (block.meaning fuel) x stop step f
        (m'.mapScope (·.modify (Entry.advance (vs (k + 1))) x)) := by
  have hadvance :=
    stepRange_apply (hkept.trans hseen) (turnEntry_value kind vs k) hk.isNumber hstep hk.next
  rw [rangeTurns_within hk hseen]
  exact (Spell.bind_of_done (goesOn_of_turn hturn)).trans (Spell.bind_of_done hadvance)

/-- The cycle is done once the rune has left the range. -/
theorem rangeTurns_end {fuel f : Nat} (hend : EndsAt vs stop step k)
    (hseen : m.scope.find? x = some (turnEntry kind vs k)) :
    rangeTurns (block.meaning fuel) x stop step (f + 1) m = (.done (), m) := by
  rw [rangeTurns_eq hseen, Entry.isWithin, turnEntry_value, heldDatum,
    compare_numbers hend.isNumber, hend.above]
  rfl

/-- With enough fuel for the block, the turns of a cycle can be taken off one by one. -/
theorem Turns.rangeTurns_eq (hstep : step.kind.isNumber = true) (h : Turns block x kind vs m₀ k m)
    (hturns : ∀ j < k, IsTurn vs stop step j) : ∃ n, ∀ fuel, n ≤ fuel → ∀ f,
      rangeTurns (block.meaning fuel) x stop step (f + k) m₀ =
        rangeTurns (block.meaning fuel) x stop step f m := by
  induction h with
  | none => exact ⟨0, fun _ _ _ => rfl⟩
  | @turn k m m' hbefore hseen hturned hkept ih =>
    obtain ⟨n, hn⟩ := ih fun j hj => hturns j (by omega)
    obtain ⟨n', hn'⟩ := hturned.meaning_of_le
    refine ⟨max n n', fun fuel hfuel f => ?_⟩
    have hlast := rangeTurns_turn hstep (hturns k (by omega)) hseen (hn' fuel (by omega)) hkept f
    rw [← hlast, ← hn fuel (by omega) (f + 1)]
    congr 1
    omega

/-- A run with less fuel than one that ends as a turn does ends so as well, or runs out of fuel. -/
theorem Turned.meaning_or_exhausted (h : Turned block m m') (fuel : Nat) :
    (block.meaning fuel m).1.outcome = .exhausted ∨
      (∃ d, block.meaning fuel m = (.done d, m')) ∨ block.meaning fuel m = (.persisted, m') := by
  obtain ⟨n, hn⟩ := h.meaning_of_le
  by_cases hout : (block.meaning fuel m).1.outcome = .exhausted
  · exact .inl hout
  · refine .inr ?_
    rw [← Tree.meaning_outlasts (Nat.le_max_left fuel n) block m hout]
    exact hn _ (Nat.le_max_right fuel n)

/-- A turn without enough fuel has no result. -/
theorem goesOn_of_exhausted {fuel : Nat} (h : (block.meaning fuel m).1.outcome = .exhausted) :
    goesOn (block.meaning fuel) m = (.exhausted, (block.meaning fuel m).2) := by
  rw [goesOn, Spell.bind_apply, Spell.bind, Spell.attempt]
  rcases hrun : block.meaning fuel m with ⟨e, m'⟩
  rw [hrun] at h
  cases e with
  | exhausted => rfl
  | done | proclaimed | shattered | persisted | failed => cases h

/-- If every value is followed by another turn, the cycle takes more turns than it has fuel. -/
theorem rangeTurns_exhausted (hstep : step.kind.isNumber = true)
    (hbody : GoesOn block x kind vs stop step m₀)
    (h₀ : m₀.scope.find? x = some (turnEntry kind vs 0)) (hturns : ∀ k, IsTurn vs stop step k)
    (h : Turns block x kind vs m₀ k m) (fuel f : Nat) :
    (rangeTurns (block.meaning fuel) x stop step f m).1.outcome = .exhausted := by
  induction f generalizing k m with
  | zero => rfl
  | succ f ih =>
    obtain ⟨m', hturned, hkept⟩ := hbody k m (hturns k) h
    -- the block runs out of fuel itself, or does its turn and leaves less fuel to the others
    obtain hout | hturn := hturned.meaning_or_exhausted fuel
    · rw [rangeTurns_within (hturns k) (h.seen h₀), Spell.bind_apply, Spell.bind,
        goesOn_of_exhausted hout]
      rfl
    · rw [rangeTurns_turn hstep (hturns k) (h.seen h₀) hturn hkept]
      exact ih (h.turn (h.seen h₀) hturned hkept)

end

/-! ### Ranges and their cycles -/

def Tree.Evaluates (t : Tree) (m : Machine) (v : Value) (m' : Machine) : Prop :=
  ∃ n d, t.meaning n m = (.done d, m') ∧ d.toValue = .ok v

/-- The step of a range is one if it is not written. -/
def Tree.EvaluatesStep (t : Tree) (m : Machine) (v : Value) (m' : Machine) : Prop :=
  (t = .absent ∧ v = .int 1 ∧ m' = m) ∨ t.Evaluates m v m'

/-- The tree of `x start -> stop | step`. -/
def rangeOf (x : String) (start stop step : Tree) : Tree :=
  .form .range [.named x, start, stop, step]

/-- The tree of `cycle (x start -> stop | step) block`. -/
def rangeCycle (x : String) (start stop step block : Tree) : Tree :=
  .form .rangeCycle [.leaf .cycle "cycle", rangeOf x start stop step, block]

/-- The ends of a range over the rune `x` and its step evaluate to numbers, and the rune is still
free then. -/
structure RangeEvaluates (x : String) (start stop step : Tree) (m : Machine) (a b c : Value)
    (m' : Machine) : Prop where
  isFree : isKeyword x = false
  values : ∃ m₁ m₂, start.Evaluates m a m₁ ∧ stop.Evaluates m₁ b m₂ ∧ step.EvaluatesStep m₂ c m'
  start_isNumber : a.kind.isNumber = true
  stop_isNumber : b.kind.isNumber = true
  step_isNumber : c.kind.isNumber = true
  unwritten : m'.scope.find? x = none

/-- The machine in which the first turn begins. -/
def Machine.withRange (m : Machine) (x : String) (a b c : Value) : Machine :=
  m.mapScope (·.write x ⟨some a, some (rangeKind a b c), false, none⟩)

section
variable {x : String} {start stop step block : Tree} {a b c : Value} {m m' : Machine}

/-- A tree that evaluates does so with any fuel that is large enough. -/
theorem Tree.Evaluates.meaning_of_le {t : Tree} {v : Value} (h : t.Evaluates m v m') :
    ∃ n d, (∀ fuel, n ≤ fuel → t.meaning fuel m = (.done d, m')) ∧ d.toValue = .ok v := by
  obtain ⟨n, d, hd, hv⟩ := h
  exact ⟨n, d, fun fuel hfuel => Tree.meaning_of_le hfuel nofun hd, hv⟩

/-- The part of a range that gives its step. -/
theorem Tree.EvaluatesStep.meaning_of_le {t : Tree} {v : Value} (h : t.EvaluatesStep m v m') :
    ∃ n d, (∀ fuel, n ≤ fuel → ∀ k : Datum → Spell Datum,
      (match t with
        | .absent => (Pure.pure (.bare (.int 1)) : Spell Datum) >>= k
        | t => Tree.meaning fuel t >>= k) m = k d m') ∧ d.toValue = .ok v := by
  obtain ⟨rfl, rfl, rfl⟩ | h := h
  · exact ⟨0, .bare (.int 1), fun _ _ _ => rfl, rfl⟩
  · obtain ⟨n, d, hd, hv⟩ := h.meaning_of_le
    refine ⟨n + 1, d, fun fuel hfuel k => ?_, hv⟩
    have hrun := hd fuel (by omega)
    obtain ⟨j, rfl⟩ : ∃ j, fuel = j + 1 := ⟨fuel - 1, by omega⟩
    cases t with
    | absent => cases hrun
    | node | token => exact Spell.bind_of_done hrun

/-- A range is one of whole numbers or of floats. -/
theorem rangeKind_cases (a b c : Value) : rangeKind a b c = .float ∨ rangeKind a b c = .int := by
  unfold rangeKind
  split
  · exact .inl rfl
  · exact .inr rfl

/-- A range is read back from its datum. -/
theorem Range.ofDatum_toDatum (x : String) (a b c : Value) :
    Range.ofDatum (Range.mk x (rangeKind a b c) a b c).toDatum =
      .ok ⟨x, rangeKind a b c, a, b, c⟩ := by
  obtain h | h := rangeKind_cases a b c <;> rw [h] <;> rfl

/-- The header of a cycle gives its range. -/
theorem meaning_rangeOf (h : RangeEvaluates x start stop step m a b c m') : ∃ n, ∀ fuel, n ≤ fuel →
    (rangeOf x start stop step).meaning fuel m =
      (.done (Range.mk x (rangeKind a b c) a b c).toDatum, m') := by
  obtain ⟨m₁, m₂, hstart, hstop, hstep⟩ := h.values
  obtain ⟨n₁, d₁, hd₁, ha⟩ := hstart.meaning_of_le
  obtain ⟨n₂, d₂, hd₂, hb⟩ := hstop.meaning_of_le
  obtain ⟨n₃, d₃, hd₃, hc⟩ := hstep.meaning_of_le
  refine ⟨n₁ + n₂ + n₃ + 3, fun fuel hfuel => ?_⟩
  obtain ⟨j, rfl⟩ : ∃ j, fuel = j + 3 := ⟨fuel - 3, by omega⟩
  have hname := meaning_named x j m
  rw [h.isFree] at hname
  show rangeMeaning (Tree.meaning (j + 2)) [.named x, start, stop, step] m = _
  have hname : runPart (Tree.meaning (j + 2)) [.named x, start, stop, step] 0 m =
      (.done (.word x), m) := hname
  have hstart : runPart (Tree.meaning (j + 2)) [.named x, start, stop, step] 1 m = (.done d₁, m₁) :=
    hd₁ _ (by omega)
  have hstop : runPart (Tree.meaning (j + 2)) [.named x, start, stop, step] 2 m₁ = (.done d₂, m₂) :=
    hd₂ _ (by omega)
  rw [rangeMeaning, Spell.bind_of_done hname, Spell.bind_of_done hstart, Spell.bind_of_done hstop]
  refine (hd₃ (j + 2) (by omega) _).trans ?_
  simp only [ha, hb, hc]
  show (if !(a.kind.isNumber && b.kind.isNumber && c.kind.isNumber) then _ else _ : Spell Datum)
    m' = _
  rw [h.start_isNumber, h.stop_isNumber, h.step_isNumber, if_neg (by decide)]
  have hkey : (liftM (keyOf (.word x)) : Spell String) m' = (.done x, m') := rfl
  rw [Spell.bind_of_done hkey, Spell.find?, Spell.look_bind_apply, h.unwritten]
  rfl

/-- With enough fuel, a cycle over a range is its turns, after which its rune is dispelled. -/
theorem meaning_rangeCycle_eq (h : RangeEvaluates x start stop step m a b c m') (block : Tree) :
    ∃ n, ∀ fuel, n ≤ fuel → (rangeCycle x start stop step block).meaning (fuel + 1) m =
      (rangeTurns (block.meaning fuel) x b c fuel >>= fun _ => Spell.known x >>= fun _ =>
        Spell.dispel x >>= fun _ => pure .nothing) (m'.withRange x a b c) := by
  obtain ⟨n, hn⟩ := meaning_rangeOf h
  refine ⟨n, fun fuel hfuel => ?_⟩
  have hrange : runPart (Tree.meaning fuel) [.leaf .cycle "cycle", rangeOf x start stop step, block]
      1 m = (.done (Range.mk x (rangeKind a b c) a b c).toDatum, m') := hn fuel hfuel
  show rangeCycleMeaning fuel (Tree.meaning fuel)
    [.leaf .cycle "cycle", rangeOf x start stop step, block] m = _
  rw [rangeCycleMeaning, Spell.bind_of_done hrange, Range.ofDatum_toDatum]
  rfl

variable {vs : Nat → Value} (h₀ : vs 0 = a)
include h₀

/-- The rune of a range starts as that of its first turn. -/
theorem Machine.find?_withRange (m : Machine) (b c : Value) : (m.withRange x a b c).scope.find? x =
    some (turnEntry (rangeKind a b c) vs 0) := by
  rw [Machine.withRange, Machine.mapScope_scope, Scope.find?_write, if_pos rfl, turnEntry, h₀]

/-- If the value after `n` turns is the first above the end, the cycle does these turns and dispels
its rune. -/
theorem meaning_rangeCycle (h : RangeEvaluates x start stop step m a b c m') {n : Nat}
    (hbody : GoesOn block x (rangeKind a b c) vs b c (m'.withRange x a b c))
    (hend : EndsAt vs b c n) :
    ∃ m'', Turns block x (rangeKind a b c) vs (m'.withRange x a b c) n m'' ∧
      (∃ N, ∀ fuel, N ≤ fuel → (rangeCycle x start stop step block).meaning fuel m =
        (.done .nothing, m''.mapScope (·.dispel x))) ∧
      (m''.mapScope (·.dispel x)).scope.find? x = none := by
  have hseen₀ := m'.find?_withRange (x := x) h₀ b c
  obtain ⟨m'', hm''⟩ := exists_turns hbody hseen₀ n hend.isTurn
  refine ⟨m'', hm'', ?_, Scope.find?_dispel_self _ x⟩
  obtain ⟨n₁, hn₁⟩ := meaning_rangeCycle_eq h block
  obtain ⟨n₂, hn₂⟩ := hm''.rangeTurns_eq h.step_isNumber hend.isTurn
  have hseen := hm''.seen hseen₀
  -- the turns take one unit of fuel each, and two are left for the cycle and for seeing that the
  -- end is passed
  refine ⟨n₁ + n₂ + n + 2, fun fuel hfuel => ?_⟩
  obtain ⟨j, rfl⟩ : ∃ j, fuel = (j + 1 + n) + 1 := ⟨fuel - n - 2, by omega⟩
  have hall : rangeTurns (block.meaning (j + 1 + n)) x b c (j + 1 + n) (m'.withRange x a b c) =
      (.done (), m'') := by
    rw [hn₂ _ (by omega) (j + 1), rangeTurns_end hend hseen]
  rw [hn₁ _ (by omega), Spell.bind_of_done hall, Spell.bind_of_done (Spell.known_of_find? hseen)]
  rfl

/-- If no value is above the end, the cycle comes to no ending, whatever fuel it has. -/
theorem meaning_rangeCycle_endless (h : RangeEvaluates x start stop step m a b c m')
    (hbody : GoesOn block x (rangeKind a b c) vs b c (m'.withRange x a b c))
    (hturns : ∀ k, IsTurn vs b c k) (fuel : Nat) :
    ((rangeCycle x start stop step block).meaning fuel m).1.outcome = .exhausted := by
  obtain ⟨n, hn⟩ := meaning_rangeCycle_eq h block
  have hlong : ((rangeCycle x start stop step block).meaning (fuel + n + 1) m).1.outcome =
      .exhausted := by
    have hout := rangeTurns_exhausted h.step_isNumber hbody (m'.find?_withRange h₀ b c) hturns .none
      (fuel + n) (fuel + n)
    rw [hn _ (by omega), Spell.bind_apply, Spell.bind]
    rcases hrun : rangeTurns (block.meaning (fuel + n)) x b c (fuel + n)
      (m'.withRange x a b c) with ⟨e, m₁⟩
    rw [hrun] at hout
    cases e with
    | exhausted => rfl
    | done | proclaimed | shattered | persisted | failed => cases hout
  -- an ending with less fuel would be an ending with more
  refine Decidable.byContradiction fun hout => hout ?_
  rw [← hlong, Tree.meaning_outlasts (by omega : fuel ≤ fuel + n + 1) _ m hout]

end

/-! ### Ranges of whole numbers -/

def wholeTurn (a c : Int) (k : Nat) : Value := .int (a + k * c)

section
variable {a b c : Int} {k : Nat}

theorem compare_whole (a b : Int) :
    Value.compare .atMost (.int a) (.int b) = .ok (decide (a ≤ b)) := by
  show Except.ok (Comparison.holds .atMost (some (compare a b))) = _
  congr 1
  cases hab : compare a b with
  | lt => exact (decide_eq_true (Int.le_of_lt (Int.compare_eq_lt.mp hab))).symm
  | eq => exact (decide_eq_true (Int.le_of_eq (Int.compare_eq_eq.mp hab))).symm
  | gt => exact (decide_eq_false (Int.not_le.mpr (Int.compare_eq_gt.mp hab))).symm

/-- A whole number within the range is a turn. -/
theorem isTurn_whole (h : a + k * c ≤ b) : IsTurn (wholeTurn a c) (.int b) (.int c) k where
  isNumber := rfl
  within := by rw [wholeTurn, compare_whole, decide_eq_true h]
  next := by
    show Except.ok (Value.int (a + k * c + c)) = .ok (.int (a + ↑(k + 1) * c))
    rw [Int.natCast_succ, Int.add_mul, Int.one_mul, Int.add_assoc]

/-- The number of turns of a range whose step is positive. -/
theorem endsAt_whole (hc : 1 ≤ c) :
    EndsAt (wholeTurn a c) (.int b) (.int c) ((b - a) / c + 1).toNat where
  isTurn := by
    intro k hk
    have hle : (k : Int) ≤ (b - a) / c := by omega
    have := (Int.le_ediv_iff_mul_le (by omega)).mp hle
    exact isTurn_whole (by omega)
  isNumber := rfl
  above := by
    have hlt : (b - a) / c < (((b - a) / c + 1).toNat : Nat) := by omega
    have := (Int.ediv_lt_iff_lt_mul (by omega)).mp hlt
    rw [wholeTurn, compare_whole, decide_eq_false (by omega)]

variable {x : String} {start stop step block : Tree} {m m' : Machine}

/-- **A cycle over a range of whole numbers.** If the step is positive, the body is run once for
each number from the start to the end that the steps reach, in order and seeing its number and the
one before as its past, and the rune is gone afterwards. With another step, a cycle that does a
first turn never ends. -/
theorem whole_range_cycle (h : RangeEvaluates x start stop step m (.int a) (.int b) (.int c) m')
    (hbody : GoesOn block x .int (wholeTurn a c) (.int b) (.int c)
      (m'.withRange x (.int a) (.int b) (.int c))) :
    (1 ≤ c → ∃ m'', Turns block x .int (wholeTurn a c) (m'.withRange x (.int a) (.int b) (.int c))
        ((b - a) / c + 1).toNat m'' ∧
      (∃ n, ∀ fuel, n ≤ fuel → (rangeCycle x start stop step block).meaning fuel m =
        (.done .nothing, m''.mapScope (·.dispel x))) ∧
      (m''.mapScope (·.dispel x)).scope.find? x = none) ∧
    (c ≤ 0 → a ≤ b → ∀ fuel, ((rangeCycle x start stop step block).meaning fuel m).1.outcome =
      .exhausted) := by
  have h₀ : wholeTurn a c 0 = .int a := by
    rw [wholeTurn, Int.natCast_zero, Int.zero_mul, Int.add_zero]
  constructor
  · intro hc
    exact meaning_rangeCycle h₀ h hbody (endsAt_whole hc)
  · intro hc hab
    refine meaning_rangeCycle_endless h₀ h hbody fun k => isTurn_whole ?_
    have : k * c ≤ 0 := Int.mul_nonpos_of_nonneg_of_nonpos (Int.natCast_nonneg k) hc
    omega

end

def speakingBody : Tree :=
  .form .block [revelation (.leaf .truth "Truthsung"), .form .interrupt [.leaf .persist "persist"]]

theorem speakingBody_goesOn (x : String) (kind : Kind) (vs : Nat → Value) (stop step : Value)
    (m₀ : Machine) :
    GoesOn speakingBody x kind vs stop step m₀ := by
  intro k m _ _
  exact ⟨{ m with output := m.output ++ "Truthsung" }, ⟨4, .inr rfl⟩, rfl⟩

/-- From one to nine by threes there are three turns; by nothing there is no end to them. -/
theorem whole_range_cycle_by_threes :
    (∃ m, Turns speakingBody "i" .int (wholeTurn 1 3)
      (Machine.withRange {} "i" (.int 1) (.int 9) (.int 3)) 3 m ∧
      (∃ n, ∀ fuel, n ≤ fuel →
        (rangeCycle "i" (.leaf .whole "1") (.leaf .whole "9") (.leaf .whole "3")
        speakingBody).meaning fuel {} = (.done .nothing, m.mapScope (·.dispel "i"))) ∧
      (m.mapScope (·.dispel "i")).scope.find? "i" = none) ∧
    ∀ fuel, ((rangeCycle "i" (.leaf .whole "1") (.leaf .whole "9")
      (.leaf .whole "0") speakingBody).meaning fuel
      {}).1.outcome = .exhausted := by
  have hvalue (s : String) (n : Int) (hn : (Tree.leaf .whole s).meaning 1 {} =
      (.done (.rune (.int n)), {})) :
      (Tree.leaf .whole s).Evaluates {} (.int n) {} := ⟨1, .rune (.int n), hn, rfl⟩
  have hrange (s : String) (c : Int) (hc : (Tree.leaf .whole s).meaning 1 {} =
      (.done (.rune (.int c)), {})) :
      RangeEvaluates "i" (.leaf .whole "1") (.leaf .whole "9") (.leaf .whole s) {} (.int 1) (.int 9)
        (.int c) {} :=
    ⟨by decide, ⟨{}, {}, hvalue "1" 1 rfl, hvalue "9" 9 rfl, .inr (hvalue s c hc)⟩, rfl,
      rfl, rfl, rfl⟩
  exact ⟨(whole_range_cycle (hrange "3" 3 rfl) (speakingBody_goesOn _ _ _ _ _ _)).1 (by decide),
    (whole_range_cycle (hrange "0" 0 rfl) (speakingBody_goesOn _ _ _ _ _ _)).2
      (by decide) (by decide)⟩

end Spellbook
