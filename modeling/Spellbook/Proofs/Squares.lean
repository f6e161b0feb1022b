import Spellbook.Proofs.Layout
import Spellbook.Proofs.RangeCycle
import Spellbook.Proofs.WholeArithmetic
import Spellbook.Proofs.WholeText

/-!
# The workload of squares

The cycle of this workload adds the odd numbers one by one, so after each turn the sum is a square,
and its past is the square before (`rangeTurns_squares`). The bound of the cycle is put into the
text, so the workload needs a numeral that is not too long to be read (`summing_cycle_squares`).
-/

namespace Spellbook

/-! ## Cycles over whole numbers with known fuel -/

section
variable {x : String} {start stop : Tree} {a b : ℤ} {j : Nat} {m : Machine}
  (hx : isKeyword x = false) (hstart : start.meaning (j + 2) m = (.done (.rune (.int a)), m))
  (hstop : stop.meaning (j + 2) m = (.done (.rune (.int b)), m)) (hnew : m.scope.find? x = none)
include hx hstart hstop hnew

/-- A range of whole numbers without a step goes on by one. -/
theorem meaning_wholeRange : (rangeOf x start stop .absent).meaning (j + 3) m =
    (.done (Range.mk x .int (.int a) (.int b) (.int 1)).toDatum, m) := by
  have hname : runPart (Tree.meaning (j + 2)) [.named x, start, stop, .absent] 0 m =
      (.done (.word x), m) := by
    have hname := meaning_named x j m
    rw [hx] at hname
    exact hname
  have hstart : runPart (Tree.meaning (j + 2)) [.named x, start, stop, .absent] 1 m =
      (.done (.rune (.int a)), m) :=
    hstart
  have hstop : runPart (Tree.meaning (j + 2)) [.named x, start, stop, .absent] 2 m =
      (.done (.rune (.int b)), m) :=
    hstop
  have hfree : (liftM (keyOf (.word x)) >>= fun name => Spell.find? name >>= fun e =>
      if e.isSome then Spell.fail (.alreadyWritten name)
      else pure (Range.mk name .int (.int a) (.int b) (.int 1)).toDatum : Spell Datum) m =
        (.done (Range.mk x .int (.int a) (.int b) (.int 1)).toDatum, m) := by
    have hkey : (liftM (keyOf (.word x)) : Spell String) m = (.done x, m) := rfl
    rw [Spell.bind_of_done hkey, Spell.find?, Spell.look_bind_apply, hnew]
    rfl
  show rangeMeaning (Tree.meaning (j + 2)) [.named x, start, stop, .absent] m = _
  rw [rangeMeaning, Spell.bind_of_done hname, Spell.bind_of_done hstart, Spell.bind_of_done hstop]
  exact hfree

/-- A cycle from one whole number to another is its turns, after which its rune is dispelled. -/
theorem meaning_wholeRangeCycle (block : Tree) :
    (rangeCycle x start stop .absent block).meaning (j + 4) m =
    (rangeTurns (block.meaning (j + 3)) x (.int b) (.int 1)
      (j + 3) >>= fun _ => Spell.known x >>= fun _ =>
      Spell.dispel x >>= fun _ => pure .nothing) (m.withRange x (.int a) (.int b) (.int 1)) := by
  have hrange : runPart (Tree.meaning (j + 3))
      [.leaf .cycle "cycle", rangeOf x start stop .absent, block] 1 m =
      (.done (Range.mk x .int (.int a) (.int b) (.int 1)).toDatum, m) :=
        meaning_wholeRange hx hstart hstop hnew
  show rangeCycleMeaning (j + 3) (Tree.meaning (j + 3))
    [.leaf .cycle "cycle", rangeOf x start stop .absent, block] m = _
  rw [rangeCycleMeaning, Spell.bind_of_done hrange]
  rfl

end

namespace Workload

/-! ## Reading -/

/-- The spell that adds odd numbers is read. -/
theorem read_squaresSpell (n : ℤ) :
    Tree.read (squaresSpell (toString n)) = .ok (squaresProgram (toString n)) := by
  have htext : (squaresSpell "9").toList.flatMap (putIn (toString n).toList) =
      (squaresSpell (toString n)).toList := by
    unfold squaresSpell
    repeat rewrite [String.toList_append]
    repeat rewrite [List.flatMap_append]
    rewrite [flatMap_putIn_place]
    repeat rewrite [flatMap_putIn (by decide +kernel)]
    rfl
  have hbreaks : '\r' ∉ (squaresSpell "9").toList := by
    unfold squaresSpell
    repeat rewrite [String.toList_append, List.mem_append, not_or]
    decide +kernel
  have hplaces : (squaresProgram "9").isReadWith (Cut.hasPlaces []) (squaresSpell "9") = true :=
    Tree.isReadWith_of_imp (fun _ h => (Bool.and_eq_true_iff.mp h).2) GivenText.squares.isReadWith
  rw [Tree.read_renumbered hplaces (isWholeNumeral_toString n) hbreaks htext]
  simp [squaresProgram, Tree.named, Tree.retextAll]

/-! ## Turns -/

/-- What is known of the sum when so many odd numbers have been added. -/
def squareEntry : Nat → Entry
  | 0 => .fresh (some (.int 0)) false
  | k + 1 => ⟨some (.int ((k + 1) ^ 2)), some .int, false, some (.int (k ^ 2))⟩

theorem squareEntry_value (k : Nat) : (squareEntry k).value = some (.int (k ^ 2)) := by
  cases k <;> rfl

/-- A square is followed by the next. -/
theorem squareEntry_assign (k : Nat) :
    (squareEntry k).assign (.int ((k + 1) ^ 2)) = squareEntry (k + 1) := by
  cases k <;> rfl

/-- The scope in which turn `k` begins, if the sum is `acc` by then. -/
def squareScope (acc : Entry) (k : Nat) : Scope :=
  [{ own := [("acc", acc), ("i", turnEntry .int (wholeTurn 1 1) k)] }]

/-- The sum of the sum so far and the next odd number. -/
def nextSquare : Tree :=
  .form .sum [.form .sum [.form .rune [.leaf .name "acc"], .leaf .addOp "+",
    .form .product [.form .rune [.leaf .name "i"], .leaf .mulOp "*", .leaf .whole "2"]],
      .leaf .addOp "-", .leaf .whole "1"]

def squareBody : Tree := .form .block [assignment "acc" nextSquare]

section
variable {m : Machine} {k : Nat}

/-- The sum of a square and the next odd number is the next square. -/
theorem meaning_nextSquare (hm : m.scope = squareScope (squareEntry k) k) :
    nextSquare.meaning 5 m = (.done (.rune (.int ((k + 1) ^ 2))), m) := by
  have hsum : (Tree.form .rune [.leaf .name "acc"]).meaning 2 m =
      (.done (.rune (.int (k ^ 2))), m) :=
    meaning_rune (by decide) (by rw [hm]; rfl) (squareEntry_value k)
  have hturn : (Tree.form .rune [.leaf .name "i"]).meaning 2 m =
      (.done (.rune (.int (1 + k * 1))), m) :=
    meaning_rune (by decide) (by rw [hm]; rfl) (turnEntry_value _ _ k)
  have htwo : (Tree.leaf .whole "2").meaning 2 m = (.done (.rune (.int 2)), m) :=
    meaning_numeral fun _ => rfl
  have hone : (Tree.leaf .whole "1").meaning 4 m = (.done (.rune (.int 1)), m) :=
    meaning_numeral fun _ => rfl
  have hdouble : (Tree.operation "*" (.form .rune [.leaf .name "i"]) (.leaf .whole "2")).meaning 3
      m = (.done (.rune (.int ((1 + k * 1) * 2))), m) :=
    meaning_of_reckon hturn htwo (by decide) (RingOp.ofOperator?_written .times none)
      (reckon_ints .times _ _)
  have hmore : (Tree.operation "+" (.form .rune [.leaf .name "acc"]) (Tree.operation "*"
      (.form .rune [.leaf .name "i"]) (.leaf .whole "2"))).meaning 4 m =
      (.done (.rune (.int (k ^ 2 + (1 + k * 1) * 2))), m) :=
    meaning_of_reckon (Tree.meaning_of_le (by decide) nofun hsum) hdouble (by decide)
      (RingOp.ofOperator?_written .plus none) (reckon_ints .plus _ _)
  have hless := meaning_of_reckon hmore hone (Nat.lt_succ_self 4)
    (RingOp.ofOperator?_written .minus none) (reckon_ints .minus _ _)
  have hsquare : RingOp.minus.onInts (k ^ 2 + (1 + k * 1) * 2) 1 = ((k : ℤ) + 1) ^ 2 := by
    show (k : ℤ) ^ 2 + (1 + k * 1) * 2 - 1 = (k + 1) ^ 2
    ring
  rw [hsquare] at hless
  exact hless

/-- In a turn the sum becomes the next square. -/
theorem meaning_squareBody (hm : m.scope = squareScope (squareEntry k) k) (j : Nat) :
    squareBody.meaning (j + 7) m =
      (.done .nothing, { m with scope := squareScope (squareEntry (k + 1)) k }) := by
  have hassign := meaning_assignment (n := j + 3) (x := "acc") (by decide)
    (Tree.meaning_of_le (by omega) nofun (meaning_nextSquare hm)) (e := squareEntry k)
    (by rw [hm]; rfl) (by cases k <;> rfl)
  have hscope : m.mapScope (·.modify (Entry.assign (.int ((k + 1) ^ 2))) "acc") =
      { m with scope := squareScope (squareEntry (k + 1)) k } := by
    rw [Machine.mapScope, hm, ← squareEntry_assign]
    rfl
  rw [hscope] at hassign
  exact Spell.bind_of_done hassign

/-- **The sum is a square after each turn**, so it is the square of the number of turns after all
of them. -/
theorem rangeTurns_squares {n : ℤ} (j : Nat) {f : Nat} (hf : n.toNat < k + f) (hk : k ≤ n.toNat)
    (hm : m.scope = squareScope (squareEntry k) k) :
    rangeTurns (squareBody.meaning (j + 7)) "i" (.int n) (.int 1) f m =
      (.done (), { m with scope := squareScope (squareEntry n.toNat) n.toNat }) := by
  induction f generalizing k m with
  | zero => omega
  | succ f ih =>
    have hseen : m.scope.find? "i" = some (turnEntry .int (wholeTurn 1 1) k) := by rw [hm]; rfl
    obtain hlast | hmore := Nat.eq_or_lt_of_le hk
    · have hend : EndsAt (wholeTurn 1 1) (.int n) (.int 1) k := by
        have hturns : ((n - 1) / 1 + 1).toNat = k := by rw [hlast]; omega
        rw [← hturns]
        exact endsAt_whole (by decide)
      rw [rangeTurns_end hend hseen, ← hlast, ← hm]
    · have hturn : IsTurn (wholeTurn 1 1) (.int n) (.int 1) k := isTurn_whole (by omega)
      rw [rangeTurns_turn rfl hturn hseen (.inl ⟨_, meaning_squareBody hm j⟩) (by rw [hm]; rfl)]
      refine ih (k := k + 1) (by omega) (by omega) ?_
      show Scope.modify _ (squareScope _ k) "i" = _
      rw [squareScope, squareScope, ← turnEntry_advance]
      rfl

end

/-! ## The workload -/

def squaresCycle (turns : String) : Tree :=
  rangeCycle "i" (.leaf .whole "1") (.leaf .whole turns) .absent squareBody

section
variable {n : ℤ} {m : Machine} {j : Nat}

/-- The workload declares the sum, and the rest of it is the cycle. -/
theorem meaning_squaresProgram_eq (turns : String) (hm : m.scope = Scope.empty) :
    (squaresProgram turns).meaning (j + 9) m =
      ((squaresCycle turns).meaning (j + 8) >>= fun _ => pure .nothing)
        { m with scope := [{ own := [("acc", squareEntry 0)] }] } := by
  have hzero : (Tree.leaf .whole "0").meaning (j + 7) m = (.done (.rune (.int 0)), m) :=
    meaning_numeral fun _ => rfl
  have hdeclare := meaning_declaration (x := "acc") (by decide) hzero (by rw [hm]; rfl)
  have hscope : m.mapScope (·.write "acc" (.fresh (some (.int 0)) false)) =
      { m with scope := [{ own := [("acc", squareEntry 0)] }] } := by
    rw [Machine.mapScope, hm]
    rfl
  rw [hscope] at hdeclare
  show runEach (Tree.meaning (j + 8)) [declaration "acc" (.leaf .whole "0"), squaresCycle turns] m =
    _
  rw [runEach, Spell.bind_of_done hdeclare]
  rfl

/-- The cycle leaves the square of the number of its turns behind. -/
theorem meaning_squaresCycle (hn : n.natAbs < 10 ^ Numeral.digitLimit) (hj : n.toNat < j + 7)
    (hm : m.scope = [{ own := [("acc", squareEntry 0)] }]) :
    (squaresCycle (toString n)).meaning (j + 8) m =
      (.done .nothing, { m with scope := [{ own := [("acc", squareEntry n.toNat)] }] }) := by
  have hone : (Tree.leaf .whole "1").meaning (j + 6) m = (.done (.rune (.int 1)), m) :=
    meaning_numeral fun _ => rfl
  have hcycle := meaning_wholeRangeCycle (x := "i") (by decide) hone
    (meaning_numeral (Value.readInt_toString hn)) (by rw [hm]; rfl) squareBody
  have hturns := rangeTurns_squares (k := 0) (n := n) j (f := j + 7)
    (m := m.withRange "i" (.int 1) (.int n) (.int 1)) (by omega) (by omega)
    (by rw [Machine.withRange, Machine.mapScope_scope, hm]; rfl)
  rw [Spell.bind_of_done hturns] at hcycle
  exact hcycle.trans rfl

/-- The cycle fails if its bound has too many digits. -/
theorem meaning_squaresCycle_long
    (hn : Numeral.digitLimit < (Nat.toDigits 10 n.natAbs).length) :
    (squaresCycle (toString n)).meaning (j + 8) m =
      (.failed (.tooLongToRead (Nat.toDigits 10 n.natAbs).length), m) := by
  have hname : runPart (Tree.meaning (j + 6))
      [.named "i", .leaf .whole "1", .leaf .whole (toString n), .absent] 0 m =
        (.done (.word "i"), m) :=
    meaning_named "i" (j + 4) m
  have hstart : (Tree.leaf .whole "1").meaning (j + 6) m = (.done (.rune (.int 1)), m) :=
    meaning_numeral fun _ => rfl
  have hstop : (Tree.leaf .whole (toString n)).meaning (j + 6) m =
      (.failed (.tooLongToRead (Nat.toDigits 10 n.natAbs).length), m) :=
    meaning_numeral_of_error fun _ => Value.readInt_toString_long hn
  have hrange : (rangeOf "i" (.leaf .whole "1") (.leaf .whole (toString n)) .absent).meaning (j + 7)
      m = (.failed (.tooLongToRead (Nat.toDigits 10 n.natAbs).length), m) := by
    show rangeMeaning (Tree.meaning (j + 6)) _ m = _
    rw [rangeMeaning, Spell.bind_of_done hname]
    exact (Spell.bind_of_done hstart).trans (Spell.bind_of_failed hstop)
  exact Spell.bind_of_failed hrange

/-- The program ends with the square, given enough fuel. -/
theorem meaning_squaresProgram (hn : n.natAbs < 10 ^ Numeral.digitLimit)
    (hm : m.scope = Scope.empty) {fuel : Nat} (hfuel : n.toNat + 9 < fuel) :
    (squaresProgram (toString n)).meaning fuel m =
      (.done .nothing, { m with scope := [{ own := [("acc", squareEntry n.toNat)] }] }) := by
  obtain ⟨j, rfl⟩ : ∃ j, fuel = j + 9 := ⟨fuel - 9, by omega⟩
  rw [meaning_squaresProgram_eq _ hm, Spell.bind_of_done (meaning_squaresCycle hn (by omega) rfl)]
  rfl

/-- A bound that is too long fails before the cycle begins. -/
theorem perform_of_long (hn : Numeral.digitLimit < (Nat.toDigits 10 n.natAbs).length)
    {source : String} (hread : Tree.read source = .ok (squaresProgram (toString n)))
    (hm : m.scope = Scope.empty) :
    m.perform source = (.ended (.failed (.tooLongToRead (Nat.toDigits 10 n.natAbs).length)),
      { m with scope := [{ own := [("acc", squareEntry 0)] }] }) := by
  obtain ⟨j, hj⟩ : ∃ j, endurance = j + 9 := ⟨endurance - 9, (Nat.sub_add_cancel (by decide)).symm⟩
  rw [Machine.perform_of_read hread, Machine.run, hj, meaning_squaresProgram_eq _ hm,
    Spell.bind_of_failed (meaning_squaresCycle_long hn)]

end

/-- The figures are the square and the count of the files, if none of them can be loaded. -/
theorem squaresFigures_of_perform {openPath : String → Opening} {paths : List String}
    {source : String} {k : Nat} (hlost : ∀ p ∈ paths, (openPath p).text.isOk = false)
    (hperform : (Machine.fresh "" []).perform source = (.ended (.done .nothing),
      { Machine.fresh "" [] with scope := [{ own := [("acc", squareEntry k)] }] })) :
    squaresFigures openPath paths source =
      .ok (.tuple [.bare (.int (k ^ 2)), .bare (.int paths.length)]) := by
  have hcount : (paths.countP fun p => !(openPath p).text.isOk) = paths.length :=
    List.countP_eq_length.mpr fun p hp => by rw [hlost p hp]; rfl
  have hheld : held { Machine.fresh "" [] with scope := [{ own := [("acc", squareEntry k)] }] }
      "acc" = .bare (.int (k ^ 2)) := by
    have hfind : Scope.find? [{ own := [("acc", squareEntry k)] }] "acc" = some (squareEntry k) :=
      rfl
    rw [held, hfind, Option.bind_some, squareEntry_value]
  rw [squaresFigures, perform, hperform, hcount]
  show Except.ok (Datum.tuple [held _ "acc", _]) = _
  rw [hheld]

/-- A power of ten has one digit more than its exponent. -/
theorem length_toDigits_ten_pow (k : Nat) : (Nat.toDigits 10 (10 ^ k)).length = k + 1 := by
  refine Nat.le_antisymm ((Nat.length_toDigits_le_iff (by decide) (by omega)).mpr ?_) ?_
  · exact Nat.pow_lt_pow_right (by decide) (Nat.lt_succ_self k)
  · obtain rfl | hk := Nat.eq_zero_or_pos k
    · decide
    · refine Nat.lt_of_not_le fun hle => ?_
      exact Nat.lt_irrefl _ ((Nat.length_toDigits_le_iff (by decide) hk).mp hle)

end Workload

end Spellbook
