import Mathlib.Data.Nat.Fib.Basic
import Spellbook.Proofs.Hoisting
import Spellbook.Proofs.Proclaim
import Spellbook.Proofs.Unmentioned
import Spellbook.Proofs.WholeArithmetic
import Spellbook.Proofs.WholeText

/-!
# Casts within casts

An incantation that casts itself twice has its parameter in a frame of its own each time, so the
value is still there when the second cast is made, however deep the first went (`meaning_castFib`).
A program that declares a rune by such a cast does all else as it does at depth zero, since nothing
else mentions that rune (`casts_within_casts`).
-/

namespace Spellbook

/-! ## Calls that leave the machine as it was -/

section
variable {f : String} {i : Incantation} {arguments : Tree} {ds : List Datum} {d : Datum} {n : Nat}
  {m : Machine}

/-- A call whose arguments and body change nothing gives what the body proclaims, and changes
nothing either. -/
theorem meaning_castOf (hf : isKeyword f = false) (hi : m.book.find? f = some i)
    (hds : (members arguments >>= runAll (Tree.meaning (n + 2))) m = (.done ds, m))
    (hcount : ds.length = i.parameters.length) (hvalues : ∀ d ∈ ds, ∃ v, d.toValue = .ok v)
    (hbody : i.body.meaning (n + 2) (m.mapScope (·.enterWith i ds)) =
      (.proclaimed d, m.mapScope (·.enterWith i ds))) :
    (castOf f arguments).meaning (n + 3) m = (.done d, m) := by
  have hkey : runKey (Tree.meaning (n + 2)) [.leaf .castWord "cast", .named f, arguments] 1 m =
      (.done f, m) := by
    have hname := meaning_named f n m
    rw [hf] at hname
    exact Spell.bind_of_done hname
  have hcall : ReachesCall (Tree.meaning (n + 2)) [.leaf .castWord "cast", .named f, arguments] m
      f i ds m := ⟨m, hkey, hi, hds⟩
  obtain ⟨frame, hframe, -⟩ := m.scope.enterWith_eq i ds
  have hleft : (m.scope.enterWith i ds).leaveTo m.scope.length = m.scope := by
    have hleave := leaveTo_of_body hbody nofun
    rw [Machine.mapScope_scope] at hleave
    rw [hleave, hframe, List.tail_cons]
  rw [castOf, hcall.meaning_cast hcount hvalues, castBody_apply, hbody]
  show (Ending.done d, { m with scope := (m.scope.enterWith i ds).leaveTo m.scope.length }) = _
  rw [hleft]

/-- A sequence whose first spell proclaims something goes no further. -/
theorem Spell.bind_of_proclaimed {α β : Type} {x : Spell α} {g : α → Spell β} {m' : Machine}
    (h : x m = (.proclaimed d, m')) : (x >>= g) m = (.proclaimed d, m') := by
  rw [Spell.bind_apply, Spell.bind, h]

end

/-! ## Comparisons and choices -/

def Comparison.onInts : Comparison → ℤ → ℤ → Bool
  | less, a, b => a < b
  | greater, a, b => b < a
  | atMost, a, b => a ≤ b
  | atLeast, a, b => b ≤ a
  | equal, a, b => a = b
  | unequal, a, b => a ≠ b

/-- A comparison of whole numbers holds as it does on them. -/
theorem Comparison.holds_compare (c : Comparison) (a b : ℤ) :
    c.holds (some (compare a b)) = c.onInts a b := by
  cases hab : compare a b with
  | lt | eq | gt =>
    first
    | have hab := Int.compare_eq_lt.mp hab
    | have hab := Int.compare_eq_eq.mp hab
    | have hab := Int.compare_eq_gt.mp hab
    cases c
    all_goals
      first
      | exact (decide_eq_true (by omega)).symm
      | exact (decide_eq_false (by omega)).symm

section
variable {l r : Tree} {a b : ℤ} {n : Nat} {m m₁ m₂ : Machine}

/-- A comparison of two whole numbers gives its truth. -/
theorem meaning_comparison (c : Comparison)
    (hl : l.meaning (n + 1) m = (.done (.rune (.int a)), m₁))
    (hr : r.meaning (n + 1) m₁ = (.done (.rune (.int b)), m₂)) :
    (Tree.form .comparison [l, .leaf .compareOp c.symbol, r]).meaning (n + 2) m =
      (.done (.rune (.truth (c.onInts a b))), m₂) := by
  refine (Spell.bind_of_done (runThree_operands hl hr rfl)).trans ?_
  rw [← c.holds_compare]
  cases c <;> rfl

/-- A choice whose condition is true or false. -/
theorem meaning_choice {test block : Tree} {rest : List Tree} {p : Bool}
    (htest : test.meaning (n + 1) m = (.done (.rune (.truth p)), m₁)) :
    (Tree.form .foretell (.leaf .foretell "foretell" :: test :: block :: rest)).meaning (n + 2) m =
      if p then (block.meaning (n + 1) >>= fun _ => pure .nothing) m₁
      else branches (Tree.meaning (n + 1)) rest m₁ := by
  refine (branches_condition htest List.mem_cons_self).trans ?_
  cases p <;> rfl

end

/-! ## Fibonacci numbers -/

namespace Fibonacci

def parameter : Tree := .form .rune [.leaf .name "n"]

/-- The comparison of the parameter with a number. -/
def test (c : Comparison) (w : String) : Tree :=
  .form .comparison [parameter, .leaf .compareOp c.symbol, .leaf .whole w]

/-- The tests of the parameter that hold of the numbers below two. -/
def smallTests : List Tree :=
  [test .less "2", test .atMost "1",
    .form .comparison [.leaf .whole "2", .leaf .compareOp (Comparison.symbol .greater), parameter],
    .form .comparison [.leaf .whole "1", .leaf .compareOp (Comparison.symbol .atLeast), parameter]]

/-- The choice that proclaims something if the test holds. -/
def early (test value : Tree) (rest : List Tree := [.absent, .absent]) : Tree :=
  .form .foretell (.leaf .foretell "foretell" :: test :: .form .block [proclaimed value] :: rest)

/-- The instruction that proclaims the sum of the two numbers before. -/
def sumBefore : Tree := proclaimed (.form .sum [fibLess "1", .leaf .addOp "+", fibLess "2"])

/-- Bodies with which an incantation gives Fibonacci numbers: the sum comes after one choice, or
within it, or after two choices. -/
def bodies : List (List Tree) :=
  (smallTests.map fun t => [early t parameter, sumBefore]) ++
  (smallTests.map fun t =>
    [early t parameter [.leaf .resolve "resolve", .form .block [sumBefore]]]) ++
  [[early (test .atMost "0") (.leaf .whole "0"), early (test .equal "1") (.leaf .whole "1"),
    sumBefore]]

def incantation (body : List Tree) : Incantation := ⟨["n"], .form .block body⟩

/-- The machine in which the body is run. -/
def inside (m : Machine) (d : Nat) : Machine :=
  m.mapScope (·.enterWith (incantation []) [.rune (.int d)])

section
variable {m : Machine} {d : Nat}

theorem meaning_parameter (k : Nat) :
    parameter.meaning (k + 2) (inside m d) = (.done (.rune (.int d)), inside m d) :=
  meaning_rune (by decide) (e := .fresh (some (.int d)) false) rfl rfl

theorem meaning_test (c : Comparison) {w : String} {b : ℤ}
    (hw : ∀ shown, Value.readInt w shown = .ok b) (k : Nat) :
    (test c w).meaning (k + 3) (inside m d) =
      (.done (.rune (.truth (c.onInts d b))), inside m d) :=
  meaning_comparison c (meaning_parameter k) (meaning_numeral hw)

/-- Each of the tests asks whether the number is below two. -/
theorem meaning_smallTest {t : Tree} (ht : t ∈ smallTests) (k : Nat) :
    t.meaning (k + 3) (inside m d) = (.done (.rune (.truth (decide (d < 2)))), inside m d) := by
  have htwo : (Tree.leaf .whole "2").meaning (k + 2) (inside m d) =
      (.done (.rune (.int 2)), inside m d) := meaning_numeral fun _ => rfl
  have hone : (Tree.leaf .whole "1").meaning (k + 2) (inside m d) =
      (.done (.rune (.int 1)), inside m d) := meaning_numeral fun _ => rfl
  simp only [smallTests, List.mem_cons, List.not_mem_nil, or_false] at ht
  obtain rfl | rfl | rfl | rfl := ht
  · rw [meaning_test .less (b := 2) fun _ => rfl]
    simp [Comparison.onInts]
  · rw [meaning_test .atMost (b := 1) fun _ => rfl]
    simp [Comparison.onInts]
  · rw [meaning_comparison .greater htwo (meaning_parameter k)]
    simp [Comparison.onInts]
  · rw [meaning_comparison .atLeast hone (meaning_parameter k)]
    simp [Comparison.onInts]

/-- The choice proclaims a number if the test holds, and goes on if not. -/
theorem meaning_early {t value : Tree} (rest : List Tree) {p : Bool} {n : ℤ} {k : Nat}
    (ht : t.meaning (k + 4) (inside m d) = (.done (.rune (.truth p)), inside m d))
    (hvalue : value.meaning (k + 2) (inside m d) = (.done (.rune (.int n)), inside m d)) :
    (early t value rest).meaning (k + 5) (inside m d) =
      if p then (.proclaimed (.rune (.int n)), inside m d)
      else branches (Tree.meaning (k + 4)) rest (inside m d) := by
  have hproclaim : (proclaimed value).meaning (k + 3) (inside m d) =
      (.proclaimed (.rune (.int n)), inside m d) := meaning_proclaim rfl hvalue
  have hblock : (Tree.form .block [proclaimed value]).meaning (k + 4) (inside m d) =
      (.proclaimed (.rune (.int n)), inside m d) := Spell.bind_of_proclaimed hproclaim
  rw [early, meaning_choice ht, Spell.bind_of_proclaimed hblock]

/-- The argument of an inner cast is the number without as much. -/
theorem meaning_argument {w : String} {j k : Nat}
    (hw : ∀ shown, Value.readInt w shown = .ok (j : ℤ)) (hd : d = k + j) :
    (Tree.form .sum [.form .rune [.leaf .name "n"], .leaf .addOp "-", .leaf .whole w]).meaning 4
      (inside m d) = (.done (.rune (.int k)), inside m d) := by
  have hless := meaning_of_reckon (k := 4) (meaning_parameter (m := m) (d := d) 0)
    (meaning_numeral hw) (by decide) (RingOp.ofOperator?_written .minus none)
    (reckon_ints .minus _ _)
  have hdifference : RingOp.minus.onInts d j = k := by
    show (d : ℤ) - j = k
    omega
  rw [hdifference] at hless
  exact hless

end

/-- The casts in the body give the two numbers before. -/
structure GivesBefore (j d : Nat) (m : Machine) : Prop where
  first : ∀ k, d = k + 1 →
    (fibLess "1").meaning j (inside m d) = (.done (.rune (.int (Nat.fib k))), inside m d)
  second : ∀ k, d = k + 2 →
    (fibLess "2").meaning j (inside m d) = (.done (.rune (.int (Nat.fib k))), inside m d)

section
variable {m : Machine} {d j : Nat}

/-- If the casts before give the Fibonacci numbers, the body proclaims their sum. -/
theorem GivesBefore.meaning_sumBefore (h : GivesBefore (j + 4) d m) (hd : 2 ≤ d) {k : Nat}
    (hk : j ≤ k) :
    sumBefore.meaning (k + 6) (inside m d) =
      (.proclaimed (.rune (.int (Nat.fib d))), inside m d) := by
  obtain ⟨d, rfl⟩ : ∃ e, d = e + 2 := ⟨d - 2, by omega⟩
  have hsum := meaning_of_reckon (h.first (d + 1) rfl) (h.second d rfl) (Nat.lt_succ_self (j + 4))
    (RingOp.ofOperator?_written .plus none) (reckon_ints .plus _ _)
  have hnext : RingOp.plus.onInts (Nat.fib (d + 1)) (Nat.fib d) = (Nat.fib (d + 2) : ℤ) := by
    show (Nat.fib (d + 1) : ℤ) + Nat.fib d = Nat.fib (d + 2)
    rw [Nat.fib_add_two, Nat.cast_add, add_comm]
  rw [hnext] at hsum
  exact meaning_proclaim rfl (Tree.meaning_of_le (by omega) nofun hsum)

theorem fib_of_lt_two (hd : d < 2) : Nat.fib d = d := by
  obtain rfl | rfl : d = 0 ∨ d = 1 := by omega
  · rfl
  · rfl

/-- The choice on a small test proclaims the number below two, and goes on from there. -/
theorem meaning_smallChoice {t : Tree} (ht : t ∈ smallTests) (rest : List Tree) (k : Nat) :
    (early t parameter rest).meaning (k + 5) (inside m d) =
      if d < 2 then (.proclaimed (.rune (.int (Nat.fib d))), inside m d)
      else branches (Tree.meaning (k + 4)) rest (inside m d) := by
  rw [meaning_early rest (meaning_smallTest ht (k + 1)) (meaning_parameter k)]
  by_cases hd : d < 2
  · rw [decide_eq_true hd, if_pos rfl, if_pos hd, fib_of_lt_two hd]
  · rw [decide_eq_false hd, if_neg Bool.false_ne_true, if_neg hd]

/-- The body with the sum after one choice. -/
theorem GivesBefore.meaning_after {t : Tree} (ht : t ∈ smallTests) (h : GivesBefore (j + 4) d m) :
    (Tree.form .block [early t parameter, sumBefore]).meaning (j + 9) (inside m d) =
      (.proclaimed (.rune (.int (Nat.fib d))), inside m d) := by
  have hchoice := meaning_smallChoice (m := m) (d := d) ht [.absent, .absent] (j + 3)
  by_cases hd : d < 2
  · rw [if_pos hd] at hchoice
    exact Spell.bind_of_proclaimed hchoice
  · rw [if_neg hd] at hchoice
    have hsum := h.meaning_sumBefore (Nat.le_of_not_lt hd) (Nat.le_add_right j 2)
    exact (Spell.bind_of_done hchoice).trans (Spell.bind_of_proclaimed hsum)

/-- The body with the sum within the choice. -/
theorem GivesBefore.meaning_within {t : Tree} (ht : t ∈ smallTests) (h : GivesBefore (j + 4) d m) :
    (Tree.form .block
      [early t parameter [.leaf .resolve "resolve", .form .block [sumBefore]]]).meaning (j + 9)
      (inside m d) = (.proclaimed (.rune (.int (Nat.fib d))), inside m d) := by
  have hchoice := meaning_smallChoice (m := m) (d := d) ht
    [.leaf .resolve "resolve", .form .block [sumBefore]] (j + 3)
  by_cases hd : d < 2
  · rw [if_pos hd] at hchoice
    exact Spell.bind_of_proclaimed hchoice
  · rw [if_neg hd] at hchoice
    have hsum := h.meaning_sumBefore (Nat.le_of_not_lt hd) (Nat.le_refl j)
    have hblock : (Tree.form .block [sumBefore]).meaning (j + 7) (inside m d) =
        (.proclaimed (.rune (.int (Nat.fib d))), inside m d) := Spell.bind_of_proclaimed hsum
    have hlast : branches (Tree.meaning (j + 7))
        [.leaf .resolve "resolve", .form .block [sumBefore]] (inside m d) =
          (.proclaimed (.rune (.int (Nat.fib d))), inside m d) := by
      show ((Tree.form .block [sumBefore]).meaning (j + 7) >>= fun _ => pure Datum.nothing)
        (inside m d) = _
      exact Spell.bind_of_proclaimed hblock
    exact Spell.bind_of_proclaimed (hchoice.trans hlast)

/-- The body with one choice for each of the first two numbers. -/
theorem GivesBefore.meaning_apart (h : GivesBefore (j + 4) d m) :
    (Tree.form .block [early (test .atMost "0") (.leaf .whole "0"),
      early (test .equal "1") (.leaf .whole "1"), sumBefore]).meaning (j + 9) (inside m d) =
        (.proclaimed (.rune (.int (Nat.fib d))), inside m d) := by
  have hzero := meaning_early [.absent, .absent] (m := m) (d := d) (k := j + 3)
    (meaning_test .atMost (w := "0") (b := 0) (fun _ => rfl) (j + 4))
    (meaning_numeral (w := "0") (k := 0) fun _ => rfl)
  have hone := meaning_early [.absent, .absent] (m := m) (d := d) (k := j + 3)
    (meaning_test .equal (w := "1") (b := 1) (fun _ => rfl) (j + 4))
    (meaning_numeral (w := "1") (k := 1) fun _ => rfl)
  match d with
  | 0 => exact Spell.bind_of_proclaimed hzero
  | 1 => exact (Spell.bind_of_done hzero).trans (Spell.bind_of_proclaimed hone)
  | d + 2 =>
    have hzero' : Comparison.onInts .atMost (d + 2 : ℕ) 0 = false := by
      simp only [Comparison.onInts, decide_eq_false_iff_not]
      omega
    have hone' : Comparison.onInts .equal (d + 2 : ℕ) 1 = false := by
      simp only [Comparison.onInts, decide_eq_false_iff_not]
      omega
    rw [hzero', if_neg Bool.false_ne_true] at hzero
    rw [hone', if_neg Bool.false_ne_true] at hone
    have hsum := h.meaning_sumBefore (by omega) (Nat.le_add_right j 2)
    exact (Spell.bind_of_done hzero).trans
      ((Spell.bind_of_done hone).trans (Spell.bind_of_proclaimed hsum))

/-- **Each of the bodies proclaims the number**, if the casts in it give the two before. -/
theorem GivesBefore.meaning_body {body : List Tree} (hbody : body ∈ bodies)
    (h : GivesBefore (j + 4) d m) :
    (Tree.form .block body).meaning (j + 9) (inside m d) =
      (.proclaimed (.rune (.int (Nat.fib d))), inside m d) := by
  simp only [bodies, List.mem_append, List.mem_map, List.mem_singleton] at hbody
  obtain (⟨t, ht, rfl⟩ | ⟨t, ht, rfl⟩) | rfl := hbody
  · exact h.meaning_after ht
  · exact h.meaning_within ht
  · exact h.meaning_apart

end

/-- **The incantation gives Fibonacci numbers**, and leaves the machine as it was. -/
theorem meaning_castFib {body : List Tree} (hbody : body ∈ bodies) {d fuel : Nat} {m : Machine}
    {argument : Tree} (hfib : m.book.find? "fib" = some (incantation body))
    (hargument : argument.meaning 4 m = (.done (.rune (.int d)), m)) (hfuel : 6 * d + 10 ≤ fuel) :
    (castOf "fib" (.form .arguments [argument])).meaning fuel m =
      (.done (.rune (.int (Nat.fib d))), m) := by
  induction d using Nat.strong_induction_on generalizing m argument fuel with
  | _ d ih =>
    obtain ⟨j, rfl⟩ : ∃ j, fuel = j + 10 := ⟨fuel - 10, by omega⟩
    have harguments : runAll (Tree.meaning (j + 9)) [argument] m = (.done [.rune (.int d)], m) :=
      Spell.bind_of_done (Tree.meaning_of_le (by omega) nofun hargument)
    -- the casts are made one after the other, and the first leaves the parameter to the second
    have hcast {k w : Nat} {text : String} (hw : ∀ shown, Value.readInt text shown = .ok (w : ℤ))
        (hpos : 0 < w) (hk : d = k + w) :
        (fibLess text).meaning (j + 4) (inside m d) =
          (.done (.rune (.int (Nat.fib k))), inside m d) :=
      ih k (by omega) (show (inside m d).book.find? "fib" = _ from hfib) (meaning_argument hw hk)
        (by omega)
    have hgives : GivesBefore (j + 4) d m :=
      ⟨fun _ => hcast (w := 1) (fun _ => rfl) (by decide),
        fun _ => hcast (w := 2) (fun _ => rfl) (by decide)⟩
    refine meaning_castOf (by decide) hfib harguments rfl (fun v hv => ?_)
      (hgives.meaning_body hbody)
    exact ⟨.int d, by rw [List.mem_singleton.mp hv]; rfl⟩

end Fibonacci

/-! ## Instructions one after the other -/

/-- The book grows while instructions are run. -/
theorem runWhere_keeps_bookLaw (declarations : Bool) (fuel : Nat) (ts : List Tree) :
    (runWhere declarations (Tree.meaning fuel) ts).Keeps bookLaw :=
  runWhere_inherits bookLaw.isSequential.inherited (fun t _ => Tree.meaning_keeps_bookLaw fuel t)
    declarations

section
variable {ts us : List Tree} (hts : ∀ t ∈ ts, t.role .lax = .deed)
include hts

/-- Deeds in two lists are run one list after the other. -/
theorem runWhere_append (declarations : Bool) (run : Run) :
    runWhere declarations run (ts ++ us) =
      runWhere declarations run ts >>= fun _ => runWhere declarations run us := by
  induction ts with
  | nil => rfl
  | cons t ts ih =>
    obtain ⟨ht, hts⟩ := List.forall_mem_cons.mp hts
    rw [List.cons_append, runWhere_cons ht, runWhere_cons ht, ih hts]
    split
    · funext m
      rw [Spell.bind_assoc]
    · rfl

/-- A program runs an instruction that is no declaration between those before and those after it,
once all declarations are loaded. -/
theorem programMeaning_insert {t : Tree} (ht : t.role .lax = .deed) (hruns : t.declares = false)
    (run : Run) :
    programMeaning run (ts ++ t :: us) =
      runWhere true run (ts ++ us) >>= fun _ => runWhere false run ts >>= fun _ =>
        run t >>= fun _ => runWhere false run us := by
  have hloads : runWhere true run (ts ++ t :: us) = runWhere true run (ts ++ us) := by
    rw [runWhere_append hts, runWhere_append hts, runWhere_cons ht, hruns,
      if_neg Bool.false_ne_true]
  have hrest : runWhere false run (ts ++ t :: us) =
      runWhere false run ts >>= fun _ => run t >>= fun _ => runWhere false run us := by
    rw [runWhere_append hts, runWhere_cons ht, hruns, if_pos rfl]
  rw [programMeaning, hloads, hrest]

variable {fuel : Nat} {m m₁ : Machine} {d : Datum}

/-- What is declared is in the book once the declarations are loaded. -/
theorem find?_of_runWhere {t : Tree} {x : String} {i : Incantation} (ht : t ∈ ts)
    (hdeclares : t.Declares x i) (h : runWhere true (Tree.meaning fuel) ts m = (.done d, m₁)) :
    m₁.book.find? x = some i := by
  obtain ⟨before, after, rfl⟩ := List.append_of_mem ht
  obtain ⟨hbefore, hafter⟩ := List.forall_mem_append.mp hts
  have hdeed := hafter t List.mem_cons_self
  have hdeclaration : t.declares = true := by
    obtain ⟨w, list, rfl, -⟩ := hdeclares
    rfl
  rw [runWhere_append hbefore, runWhere_cons hdeed, hdeclaration, if_pos rfl] at h
  obtain ⟨_, m', -, h⟩ := Spell.exists_of_bind_done h
  obtain ⟨_, m'', hdeclared, hrest⟩ := Spell.exists_of_bind_done h
  obtain ⟨-, -, -, rfl⟩ := hdeclares.meaning_eq_done.mp hdeclared
  have hgrows : Book.Grows (m'.book.put x i) (runWhere true (Tree.meaning fuel) after
      { m' with book := m'.book.put x i }).2.book :=
    runWhere_keeps_bookLaw true fuel after { m' with book := m'.book.put x i }
  rw [hrest] at hgrows
  exact hgrows x i (Table.find?_put_self _ _ _)

end

/-! ## Programs that differ in one rune -/

theorem Scope.write_ne_nil {s : Scope} (hs : s ≠ []) {x : String} {e : Entry} :
    s.write x e ≠ [] := by
  cases s with
  | nil => exact absurd rfl hs
  | cons f fs => exact List.cons_ne_nil _ _

/-- Instructions that do not mention a rune do the same in scopes that differ in it alone. -/
theorem runWhere_apart {x : String} {ts : List Tree} (hts : ∀ t ∈ ts, t.role (.without x) = .deed)
    (declarations : Bool) (fuel : Nat) {m : Machine} {s : Scope} (hscope : m.scope ≠ [])
    (hlength : (m.scope.mentions x).length = (s.mentions x).length)
    (hothers : ∀ y, y ≠ x → m.scope.mentions y = s.mentions y) (hbook : Book.Without x m.book) :
    let run := runWhere declarations (Tree.meaning fuel) ts m
    let run' := runWhere declarations (Tree.meaning fuel) ts { m with scope := s }
    run'.1 = run.1 ∧ run'.2.output = run.2.output ∧ run'.2.book = run.2.book ∧
      run'.2.input = run.2.input ∧ run'.2.draws = run.2.draws ∧ Book.Without x run.2.book ∧
      Scope.Besides x (m.scope.mentions x) (s.mentions x) run.2.scope run'.2.scope := by
  have hcs : m.scope.mentions x ≠ [] := by simpa [Scope.mentions] using hscope
  let L := Likeness.besides x (m.scope.mentions x) (s.mentions x) hcs hlength
  have hm : L.Machines m { m with scope := s } :=
    ⟨⟨hothers, 0, rfl, rfl⟩, ⟨rfl, hbook⟩, rfl, rfl, rfl⟩
  have halike := Likeness.runWhere_alike (Likeness.meaning_alike L fuel) declarations hts
  rw [show L.rename = id from rfl, Tree.renameAll_id] at halike
  obtain ⟨hending, hscopes, ⟨hbooks, hwithout⟩, houtput, hinput, hdraws⟩ := halike m _ hm
  exact ⟨(hending.eq rfl fun _ _ h => h.1).symm, houtput.symm, hbooks.symm, hinput.symm,
    hdraws.symm, hwithout, hscopes⟩

/-- Instructions that do not mention a rune leave it as it was, and declare nothing that mentions
it. -/
theorem runWhere_leaves {x : String} {ts : List Tree} (hts : ∀ t ∈ ts, t.role (.without x) = .deed)
    {declarations : Bool} {fuel : Nat} {m m₁ : Machine} {d : Datum} (hscope : m.scope ≠ [])
    (hbook : Book.Without x m.book)
    (h : runWhere declarations (Tree.meaning fuel) ts m = (.done d, m₁)) :
    m₁.scope ≠ [] ∧ Book.Without x m₁.book ∧ m₁.scope.find? x = m.scope.find? x := by
  obtain ⟨-, -, -, -, -, hwithout, hbesides⟩ :=
    runWhere_apart hts declarations fuel hscope rfl (fun _ _ => rfl) hbook
  rw [h] at hwithout hbesides
  refine ⟨fun hnil => ?_, hwithout, ?_⟩
  · obtain ⟨n, hpadded, -⟩ := hbesides.padded
    rw [hnil] at hpadded
    have hnone := (List.append_eq_nil_iff.mp hpadded.symm).2
    exact hscope (by simpa [Scope.mentions] using hnone)
  · rw [hbesides.find?_left, ← Scope.find?_eq]

/-- Instructions that do not mention a rune, and end well if it is written one way, do the same if
it is written another way. -/
theorem runWhere_written {x : String} {ts : List Tree} (hts : ∀ t ∈ ts, t.role (.without x) = .deed)
    {fuel : Nat} {m m₁ : Machine} (hscope : m.scope ≠ [])
    (hbook : Book.Without x m.book) {e : Entry}
    (h : runWhere false (Tree.meaning fuel) ts (m.mapScope (·.write x e)) = (.done .nothing, m₁))
    (e' : Entry) :
    ∃ m₂, runWhere false (Tree.meaning fuel) ts (m.mapScope (·.write x e')) = (.done .nothing, m₂) ∧
      m₂.scope.find? x = some e' ∧ (∀ y, y ≠ x → m₂.scope.find? y = m₁.scope.find? y) ∧
      m₂.output = m₁.output ∧ m₂.book = m₁.book ∧ m₂.input = m₁.input ∧ m₂.draws = m₁.draws := by
  have hlength := (Scope.length_mentions_write (x := x) hscope e).symm.trans
    (Scope.length_mentions_write hscope e')
  have hothers (y : String) (hy : y ≠ x) :=
    (Scope.mentions_write_of_ne hy hscope e).trans (Scope.mentions_write_of_ne hy hscope e').symm
  obtain ⟨hending, houtput, hbooks, hinput, hdraws, -, hbesides⟩ := runWhere_apart hts false fuel
    (m := m.mapScope (·.write x e)) (Scope.write_ne_nil hscope) hlength hothers hbook
  rw [h] at hending houtput hbooks hinput hdraws hbesides
  have hdone : (runWhere false (Tree.meaning fuel) ts (m.mapScope (·.write x e'))).1 =
      .done .nothing := hending
  refine ⟨_, Prod.ext hdone rfl, ?_⟩
  refine ⟨hbesides.find?_right.trans ?_, fun y hy => (hbesides.find? hy).symm, houtput,
    hbooks, hinput, hdraws⟩
  rw [← Scope.find?_eq, Scope.find?_write, if_pos rfl]

namespace Fibonacci

/-- The declaration of the rune `v1` by a cast of `fib`. -/
def call (depth : String) : Tree :=
  declaration "v1" (castOf "fib" (.form .arguments [.leaf .whole depth]))

def program (before after : List Tree) (depth : String) : Tree :=
  .form .start (before ++ call depth :: after)

section
variable {body : List Tree} (hbody : body ∈ bodies)
include hbody

/-- The call writes the Fibonacci number of its depth, and does no more. -/
theorem meaning_call {d k : Nat} {w : String} (hw : ∀ shown, Value.readInt w shown = .ok (d : ℤ))
    (hdepth : 6 * d + 13 ≤ k) {m : Machine} (hfib : m.book.find? "fib" = some (incantation body))
    (hnew : m.scope.find? "v1" = none) :
    (call w).meaning k m =
      (.done .nothing, m.mapScope (·.write "v1" (.fresh (some (.int (Nat.fib d))) false))) := by
  obtain ⟨j, rfl⟩ : ∃ j, k = j + 3 := ⟨k - 3, by omega⟩
  exact meaning_declaration (by decide)
    (meaning_castFib hbody hfib (meaning_numeral hw) (by omega)) hnew

end

section
variable {before after body : List Tree}
  (hfib : declared "fib" (.form .parameters [.named "n"]) body ∈ before ++ after)
  (hdeeds : ∀ t ∈ before ++ after, t.role .lax = .deed)
  (hnames : ∀ t ∈ before ++ after, "v1" ∉ t.names)
include hfib hdeeds hnames

/-- What comes before the call is the same at every depth: `fib` is in the book then, and the rune
is new. -/
theorem exists_before_call {w : String} {k : Nat} {input : String} {draws : List Float}
    {m₀ : Machine} (h : (program before after w).meaning (k + 1) (.fresh input draws) =
      (.done .nothing, m₀)) :
    ∃ m : Machine, m.book.find? "fib" = some (incantation body) ∧ m.scope.find? "v1" = none ∧
      m.scope ≠ [] ∧ Book.Without "v1" m.book ∧
      ∀ w, (program before after w).meaning (k + 1) (.fresh input draws) =
        ((call w).meaning k >>= fun _ => runWhere false (Tree.meaning k) after) m := by
  obtain ⟨hbefore, -⟩ := List.forall_mem_append.mp hdeeds
  have hwithout : ∀ t ∈ before ++ after, t.role (.without "v1") = .deed := fun t ht =>
    (Tree.role_without (hnames t ht)).trans (hdeeds t ht)
  have hsplit (w : String) : (program before after w).meaning (k + 1) =
      runWhere true (Tree.meaning k) (before ++ after) >>= fun _ =>
        runWhere false (Tree.meaning k) before >>= fun _ =>
          (call w).meaning k >>= fun _ => runWhere false (Tree.meaning k) after :=
    programMeaning_insert hbefore rfl rfl (Tree.meaning k)
  rw [hsplit] at h
  obtain ⟨_, m₁, hloads, h⟩ := Spell.exists_of_bind_done h
  obtain ⟨_, m₂, hruns, -⟩ := Spell.exists_of_bind_done h
  obtain ⟨hscope₁, hbook₁, hnew₁⟩ :=
    runWhere_leaves hwithout (m := .fresh input draws) nofun nofun hloads
  obtain ⟨hscope₂, hbook₂, hnew₂⟩ := runWhere_leaves
    (fun t ht => hwithout t (List.mem_append_left _ ht)) hscope₁ hbook₁ hruns
  have hdeclared := find?_of_runWhere hdeeds hfib (x := "fib") (i := incantation body)
    ⟨_, _, rfl, .inr rfl⟩ hloads
  have hgrows : Book.Grows m₁.book (runWhere false (Tree.meaning k) before m₁).2.book :=
    runWhere_keeps_bookLaw false k before m₁
  rw [hruns] at hgrows
  refine ⟨m₂, hgrows _ _ hdeclared, hnew₂.trans hnew₁, hscope₂, hbook₂, fun w => ?_⟩
  rw [hsplit, Spell.bind_of_done hloads, Spell.bind_of_done hruns]

end

/-- The spell of nested casts is read. -/
theorem read_functionsSpell (d : ℤ) : Tree.read (Workload.functionsSpell (toString d)) =
    .ok (functionsProgram (toString d)) := by
  have htext : (Workload.functionsSpell "9").toList.flatMap (putIn (toString d).toList) =
      (Workload.functionsSpell (toString d)).toList := by
    unfold Workload.functionsSpell
    repeat rewrite [String.toList_append]
    repeat rewrite [List.flatMap_append]
    rewrite [flatMap_putIn_place]
    repeat rewrite [flatMap_putIn (by decide +kernel)]
    rfl
  have hbreaks : '\r' ∉ (Workload.functionsSpell "9").toList := by
    unfold Workload.functionsSpell
    repeat rewrite [String.toList_append, List.mem_append, not_or]
    decide +kernel
  rw [Tree.read_renumbered GivenText.functions.isReadWith (isWholeNumeral_toString d) hbreaks htext]
  simp [GivenText.tree, functionsProgram, functionsParts, fibBody, fibChoice, fibLess, declared,
    proclaimed, castOf, Tree.named, Tree.retextAll]

end Fibonacci

end Spellbook
