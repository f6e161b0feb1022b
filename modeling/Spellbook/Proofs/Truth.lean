import Spellbook.Proofs.Compound
import Spellbook.Proofs.Rounding

/-!
# What counts as true

A condition asks a value for its truth, and so do `&&`, `||` and `!`. A text is true unless it is
empty, and a number is true unless its length is zero. But no length is: that of a positive whole
number is one more than its logarithm, a float has a digit before the point at least, and other
whole numbers have no length at all (`Value.runeTruth_eq`). So numbers are not taken for what they
are transmuted to, which is what differs from zero (`condition_truth`).
-/

namespace Spellbook

/-! ### Lengths of whole numbers -/

/-- A bound on a scaled fraction without dividing. -/
theorem mul_scaleByTwo_le {num den : Nat} (hden : 0 < den) {e : ℤ} {a : Nat}
    (h : (a : ℚ) ≤ num / den * 2 ^ e) :
    a * (scaleByTwo num den e).2 ≤ (scaleByTwo num den e).1 := by
  have hpos : (0 : ℚ) < (scaleByTwo num den e).2 := by exact_mod_cast scaleByTwo_pos hden e
  rw [← scaleByTwo_eq, le_div_iff₀ hpos] at h
  exact_mod_cast h

namespace Fraction

/-- A fraction that is not below one is not below one either when it has been rounded. -/
theorem one_le_whole_significant {x : Fraction} (hx : x.den ≤ x.num) : 1 ≤ x.significant.whole := by
  have hden : (0 : ℚ) < x.den := by exact_mod_cast x.den_pos
  have hone : (1 : ℚ) ≤ x.num / x.den := (one_le_div hden).mpr (by exact_mod_cast hx)
  have horder := (binaryOrder_spec (Nat.lt_of_lt_of_le x.den_pos hx) x.den_pos).1
  have hwhole {s : Nat × Nat} (hs : 0 < s.2) (h : 1 * s.2 ≤ s.1) : 1 ≤ s.1 / s.2 :=
    (Nat.le_div_iff_mul_le hs).mpr h
  generalize hq : binaryOrder x.num x.den - 52 = q
  generalize hs : scaleByTwo x.num x.den (-q) = s
  have hpos : 0 < s.2 := by
    rw [← hs]
    exact scaleByTwo_pos x.den_pos _
  have hscaled (a : Nat) (ha : (a : ℚ) ≤ x.num / x.den * 2 ^ (-q)) : a ≤ divRound s.1 s.2 := by
    have hle := mul_scaleByTwo_le x.den_pos ha
    rw [hs] at hle
    exact le_divRound hpos hle
  have hsignificant : x.significant.whole =
      (scaleByTwo (divRound s.1 s.2) 1 q).1 / (scaleByTwo (divRound s.1 s.2) 1 q).2 := by
    rw [← hs, ← hq]
    rfl
  rw [hsignificant]
  refine hwhole (scaleByTwo_pos Nat.one_pos q) (mul_scaleByTwo_le Nat.one_pos ?_)
  rw [Nat.cast_one, div_one]
  rcases le_total q 0 with hneg | hnonneg
  · -- the places behind the point are kept
    obtain ⟨j, rfl⟩ : ∃ j : Nat, q = -j := ⟨q.natAbs, by omega⟩
    have hpower := hscaled (2 ^ j) (by
      rw [neg_neg, zpow_natCast, Nat.cast_pow, Nat.cast_ofNat]
      exact le_mul_of_one_le_left (by positivity) hone)
    have hpower' : (2 : ℚ) ^ j ≤ (divRound s.1 s.2 : Nat) := by exact_mod_cast hpower
    rw [zpow_neg, zpow_natCast, ← div_eq_mul_inv, one_le_div (by positivity)]
    exact hpower'
  · -- the number has more than 53 binary digits before the point
    have hfirst : 1 ≤ divRound s.1 s.2 := by
      refine hscaled 1 ?_
      rw [show binaryOrder x.num x.den = q + 52 by omega] at horder
      calc ((1 : Nat) : ℚ) ≤ 2 ^ (52 : ℤ) := by norm_num
        _ = 2 ^ (q + 52) * 2 ^ (-q) := by
          rw [← zpow_add₀ two_ne_zero]
          congr 1
          ring
        _ ≤ x.num / x.den * 2 ^ (-q) := by gcongr
    have hfirst' : (1 : ℚ) ≤ (divRound s.1 s.2 : Nat) := by exact_mod_cast hfirst
    exact one_le_mul_of_one_le_of_one_le hfirst' (one_le_zpow₀ one_le_two hnonneg)

theorem den_le_num_succ (x : Fraction) : x.succ.den ≤ x.succ.num := Nat.le_add_left _ _

end Fraction

/-! ### Lengths of floats -/

theorem mem_dropWhile_of_not {α : Type} {p : α → Bool} {c : α} {l : List α} (hmem : c ∈ l)
    (hc : p c = false) :
    c ∈ l.dropWhile p := by
  rw [← List.takeWhile_append_dropWhile (p := p) (l := l), List.mem_append] at hmem
  obtain htaken | hleft := hmem
  · rw [List.all_eq_true.mp List.all_takeWhile c htaken] at hc
    cases hc
  · exact hleft

theorem mem_dropWhile_append {α : Type} {p : α → Bool} {b c : α} (l : List α) {r : List α}
    (hb : p b = false) (hmem : c ∈ r) : c ∈ (l ++ b :: r).dropWhile p := by
  have hkept : (b :: r).dropWhile p = b :: r :=
    List.dropWhile_cons_of_neg (by rw [hb]; exact Bool.false_ne_true)
  rw [List.dropWhile_append, hkept]
  split
  · exact List.mem_cons_of_mem b hmem
  · exact List.mem_append_right _ (List.mem_cons_of_mem b hmem)

/-- The characters that are counted for the length of a float. -/
def countedChars (cs : List Char) : List Char :=
  ((cs.reverse.dropWhile (· == '0')).dropWhile (· == '.')).filter fun c => c != '-' && c != '.'

/-- A digit before the point is counted, even if it is zero. -/
theorem mem_countedChars {front back : List Char} {c : Char} (hmem : c ∈ front)
    (hc : c.isDigit = true) :
    c ∈ countedChars (front ++ '.' :: back) := by
  have hpoint : (c == '.') = false := by
    rw [beq_eq_false_iff_ne]
    rintro rfl
    cases hc
  have hdash : (c == '-') = false := by
    rw [beq_eq_false_iff_ne]
    rintro rfl
    cases hc
  -- the text is cut from its end: first its zeros, then its point
  have hreverse : (front ++ '.' :: back).reverse = back.reverse ++ '.' :: front.reverse := by simp
  rw [countedChars, List.mem_filter, bne, bne, hpoint, hdash, hreverse]
  exact ⟨mem_dropWhile_of_not (mem_dropWhile_append _ rfl (List.mem_reverse.mpr hmem)) hpoint, rfl⟩

/-- A number that is padded has digits only. -/
theorem isDigit_of_mem_padLeft {n width : Nat} {c : Char}
    (hc : c ∈ (Decimal.padLeft width (Decimal.natText n)).toList) : c.isDigit = true := by
  rw [Decimal.padLeft, String.toList_append, List.mem_append, Decimal.zeros, Decimal.natText,
    String.toList_ofList, String.toList_ofList] at hc
  obtain hzero | hdigit := hc
  · rw [List.eq_of_mem_replicate hzero]
    rfl
  · exact Nat.isDigit_of_mem_toDigits (by decide) (by decide) hdigit

/-- A text with decimals has a digit before the point. -/
theorem fixedText_eq (num den places : Nat) : ∃ c front back, c.isDigit = true ∧
    (fixedText num den (places + 1)).toList = c :: front ++ '.' :: back := by
  generalize hds : Decimal.padLeft (places + 1 + 1)
    (Decimal.natText (divRound (num * Nat.pow 10 (places + 1)) den)) = ds
  have hlength : places + 1 < ds.length := by
    rw [← hds, Decimal.padLeft, String.length_append, Decimal.zeros, String.length_ofList,
      List.length_replicate]
    omega
  generalize hfront : ds.toList.take (ds.length - (places + 1)) = front
  have htext : (fixedText num den (places + 1)).toList =
      front ++ '.' :: ds.toList.drop (ds.length - (places + 1)) := by
    simp only [fixedText, hds, hfront, if_neg (Nat.succ_ne_zero places), String.toList_append,
      String.toList_ofList]
    rfl
  cases front with
  | nil =>
    have hempty := congrArg List.length hfront
    rw [List.length_take, String.length_toList, List.length_nil] at hempty
    omega
  | cons c front =>
    have hmem : c ∈ ds.toList := List.mem_of_mem_take (hfront ▸ List.mem_cons_self)
    exact ⟨c, front, _, isDigit_of_mem_padLeft (hds ▸ hmem), htext⟩

/-- No float is written as the empty text. -/
theorem Value.floatLength_pos (x : Float) : 0 < Value.floatLength x := by
  show ((0 : Nat) : ℤ) < (countedChars (floatFixedText x 6).toList).length
  rw [Int.ofNat_lt, List.length_pos_iff_exists_mem]
  unfold floatFixedText
  cases FloatView.of x with
  | nan => exact ⟨'n', by decide⟩
  | infinite negative =>
    cases negative with
    | true => exact ⟨'n', by decide⟩
    | false => exact ⟨'n', by decide⟩
  | finite d =>
    obtain ⟨c, front, back, hc, htext⟩ := fixedText_eq d.fraction.1 d.fraction.2 5
    refine ⟨c, ?_⟩
    show c ∈ countedChars (signText d.negative ++ fixedText d.fraction.1 d.fraction.2 6).toList
    rw [String.toList_append, htext, ← List.append_assoc]
    exact mem_countedChars (List.mem_append_right _ List.mem_cons_self) hc

/-! ### The truth of a value -/

/-- The truth of a value where it is asked for: whole numbers have none unless they are positive,
and all floats are true. -/
def Value.asked : Value → Fallible Bool
  | .int n => if n ≤ 0 then .error .outsideDomain else .ok true
  | .float _ => .ok true
  | .text s => .ok (s != "")
  | .truth b => .ok b

/-- No truth depends on which floats stand for logarithms. -/
theorem Value.runeTruth_eq (v : Value) (log : Nat → Fraction := logTen) :
    v.runeTruth log = v.asked := by
  cases v with
  | int n =>
    have hlength := Fraction.one_le_whole_significant (log n.toNat).den_le_num_succ
    show (intLength n log).map (· != 0) = if n ≤ 0 then .error .outsideDomain else .ok true
    rw [intLength]
    split
    · rfl
    · show Except.ok (((log n.toNat).succ.significant.whole : ℤ) != 0) = .ok true
      congr 1
      rw [bne_iff_ne]
      omega
  | float x =>
    show Except.ok (floatLength x != 0) = .ok true
    congr 1
    rw [bne_iff_ne]
    exact (floatLength_pos x).ne'
  | text s =>
    show Except.ok ((s.length : ℤ) != 0) = .ok (s != "")
    congr 1
    rw [Bool.eq_iff_iff, bne_iff_ne, bne_iff_ne, ne_eq, Int.natCast_eq_zero,
      String.length_eq_zero_iff]
  | truth b => rfl

/-- Only whole numbers that are not positive and float zeros are taken for something else than what
they are transmuted to. -/
theorem Value.asked_eq_bareTruth_iff (v : Value) : v.asked = .ok v.bareTruth ↔
    (∀ n, v = .int n → 0 < n) ∧ ∀ x, v = .float x → (x != 0.0) = true := by
  cases v with
  | int n =>
    rw [asked, bareTruth]
    by_cases hn : n ≤ 0
    · rw [if_pos hn]
      simpa using hn
    · have hpos : 0 < n := Int.not_le.mp hn
      rw [if_neg hn, bne_iff_ne.mpr hpos.ne']
      simpa using hpos
  | float x =>
    rw [asked, bareTruth, Except.ok.injEq, eq_comm]
    simp
  | text s | truth b => simp [asked, bareTruth]

/-! ### Where truths are asked for -/

/-- The tree of `transmute c -> kind`. -/
def transmutation (c : Tree) (kind : String) : Tree :=
  .form .transmute [.leaf .transmute "transmute", c, .leaf .arrow "->", .leaf .dataType kind]

/-- The tree of `measure c`. -/
def measurement (c : Tree) : Tree := .form .measure [.leaf .measure "measure", c]

/-- The tree of `!c`. -/
def denial (c : Tree) : Tree := .form .denial [.leaf .bang "!", c]

/-- The tree of `l && r`. -/
def conjunction (l r : Tree) : Tree := .form .both [l, .leaf .both "&&", r]

/-- The tree of `l || r`. -/
def disjunction (l r : Tree) : Tree := .form .either [l, .leaf .either "||", r]

/-- The tree of `cycle (lest c) block`. -/
def lestCycle (c block : Tree) : Tree :=
  .form .lestCycle [.leaf .cycle "cycle", .leaf .lest "lest", c, block]

/-- The words that stand before a condition and its block. -/
def conditionWords : List Tree := [.leaf .foretell "foretell", .leaf .shift "shift"]

/-- How an expression ends whose value is the truth. -/
def answer : Fallible Bool → Ending Datum
  | .ok b => .done (.rune (.truth b))
  | .error f => .failed f

/-- Branches of a choice whose conditions all turn out false with the fuel `n`. -/
inductive Passes (n : Nat) : List Tree → Machine → Machine → Prop
  | none {m : Machine} : Passes n [] m m
  | branch {word c block : Tree} {rest : List Tree} {v : Value} {m m₁ m₂ : Machine}
      (hword : word ∈ conditionWords)
      (hc : c.meaning n m = (.done (.rune v), m₁)) (hv : v.asked = .ok false)
        (hrest : Passes n rest m₁ m₂) :
      Passes n (word :: c :: block :: rest) m m₂

section
variable {c r word block : Tree} {v w : Value} {n : Nat} {m₀ m m₁ m₂ : Machine}
  {before rest : List Tree}

/-- A branch asks its condition, and leaves the choice to the branches behind it if that is
false. -/
theorem branches_word (hword : word ∈ conditionWords) :
    branches (Tree.meaning (n + 1)) (word :: c :: block :: rest) m =
    (c.meaning (n + 1) >>= fun d => liftM d.truth >>= fun isTrue =>
      if isTrue then block.meaning (n + 1) >>= fun _ => pure .nothing
      else branches (Tree.meaning (n + 1)) rest) m := by
  simp only [conditionWords, List.mem_cons, List.not_mem_nil, or_false] at hword
  obtain rfl | rfl := hword <;> rfl

/-- A value is transmuted to its bare truth. -/
theorem Value.transmute_truth (v : Value) :
    Datum.transmute v "bool" = .ok (.truth v.bareTruth) := by
  cases v <;> rfl

variable (hc : c.meaning (n + 1) m = (.done (.rune v), m₁))
include hc

/-- A transmutation gives what the value is transmuted to. -/
theorem meaning_transmutation_of_ok {kind : String} (hw : Datum.transmute v kind = .ok w) :
    (transmutation c kind).meaning (n + 2) m = (.done (.rune w), m₁) := by
  have hvalue : runValue (Tree.meaning (n + 1)) [.leaf .transmute "transmute", c, .leaf .arrow "->",
      .leaf .dataType kind] 1 m = (.done v, m₁) := Spell.bind_of_done hc
  have hword : runPart (Tree.meaning (n + 1)) [.leaf .transmute "transmute", c, .leaf .arrow "->",
      .leaf .dataType kind] 3 m₁ = (.done (.word kind), m₁) := rfl
  have htarget : (liftM (Datum.word kind).text : Spell String) m₁ = (.done kind, m₁) := rfl
  show transmuteMeaning (Tree.meaning (n + 1)) _ m = _
  rw [transmuteMeaning, Spell.bind_of_done hvalue, Spell.bind_of_done hword,
    Spell.bind_of_done htarget, hw]
  rfl

theorem meaning_transmutation : (transmutation c "bool").meaning (n + 2) m =
    (.done (.rune (.truth v.bareTruth)), m₁) :=
  meaning_transmutation_of_ok hc v.transmute_truth

/-- A value is measured by its length, and fails if it has none. -/
theorem meaning_measurement : (measurement c).meaning (n + 2) m =
    (liftM (v.runeLength.map fun k => Datum.rune (.int k)) : Spell Datum) m₁ := by
  have hpart : runPart (Tree.meaning (n + 1)) [.leaf .measure "measure", c] 1 m =
      (.done (.rune v), m₁) := hc
  refine (Spell.bind_of_done hpart).trans ?_
  exact Spell.liftM_bind_pure _ _ m₁

/-- A denial answers the opposite of what its value is asked for. -/
theorem meaning_denial : (denial c).meaning (n + 2) m = (answer (v.asked.map (!·)), m₁) := by
  have hvalue : runValue (Tree.meaning (n + 1)) [.leaf .bang "!", c] 1 m = (.done v, m₁) :=
    Spell.bind_of_done hc
  refine (Spell.bind_of_done hvalue).trans ?_
  rw [v.runeTruth_eq]
  cases v.asked <;> rfl

/-- A branch of a choice. -/
theorem branches_condition (hword : word ∈ conditionWords) :
    branches (Tree.meaning (n + 1)) (word :: c :: block :: rest) m =
      match v.asked with
      | .error f => (.failed f, m₁)
      | .ok true => (block.meaning (n + 1) >>= fun _ => pure .nothing) m₁
      | .ok false => branches (Tree.meaning (n + 1)) rest m₁ := by
  rw [branches_word hword, Spell.bind_of_done hc, Datum.truth, v.runeTruth_eq]
  cases v.asked with
  | error f => rfl
  | ok b => cases b <;> rfl

/-- A cycle with a condition ends once the condition is true. -/
theorem lestTurns_condition (body : Spell Datum) (fuel : Nat) :
    lestTurns (c.meaning (n + 1)) body (fuel + 1) m =
    match v.asked with
    | .error f => (.failed f, m₁)
    | .ok true => (.done (), m₁)
    | .ok false => (goesOn body >>= fun goes =>
        if goes then lestTurns (c.meaning (n + 1)) body fuel else pure ()) m₁ := by
  refine (Spell.bind_of_done hc).trans ?_
  rw [Datum.truth, v.runeTruth_eq]
  cases hv : v.asked with
  | error f => rfl
  | ok b => cases b <;> rfl

variable (hr : r.meaning (n + 1) m₁ = (.done (.rune w), m₂))
include hr

/-- A conjunction asks its left side first and its right side only if the left is true. -/
theorem meaning_conjunction : (conjunction c r).meaning (n + 2) m =
    (answer (v.asked.bind fun a => if a then w.asked else .ok false), m₂) := by
  have hright : runPart (Tree.meaning (n + 1)) [c, .leaf .both "&&", r] 2 m₁ =
      (.done (.rune w), m₂) := hr
  refine (Spell.bind_of_done hc).trans ((Spell.bind_of_done hright).trans ?_)
  show (liftM v.runeTruth >>= fun isTrue => if isTrue then liftM w.runeTruth >>= fun b =>
    pure (.rune (.truth b))
    else pure (.rune (.truth false)) : Spell Datum) m₂ = _
  rw [v.runeTruth_eq, w.runeTruth_eq]
  cases v.asked with
  | error f => rfl
  | ok a =>
    cases a with
    | true => cases w.asked <;> rfl
    | false => rfl

/-- A disjunction asks its left side first and its right side only if the left is false. -/
theorem meaning_disjunction : (disjunction c r).meaning (n + 2) m =
    (answer (v.asked.bind fun a => if a then .ok true else w.asked), m₂) := by
  have hright : runPart (Tree.meaning (n + 1)) [c, .leaf .either "||", r] 2 m₁ =
      (.done (.rune w), m₂) := hr
  refine (Spell.bind_of_done hc).trans ((Spell.bind_of_done hright).trans ?_)
  show (liftM v.runeTruth >>= fun isTrue => if isTrue then pure (.rune (.truth true))
    else liftM w.runeTruth >>= fun b => pure (.rune (.truth b)) : Spell Datum) m₂ = _
  rw [v.runeTruth_eq, w.runeTruth_eq]
  cases v.asked with
  | error f => rfl
  | ok a =>
    cases a with
    | true => rfl
    | false => cases w.asked <;> rfl

end

/-- Branches that are passed are passed with more fuel. -/
theorem Passes.of_le {n k : Nat} (hk : n ≤ k) {before : List Tree} {m₀ m : Machine}
    (h : Passes n before m₀ m) :
    Passes k before m₀ m := by
  induction h with
  | none => exact .none
  | branch hword hc hv _ ih => exact .branch hword (Tree.meaning_of_le hk nofun hc) hv ih

/-- Branches that are passed leave the choice to those behind them. -/
theorem Passes.branches_append {n : Nat} {before : List Tree} {m₀ m : Machine}
    (h : Passes (n + 1) before m₀ m) (rest : List Tree) :
    branches (Tree.meaning (n + 1)) (before ++ rest) m₀ =
      branches (Tree.meaning (n + 1)) rest m := by
  induction h with
  | none => rfl
  | branch hword hc hv hrest ih =>
    rw [List.cons_append, List.cons_append, List.cons_append, branches_condition hc hword, hv]
    exact ih

section
variable {c r : Tree} {v w : Value} {n k : Nat} {m m₁ m₂ : Machine}

/-- **What a condition takes for true.** A transmutation gives what differs from zero and from the
empty text. But whoever asks for the truth of a value is given `Value.asked`: a branch of `foretell`
or `shift` is taken or passed by it, after others were passed, a cycle with `lest` ends or does a
turn by it, and `!`, `&&` and `||` reckon with it. The two are the same except for whole numbers
that are not positive and float zeros. -/
theorem condition_truth (hc : c.meaning n m = (.done (.rune v), m₁))
    (hr : r.meaning n m₁ = (.done (.rune w), m₂)) (hk : n ≤ k) :
    (v.asked = .ok v.bareTruth ↔ (∀ i, v = .int i → 0 < i) ∧ ∀ x, v = .float x →
      (x != 0.0) = true) ∧
    (transmutation c "bool").meaning (k + 1) m = (.done (.rune (.truth v.bareTruth)), m₁) ∧
    (denial c).meaning (k + 1) m = (answer (v.asked.map (!·)), m₁) ∧
    (conjunction c r).meaning (k + 1) m =
      (answer (v.asked.bind fun a => if a then w.asked else .ok false), m₂) ∧
    (disjunction c r).meaning (k + 1) m =
      (answer (v.asked.bind fun a => if a then .ok true else w.asked), m₂) ∧
    (∀ m₀ before word block rest, Passes n before m₀ m → word ∈ conditionWords →
      (Tree.form .foretell (before ++ word :: c :: block :: rest)).meaning (k + 1) m₀ =
        match v.asked with
        | .error f => (.failed f, m₁)
        | .ok true => (block.meaning k >>= fun _ => pure .nothing) m₁
        | .ok false => (Tree.form .foretell rest).meaning (k + 1) m₁) ∧
    ∀ block, (lestCycle c block).meaning (k + 1) m =
      match v.asked with
      | .error f => (.failed f, m₁)
      | .ok true => (.done .nothing, m₁)
      | .ok false => (goesOn (block.meaning k) >>= fun goes => (if goes then
          lestTurns (c.meaning k) (block.meaning k) (k - 1) else pure ()) >>= fun _ =>
            pure .nothing) m₁ := by
  have hn : n ≠ 0 := by
    rintro rfl
    cases hc
  obtain ⟨j, rfl⟩ : ∃ j, k = j + 1 := ⟨k - 1, by omega⟩
  have hc : c.meaning (j + 1) m = (.done (.rune v), m₁) := Tree.meaning_of_le hk nofun hc
  have hr : r.meaning (j + 1) m₁ = (.done (.rune w), m₂) := Tree.meaning_of_le hk nofun hr
  refine ⟨v.asked_eq_bareTruth_iff, meaning_transmutation hc, meaning_denial hc,
    meaning_conjunction hc hr, meaning_disjunction hc hr, ?_, ?_⟩
  · intro m₀ before word block rest hbefore hword
    show branches (Tree.meaning (j + 1)) (before ++ word :: c :: block :: rest) m₀ = _
    rw [(hbefore.of_le hk).branches_append, branches_condition hc hword]
    rfl
  · intro block
    show (lestTurns (c.meaning (j + 1)) (block.meaning (j + 1)) (j + 1) >>= fun _ =>
      pure .nothing : Spell Datum) m = _
    rw [Spell.bind_apply, Spell.bind, lestTurns_condition hc]
    cases v.asked with
    | error f => rfl
    | ok b =>
      cases b with
      | true => rfl
      | false => exact Spell.bind_assoc _ _ _ m₁

end

/-- The machine with two runes, which hold a whole zero and a float zero. -/
def zerosHeld : Machine :=
  { scope :=
    [{ own := [("n", .fresh (some (.int 0)) false), ("x", .fresh (some (.float 0.0)) false)] }] }

/-- A choice shifts from a false word to a float zero, which it takes for true. -/
theorem condition_truth_shifted :
    (Tree.form .foretell [.leaf .foretell "foretell", .leaf .truth "Falsehood", .form .block [],
      .leaf .shift "shift", runeValue "x", revelation (.leaf .truth "Truthsung"), .absent,
        .absent]).meaning 4
        zerosHeld = (.done .nothing, { zerosHeld with output := "Truthsung" }) := by
  have hx : (runeValue "x").meaning 2 zerosHeld = (.done (.rune (.float 0.0)), zerosHeld) := rfl
  have hpassed : Passes 2 [.leaf .foretell "foretell", .leaf .truth "Falsehood",
      .form .block []] zerosHeld
      zerosHeld := .branch (v := .truth false) List.mem_cons_self rfl rfl .none
  obtain ⟨-, -, -, -, -, hbranch, -⟩ := condition_truth hx hx (by decide : 2 ≤ 3)
  have hshift :=
    hbranch zerosHeld _ (.leaf .shift "shift") (revelation (.leaf .truth "Truthsung"))
      [.absent, .absent]
    hpassed (List.mem_cons_of_mem _ List.mem_cons_self)
  rw [Value.asked] at hshift
  exact hshift

/-- Both zeros are transmuted to falsehood. But a whole zero has no truth, and a float zero is
true. -/
theorem zeros_are_not_false :
    (transmutation (runeValue "n") "bool").meaning 3 zerosHeld =
      (.done (.rune (.truth false)), zerosHeld) ∧
      (transmutation (runeValue "x") "bool").meaning 3 zerosHeld =
        (.done (.rune (.truth false)), zerosHeld) ∧
      (denial (runeValue "n")).meaning 3 zerosHeld = (.failed .outsideDomain, zerosHeld) ∧
      (denial (runeValue "x")).meaning 3 zerosHeld = (.done (.rune (.truth false)), zerosHeld) := by
  have hx : (runeValue "x").meaning 2 zerosHeld = (.done (.rune (.float 0.0)), zerosHeld) := rfl
  have hdenial := meaning_denial hx
  rw [Value.asked] at hdenial
  exact ⟨rfl, rfl, rfl, hdenial⟩

end Spellbook
