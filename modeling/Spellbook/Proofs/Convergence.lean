import Spellbook.Proofs.MeasurementLog

/-!
# When the rounds converge

The rounds end when no benchmark is marked any more, or when the least count of marked benchmarks
has not been beaten for three rounds. The loop over the counts carries the best count and the rounds
since it was first reached; `Plateau.IsOf` says this of a sequence by cutting it at that round, one
count more keeps it (`IsOf.step`), and so it holds of every sequence (`isOf_of`). What is printed at
the end of a round then follows from the two numbers (`convergence_announced`).
-/

namespace Spellbook

/-! ## The order of floats -/

open Float.Model

/-- Two floats compare the other way round if they are swapped. -/
theorem swap_compare (u v : UnpackedFloat) : v.compare u = (u.compare v).map Ordering.swap := by
  have hfinite (m m' : Nat) (e e' : ℤ) :
      (compare e' e).then (compare m' m) = ((compare e e').then (compare m m')).swap := by
    rw [Ordering.swap_then, Int.compare_swap, Nat.compare_swap]
  cases u with
  | notANumber => cases v <;> rfl
  | infinity s =>
    cases v with
    | notANumber => cases s <;> rfl
    | infinity s' => cases s <;> cases s' <;> rfl
    | zero s' => cases s <;> rfl
    | finite s' => cases s <;> cases s' <;> rfl
  | zero s =>
    cases v with
    | notANumber => rfl
    | infinity s' => cases s' <;> rfl
    | zero s' => rfl
    | finite s' => cases s' <;> rfl
  | finite s m e =>
    cases v with
    | notANumber => cases s <;> rfl
    | infinity s' => cases s <;> cases s' <;> rfl
    | zero s' => cases s <;> rfl
    | finite s' m' e' =>
      cases s with
      | positive =>
        cases s' with
        | positive => exact congrArg some (hfinite m m' e e')
        | negative => rfl
      | negative =>
        cases s' with
        | positive => rfl
        | negative => exact congrArg (fun o => some (Ordering.swap o)) (hfinite m m' e e')

theorem float_not_lt_of_le {x y : Float} (h : x ≤ y) : ¬ y < x := by
  have hle : (x.toModel.unpack.compare y.toModel.unpack).any Ordering.isLE = true :=
    of_decide_eq_true h
  intro h
  have hlt : (y.toModel.unpack.compare x.toModel.unpack == some .lt) = true := of_decide_eq_true h
  rw [beq_iff_eq, swap_compare, Option.map_eq_some_iff] at hlt
  obtain ⟨o, ho, hswap⟩ := hlt
  rw [ho] at hle
  cases o <;> cases hswap
  cases hle

namespace Bench

/-! ## The counts of a sequence -/

namespace Plateau

/-- What a plateau says of a sequence of counts: the best count is the first of the least ones, and
the rounds since then are those behind it. -/
def IsOf (p : Plateau) (counts : List Tally) : Prop :=
  ∃ before after, counts = before ++ p.best :: after ∧ (∀ t ∈ before, p.best.value < t.value) ∧
    (∀ t ∈ after, p.best.value ≤ t.value) ∧ p.since = after.length

variable {p : Plateau} {counts : List Tally}

/-- One more round: a smaller count puts all earlier rounds before it, any other count is one more
behind the best. -/
theorem IsOf.step (h : p.IsOf counts) (t : Tally) : (p.step t).IsOf (counts ++ [t]) := by
  obtain ⟨before, after, rfl, hbefore, hafter, hsince⟩ := h
  rw [Plateau.step]
  by_cases hlt : t.value < p.best.value
  · rw [if_pos hlt]
    refine ⟨before ++ p.best :: after, [], rfl, ?_, by simp, rfl⟩
    intro u hu
    rcases List.mem_append.mp hu with hu | hu
    · exact hlt.trans (hbefore u hu)
    · rcases List.mem_cons.mp hu with rfl | hu
      · exact hlt
      · exact hlt.trans_le (hafter u hu)
  · rw [if_neg hlt]
    refine ⟨before, after ++ [t], by simp, hbefore, ?_, by simp [hsince]⟩
    intro u hu
    rcases List.mem_append.mp hu with hu | hu
    · exact hafter u hu
    · obtain rfl := List.mem_singleton.mp hu
      exact not_lt.mp hlt

theorem isOf_of (first : Tally) (rest : List Tally) :
    (Plateau.of first rest).IsOf (first :: rest) := by
  induction rest using List.reverseRecOn with
  | nil => exact ⟨[], [], by simp [Plateau.of]⟩
  | append_singleton rest t ih =>
    rw [Plateau.of, List.foldl_concat]
    exact ih.step t

theorem IsOf.min? (h : p.IsOf counts) : (counts.map Tally.value).min? = some p.best.value := by
  obtain ⟨before, after, rfl, hbefore, hafter, -⟩ := h
  rw [List.min?_eq_some_iff]
  refine ⟨by simp, ?_⟩
  intro n hn
  obtain ⟨t, ht, rfl⟩ := List.mem_map.mp hn
  rcases List.mem_append.mp ht with ht | ht
  · exact (hbefore t ht).le
  · rcases List.mem_cons.mp ht with rfl | ht
    · exact le_rfl
    · exact hafter t ht

theorem IsOf.getElem? (h : p.IsOf counts) :
    ∃ k, (counts.map Tally.value).idxOf p.best.value = k ∧ counts[k]? = some p.best ∧
      counts.length = k + 1 + p.since := by
  obtain ⟨before, after, rfl, hbefore, -, hsince⟩ := h
  refine ⟨before.length, ?_, by simp, by simp [hsince]; omega⟩
  have hnew : p.best.value ∉ before.map Tally.value := by
    intro hmem
    obtain ⟨t, ht, hvalue⟩ := List.mem_map.mp hmem
    exact (hbefore t ht).ne' hvalue
  rw [List.map_append, List.idxOf_append_of_notMem hnew, List.map_cons, List.idxOf_cons_self]
  simp

end Plateau

theorem stop?_eq {history rest : List Tally} {current : Nat} {first : Tally}
    (h : history ++ [.count current] = first :: rest) :
    stop? history current =
      if current = 0 then some .noneBelow
      else if Plateau.patience ≤
        (Plateau.of first rest).since then some (.plateau (Plateau.of first rest))
      else none := by
  cases history with
  | nil =>
    obtain ⟨rfl, rfl⟩ := List.cons.inj h
    rfl
  | cons t ts =>
    obtain ⟨rfl, rfl⟩ := List.cons.inj h
    rfl

theorem Stop.text_ne_empty (s : Stop) : s.text ≠ "" := by
  obtain ⟨reason, htext⟩ : ∃ reason, s.text =
      "\n>>> STOP: repo_time converged (" ++ reason ++ "). Finalize microbench.py now. <<<\n" :=
        ⟨_, rfl⟩
  rw [htext, Ne, String.append_eq_empty_iff, String.append_eq_empty_iff]
  intro h
  exact absurd h.1.1 (by decide)

theorem Stop.text_plateau (p : Plateau) : Stop.text (.plateau p) =
    "\n>>> STOP: repo_time converged (no improvement in " ++ Decimal.natText p.since ++
      " rounds; best " ++
      p.best.text ++ " below). Finalize microbench.py now. <<<\n" := by
  have hjoin (a b c d e f g : String) : a ++ (b ++ c ++ d ++ e ++ f) ++ g =
      a ++ b ++ c ++ d ++ e ++ (f ++ g) := by
    simp only [String.append_assoc]
  exact hjoin _ "no improvement in " _ " rounds; best " _ " below" _

/-! ## The announcement -/

theorem isEmpty_ranShares {shares : List (String × Float)} (h : ∃ s ∈ shares, (0.0 : Float) ≤ s.2) :
    (ranShares shares).isEmpty = false := by
  obtain ⟨s, hs, hzero⟩ := h
  have hran : s.2 ∈ ranShares shares := by
    rw [ranShares, List.mem_filter]
    exact ⟨List.mem_map_of_mem hs, by simp [float_not_lt_of_le hzero]⟩
  rw [Bool.eq_false_iff, Ne, List.isEmpty_iff]
  exact List.ne_nil_of_mem hran

/-- With enough coverage and a benchmark that ran, the announcement is that of the stop. -/
theorem stopLine_eq {percent : Float} {shares : List (String × Float)}
    (hpercent : enoughCoverage ≤ percent) (hran : ∃ s ∈ shares, (0.0 : Float) ≤ s.2)
    (history : List Tally) :
    stopLine percent shares history =
      ((stop? history (belowCount shares)).map Stop.text).getD "" := by
  rw [stopLine, decide_eq_false (float_not_lt_of_le hpercent), isEmpty_ranShares hran]
  rfl

theorem printAll_append {xs ys : List (Except Mishap String)} {s : String}
    (h : printAll xs = (s, none)) :
    printAll (xs ++ ys) = (s ++ (printAll ys).1, (printAll ys).2) := by
  induction xs generalizing s with
  | nil =>
    obtain ⟨rfl, -⟩ := Prod.mk.inj h
    simp
  | cons x xs ih =>
    cases x with
    | error m => simp [printAll] at h
    | ok t =>
      simp only [printAll, Prod.mk.injEq] at h
      obtain ⟨rfl, hm⟩ := h
      rw [List.cons_append, printAll, ih (Prod.ext rfl hm), String.append_assoc]

/-- A round that gets through its report prints the announcement behind it. -/
theorem out_measureRound {i : RoundInput} {c : CoverageFigures} {seconds : JsonValue}
    {report : String} (h : i.Covered c) (hclock : i.ended.minus i.began = .ok seconds)
    (hreport : printAll (i.pieces c seconds) = (report, none)) :
    (measureRound i).out =
      report ++ stopLine c.percent i.times.shares (i.step c seconds).history := by
  rw [measureRound_of_covered h]
  simp only [roundWithCoverage, hclock, printAll_append hreport, printAll, String.append_empty]

/-- For a history and the present count, with enough coverage and a benchmark that ran: the loop
ends with the least of all counts and with the number of rounds behind the first that had it. The
announcement is made exactly if the present count is zero or these rounds are at least three, and in
the second case it shows the two numbers. It is printed at the end of the report of a round that
finds such a history, coverage and benchmarks. -/
theorem convergence_announced (history : List Tally) {percent : Float}
    {shares : List (String × Float)} (hpercent : enoughCoverage ≤ percent)
    (hran : ∃ s ∈ shares, (0.0 : Float) ≤ s.2) {first : Tally} {rest : List Tally}
    (hcounts : history ++ [.count (belowCount shares)] = first :: rest) :
    let counts := (first :: rest).map Tally.value
    let p := Plateau.of first rest
    (counts.min? = some p.best.value ∧ p.since = counts.length - (counts.idxOf p.best.value + 1) ∧
      (first :: rest)[counts.idxOf p.best.value]? = some p.best) ∧
    (stopLine percent shares history ≠ "" ↔ belowCount shares = 0 ∨ 3 ≤ p.since) ∧
    (belowCount shares ≠ 0 → 3 ≤ p.since → stopLine percent shares history =
      "\n>>> STOP: repo_time converged (no improvement in " ++ Decimal.natText p.since ++
        " rounds; best " ++
        p.best.text ++ " below). Finalize microbench.py now. <<<\n") ∧
    ∀ (i : RoundInput) (c : CoverageFigures) (seconds : JsonValue) (report : String), i.Covered c →
      i.ended.minus i.began = .ok seconds → printAll (i.pieces c seconds) = (report, none) →
      c.percent = percent → i.times.shares = shares → (i.step c seconds).history = history →
      (measureRound i).out = report ++ stopLine percent shares history := by
  intro counts p
  have hisOf : p.IsOf (first :: rest) := Plateau.isOf_of first rest
  obtain ⟨k, hk, hbest, hlength⟩ := hisOf.getElem?
  have hline : stopLine percent shares history = ((if belowCount shares = 0 then some Stop.noneBelow
      else if Plateau.patience ≤
        p.since then some (.plateau p) else none).map Stop.text).getD "" := by
    rw [stopLine_eq hpercent hran, stop?_eq hcounts]
  refine ⟨⟨hisOf.min?, ?_, ?_⟩, ?_, ?_, ?_⟩
  · rw [hk, List.length_map, hlength]
    omega
  · rw [hk]
    exact hbest
  · rw [hline]
    by_cases hzero : belowCount shares = 0
    · simp [hzero, Stop.text_ne_empty]
    · rw [if_neg hzero]
      by_cases hlong : Plateau.patience ≤ p.since
      · rw [if_pos hlong, Option.map_some, Option.getD_some]
        exact ⟨fun _ => .inr hlong, fun _ => Stop.text_ne_empty _⟩
      · rw [if_neg hlong, Option.map_none, Option.getD_none]
        exact ⟨fun h => absurd rfl h, fun h => absurd (h.resolve_left hzero) hlong⟩
  · intro hzero hlong
    rw [hline, if_neg hzero, if_pos (show Plateau.patience ≤ p.since from hlong)]
    rw [Option.map_some, Option.getD_some, Stop.text_plateau]
  · intro i c seconds report hcovered hclock hreport hc hshares hhistory
    subst hc hshares hhistory
    exact out_measureRound hcovered hclock hreport

/-- Three rounds after the best count, and a benchmark still marked. -/
theorem convergence_after_three_rounds :
    stopLine 80.0 [("bench_a", 20.0), ("bench_b", 30.5), ("bench_c", -1.0), ("bench_d", 70.0)]
        [.count 4, .count 1, .count 3, .count 1] =
    "\n>>> STOP: repo_time converged (no improvement in 3 rounds; best 1 below). Finalize microbench.py now. <<<\n" := by
  have hcount : belowCount [("bench_a", 20.0), ("bench_b", 30.5), ("bench_c", -1.0),
      ("bench_d", 70.0)] = 2 := by decide
  obtain ⟨-, -, hline, -⟩ := convergence_announced [.count 4, .count 1, .count 3, .count 1]
    (show enoughCoverage ≤ 80.0 by decide) ⟨("bench_a", 20.0), by simp, by decide⟩
    (congrArg (fun n : Nat => [.count 4, .count 1, .count 3, .count 1] ++ [Tally.count n]) hcount)
  exact hline (by rw [hcount]; decide) (by decide)

end Bench
end Spellbook
