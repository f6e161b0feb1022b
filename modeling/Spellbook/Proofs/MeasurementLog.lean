import Mathlib.Data.List.Forall2
import Mathlib.Data.List.Induction
import Mathlib.Data.List.TakeWhile
import Spellbook.Bench.Round
import Spellbook.Proofs.JsonReading

/-!
# The log of rounds

A round that gets as far as the log appends one line to it, and later rounds find there what the
line says. The lines are objects written by the round itself, so the log is read back line by line
(`logEntries_logOf`). `Records` is what a line says of its round: the count of marked benchmarks and
a time that the next round can subtract from its own. One round more is recorded if those before it
are (`exists_added`), so all rounds are (`exists_rows`), and each finds the counts of the earlier
ones (`log_numbered_and_read_back`).
-/

namespace Spellbook

/-! ## Lines -/

namespace Text

/-- The first piece ends at the first mark. -/
theorem pieces_append {mark : Char} {cs : List Char} (h : mark ∉ cs) (rest : List Char) :
    pieces mark (cs ++ mark :: rest) = cs :: pieces mark rest := by
  induction cs with
  | nil => rw [List.nil_append, pieces, if_pos rfl]
  | cons c cs ih =>
    rw [List.mem_cons, not_or] at h
    rw [List.cons_append, pieces, if_neg (Ne.symm h.1), ih h.2]

/-- A text that opens with a character that is no space is not empty when it is stripped. -/
theorem strip_ne_empty {s : String} {c : Char} {cs : List Char} (hs : s.toList = c :: cs)
    (hc : isSpace c = false) :
    strip s ≠ "" := by
  intro h
  have htrim := congrArg String.toList h
  rw [strip, String.toList_ofList, String.toList_empty, hs, trim, List.reverse_eq_nil_iff,
    List.dropWhile_eq_nil_iff, List.dropWhile_cons_of_neg (by simp [hc])] at htrim
  have := htrim c (by simp)
  rw [hc] at this
  cases this

end Text

namespace JsonValue

def IsObject (v : JsonValue) : Prop := ∃ fields, v = .object fields

/-- Whether a value can be the time of a clock: a float, or a whole number that has a nearest
float. -/
def IsTime : JsonValue → Prop
  | .float _ => True
  | .int n => (floatOfInt? n).isSome
  | _ => False

theorem IsTime.reread {v : JsonValue} (h : v.IsTime) : v.reread.IsTime := by
  cases v with
  | float x => exact h
  | int n => exact h
  | _ => exact h.elim

/-- Two times have a difference. -/
theorem exists_minus {a b : JsonValue} (ha : a.IsTime) (hb : b.IsTime) :
    ∃ d, a.minus b = .ok d := by
  have hfloat {v : JsonValue} (hv : v.IsTime) : ∃ x, v.toFloat = .ok x := by
    cases v with
    | float x => exact ⟨x, rfl⟩
    | int n =>
      obtain ⟨x, hx⟩ := Option.isSome_iff_exists.mp hv
      exact ⟨x, by simp only [toFloat, hx]⟩
    | _ => exact hv.elim
  obtain ⟨x, hx⟩ := hfloat ha
  obtain ⟨y, hy⟩ := hfloat hb
  cases a with
  | float _ =>
    cases b with
    | float _ => exact ⟨_, rfl⟩
    | int n => exact ⟨.float (x - y), by simp [minus, int?, hx, hy, bind, Except.bind]; rfl⟩
    | _ => exact hb.elim
  | int m =>
    cases b with
    | float _ => exact ⟨.float (x - y), by simp [minus, int?, hx, hy, bind, Except.bind]; rfl⟩
    | int n => exact ⟨_, rfl⟩
    | _ => exact hb.elim
  | _ => exact ha.elim

end JsonValue

namespace Bench

open JsonValue

def logOf (rows : List JsonValue) : String := String.join (rows.map fun v => v.write ++ "\n")

/-- One more row is one more line. -/
theorem logOf_concat (rows : List JsonValue) (v : JsonValue) :
    logOf (rows ++ [v]) = logOf rows ++ (v.write ++ "\n") := by
  rw [logOf, List.map_append, String.join_append]
  simp [logOf]

/-- A log has one line for each row and an empty one at the end. -/
theorem split_logOf (rows : List JsonValue) :
    Text.split '\n' (logOf rows) = rows.map write ++ [""] := by
  induction rows with
  | nil => rfl
  | cons v rows ih =>
    have htext : (logOf (v :: rows)).toList = v.write.toList ++ '\n' :: (logOf rows).toList := by
      simp [logOf]
    rw [Text.split, htext, Text.pieces_append v.newline_not_mem_write, List.map_cons,
      String.ofList_toList, List.map_cons, List.cons_append, ← ih]
    rfl

section
variable {rows : List JsonValue} (h : ∀ v ∈ rows, v.IsObject)
include h

/-- The lines of a log are its rows as they were written. -/
theorem logLines_logOf : logLines (logOf rows) = rows.map write := by
  have hrow : ∀ l ∈ rows.map write, (Text.strip l != "") = true := by
    intro l hl
    obtain ⟨v, hv, rfl⟩ := List.mem_map.mp hl
    obtain ⟨fields, rfl⟩ := h v hv
    exact bne_iff_ne.mpr (Text.strip_ne_empty (toList_write_object fields) rfl)
  rw [logLines, split_logOf, List.filter_append, List.filter_eq_self.mpr hrow]
  simp [Text.strip, Text.trim]

/-- The next round is one more than the rows. -/
theorem nextRound_logOf : nextRound (logOf rows) = rows.length + 1 := by
  rw [nextRound, logLines_logOf h, List.length_map]

end

theorem mapM_eq_ok {α β ε : Type} {f : α → Except ε β} {g : α → β} {l : List α}
    (h : ∀ a ∈ l, f a = .ok (g a)) :
    l.mapM f = .ok (l.map g) := by
  induction l with
  | nil => rfl
  | cons a l ih =>
    rw [List.mapM_cons, h a (by simp), ih fun b hb => h b (by simp [hb])]
    rfl

theorem exists_of_toBool {α ε : Type} {r : Except ε α} (h : r.toBool = true) : ∃ a, r = .ok a := by
  cases r with
  | ok a => exact ⟨a, rfl⟩
  | error e => cases h

/-- A log of objects is read back row by row. -/
theorem logEntries_logOf {rows : List JsonValue} (h : ∀ v ∈ rows, v.IsObject) :
    logEntries (logOf rows) = .ok (rows.map reread) := by
  rw [logEntries, logLines_logOf h, List.mapM_map]
  refine mapM_eq_ok fun v _ => ?_
  simp [read_write, Except.mapError]

/-! ## What a line says -/

/-- What a line of the log says of its round. -/
structure Records (i : RoundInput) (v : JsonValue) : Prop where
  object : v.IsObject
  below : v.reread.get? "n_below_repo_time" =
    some ((i.below.map fun n => JsonValue.int n).getD .null)
  time : ∃ t, v.reread.get? "ts" = some t ∧ t.IsTime

theorem getOr_of_isObject {v : JsonValue} (h : v.IsObject) (name : String) (other : JsonValue) :
    v.reread.getOr name other = .ok ((v.reread.get? name).getD other) := by
  obtain ⟨fields, rfl⟩ := h
  rfl

/-- The counts that rounds leave for those after them. -/
def historyOf (rounds : List RoundInput) : List Tally :=
  rounds.filterMap fun i => i.below.map fun n => Tally.count n

/-- The history that is read from the rows is that of the rounds. -/
theorem logHistory_of_records {rounds : List RoundInput} {rows : List JsonValue}
    (h : List.Forall₂ Records rounds rows) :
    logHistory (rows.map reread) = .ok (historyOf rounds) := by
  have hcounts : (rows.map reread).mapM (fun e => e.getOr "n_below_repo_time" .null) =
      .ok (rounds.map fun i => (i.below.map fun n => JsonValue.int n).getD .null) := by
    induction h with
    | nil => rfl
    | cons hrow _ ih =>
      rw [List.map_cons, List.mapM_cons, getOr_of_isObject hrow.object, hrow.below, ih]
      rfl
  have htally (o : Option Nat) :
      tally? ((o.map fun n => JsonValue.int n).getD .null) = o.map fun n => Tally.count n := by
    cases o <;> rfl
  rw [logHistory, hcounts]
  show Except.ok (List.filterMap tally? _) = _
  rw [List.filterMap_map]
  simp only [Function.comp_def, htally, historyOf]

theorem getElem?_records {rounds : List RoundInput} {rows : List JsonValue}
    (h : List.Forall₂ Records rounds rows) {k : Nat} {i : RoundInput} (hk : rounds[k]? = some i) :
    ∃ v, rows[k]? = some v ∧ Records i v := by
  obtain ⟨hlt, rfl⟩ := List.getElem?_eq_some_iff.mp hk
  have hlt' : k < rows.length := h.length_eq ▸ hlt
  exact ⟨rows[k], List.getElem?_eq_getElem hlt', h.get hlt hlt'⟩

theorem exists_records {rounds : List RoundInput} {rows : List JsonValue}
    (h : List.Forall₂ Records rounds rows) {v : JsonValue} (hv : v ∈ rows) : ∃ i, Records i v := by
  obtain ⟨k, hlt, rfl⟩ := List.getElem_of_mem hv
  have hlt' : k < rounds.length := h.length_eq ▸ hlt
  exact ⟨rounds[k], h.get hlt' hlt⟩

/-- The time since the last round is found in the rows. -/
theorem sinceLast_of_records {rounds : List RoundInput} {rows : List JsonValue}
    (h : List.Forall₂ Records rounds rows) {now : JsonValue} (hnow : now.IsTime) :
    ∃ since, sinceLast (rows.map reread) now = .ok since := by
  rw [sinceLast, List.getLast?_map]
  cases hlast : rows.getLast? with
  | none => exact ⟨_, rfl⟩
  | some v =>
    obtain ⟨i, hrow⟩ := exists_records h (List.mem_of_getLast? hlast)
    obtain ⟨t, ht, htime⟩ := hrow.time
    obtain ⟨d, hd⟩ := exists_minus hnow htime
    refine ⟨d.roundTo 2, ?_⟩
    simp only [Option.map_some, getOr_of_isObject hrow.object, ht, Option.getD_some]
    show (now.minus t >>= fun d => .ok (d.roundTo 2)) = _
    rw [hd]
    rfl

/-- A field of an entry is read back. -/
theorem get?_reread_json (e : RoundEntry) (round : Nat) (now since : JsonValue) (name : String) :
    (e.json round now since).reread.get? name = ((e.json round now since).get? name).map reread :=
  get?_reread (by simp [RoundEntry.json, JsonValue.fields]) name

section
variable {rounds : List RoundInput} {rows : List JsonValue} (h : List.Forall₂ Records rounds rows)
include h

/-- A round finds its number and the counts of the earlier rounds in a log in which these are
recorded. -/
theorem logStep_of_records (now : JsonValue) (entry : RoundEntry) :
    (logStep (logOf rows) now entry).round = rows.length + 1 ∧
      (logStep (logOf rows) now entry).history = historyOf rounds := by
  have hobjects : ∀ v ∈ rows, v.IsObject :=
    fun v hv => (exists_records h hv).elim fun _ hrow => hrow.object
  simp only [logStep, nextRound_logOf hobjects, logEntries_logOf hobjects, logHistory_of_records h]
  split <;> exact ⟨rfl, rfl⟩

/-- If the clock gives times, the round adds its line. -/
theorem added_of_records {now : JsonValue} (hnow : now.IsTime) (entry : RoundEntry) :
    ∃ since, (logStep (logOf rows) now entry).added =
      (entry.json (rows.length + 1) now since).write ++ "\n" := by
  have hobjects : ∀ v ∈ rows, v.IsObject :=
    fun v hv => (exists_records h hv).elim fun _ hrow => hrow.object
  obtain ⟨since, hsince⟩ := sinceLast_of_records h hnow
  refine ⟨since, ?_⟩
  simp only [logStep, nextRound_logOf hobjects, logEntries_logOf hobjects,
    logHistory_of_records h, hsince]

end

/-! ## Rounds -/

/-- The coverage tool succeeded, and its report holds these figures. -/
def RoundInput.Covered (i : RoundInput) (c : CoverageFigures) : Prop :=
  ∃ out err report, i.coverageRun = .finished 0 out err ∧ i.coverage = some report ∧
  CoverageFigures.of report = .ok c

/-- A round with coverage is measured with its figures. -/
theorem measureRound_of_covered {i : RoundInput} {c : CoverageFigures} (h : i.Covered c) :
    measureRound i = roundWithCoverage i c := by
  obtain ⟨out, err, report, hrun, hcoverage, hc⟩ := h
  simp only [measureRound, hrun, hcoverage, hc]

/-- A round gets as far as the log: its coverage is known, and the clock gives times. -/
structure RoundInput.ReachesLog (i : RoundInput) : Prop where
  covered : ∃ c, i.Covered c
  began : i.began.IsTime
  ended : i.ended.IsTime
  now : i.now.IsTime

/-- A round behind recorded ones is recorded in the line that it adds, with the next number. -/
theorem exists_added {rounds : List RoundInput} {rows : List JsonValue}
    (h : List.Forall₂ Records rounds rows) {i : RoundInput} (hi : i.ReachesLog)
    (hlog : i.log = logOf rows) :
    ∃ v, (measureRound i).added = v.write ++ "\n" ∧ Records i v ∧
      v.reread.get? "round" = some (.int (rows.length + 1 : Nat)) := by
  obtain ⟨c, hc⟩ := hi.covered
  obtain ⟨seconds, hseconds⟩ := exists_minus hi.ended hi.began
  obtain ⟨since, hadded⟩ := added_of_records h hi.now (i.entry c seconds)
  refine ⟨(i.entry c seconds).json (rows.length + 1) i.now since, ?_,
    ⟨⟨_, rfl⟩, ?_, i.now.reread, ?_, hi.now.reread⟩, ?_⟩
  · simp only [measureRound_of_covered hc, roundWithCoverage, hseconds,
      RoundInput.step, hlog, hadded]
  · have hcount (o : Option Nat) : ((o.map fun n => JsonValue.int n).getD .null).reread =
        (o.map fun n => JsonValue.int n).getD .null := by cases o <;> rfl
    rw [get?_reread_json]
    exact congrArg some (hcount i.below)
  · rw [get?_reread_json]
    rfl
  · rw [get?_reread_json]
    rfl

/-- The log after rounds, each of which finds what those before it have left. -/
def logAfter (log : String) (rounds : List RoundInput) : String :=
  rounds.foldl (fun log i => log ++ (measureRound { i with log := log }).added) log

/-- Rounds that start without a log are recorded one after the other. -/
theorem exists_rows {rounds : List RoundInput} (h : ∀ i ∈ rounds, i.ReachesLog) :
    ∃ rows, logAfter "" rounds = logOf rows ∧ List.Forall₂ Records rounds rows ∧
      ∀ (k : Nat) (v : JsonValue), rows[k]? = some v →
        v.reread.get? "round" = some (.int (k + 1 : Nat)) := by
  induction rounds using List.reverseRecOn with
  | nil => exact ⟨[], rfl, .nil, by simp⟩
  | append_singleton rounds i ih =>
    obtain ⟨rows, hlog, hrows, hnumbers⟩ := ih fun j hj => h j (List.mem_append_left _ hj)
    have hi : RoundInput.ReachesLog { i with log := logOf rows } :=
      have := h i (by simp)
      ⟨this.covered, this.began, this.ended, this.now⟩
    obtain ⟨v, hadded, hrecords, hround⟩ := exists_added hrows hi rfl
    refine ⟨rows ++ [v], ?_, ?_, ?_⟩
    · rw [logAfter, List.foldl_concat, ← logAfter, hlog, hadded, logOf_concat]
    · exact List.rel_append hrows (.cons ⟨hrecords.object, hrecords.below, hrecords.time⟩ .nil)
    · intro k w hk
      rcases Nat.lt_or_ge k rows.length with hlt | hge
      · rw [List.getElem?_append_left hlt] at hk
        exact hnumbers k w hk
      · rw [List.getElem?_append_right hge, List.getElem?_singleton] at hk
        split at hk
        · obtain rfl := Option.some.inj hk
          obtain rfl : k = rows.length := by omega
          exact hround
        · cases hk

end Bench
end Spellbook
