import Mathlib.Data.List.Nodup
import Spellbook.Trial

/-!
# What the report of trials counts

Every program of a directory is tried once, in the order of the paths. The report has a line for
each, but its summary only counts the programs whose expected text can be read, so the total falls
short of the number of programs if one of these texts is missing (`trial_report_counts`). A program
that fails passes if the expected text occurs in the report of its failure, and a blank text occurs
in every report.
-/

namespace Spellbook

theorem nodup_eraseDups {α : Type} [BEq α] [LawfulBEq α] (l : List α) : l.eraseDups.Nodup := by
  match l with
  | [] => exact List.nodup_nil
  | a :: l =>
    rw [List.eraseDups_cons, List.nodup_cons, List.mem_eraseDups]
    exact ⟨by simp, nodup_eraseDups (l.filter fun b => !b == a)⟩
termination_by l.length
decreasing_by exact Nat.lt_succ_of_le (List.length_filter_le _ _)

/-- A directory has no name twice. -/
theorem FileStore.nodup_namesIn (s : FileStore) (path : String) : (s.namesIn path).Nodup := by
  rw [FileStore.namesIn]
  split
  · exact (List.mergeSort_perm _ _).nodup_iff.mpr (nodup_eraseDups _)
  · exact List.nodup_nil

/-! ## Names -/

theorem not_mem_of_mem_splitOnPPrepend {c : Char} {l cs acc : List Char} (hacc : c ∉ acc)
    (h : l ∈ cs.splitOnPPrepend (· == c) acc) : c ∉ l := by
  induction cs generalizing acc with
  | nil =>
    rw [List.splitOnPPrepend_nil, List.mem_singleton] at h
    rwa [h, List.mem_reverse]
  | cons a cs ih =>
    rw [List.splitOnPPrepend_cons_eq_if] at h
    split at h
    · rcases List.mem_cons.mp h with rfl | h
      · rwa [List.mem_reverse]
      · exact ih List.not_mem_nil (List.splitOnPPrepend_nil_right ▸ h)
    · next hne =>
        exact ih
          (List.not_mem_cons_of_ne_of_not_mem (fun heq => hne (beq_iff_eq.mpr heq.symm)) hacc) h

/-- No piece of a split list has the character at which it was split. -/
theorem not_mem_of_mem_splitOn {c : Char} {l cs : List Char} (h : l ∈ cs.splitOn c) : c ∉ l := by
  rw [List.splitOn, ← List.splitOnPPrepend_nil_right] at h
  exact not_mem_of_mem_splitOnPPrepend List.not_mem_nil h

namespace Path

/-- A name is not empty and has no slash. -/
def IsName (s : String) : Prop := s ≠ "" ∧ '/' ∉ s.toList

/-- A nonempty part of a path is a name. -/
theorem isName_of_mem_parts {path c : String} (h : c ∈ parts path) (hc : c ≠ "") : IsName c := by
  obtain ⟨l, hl, rfl⟩ := List.mem_map.mp h
  rw [IsName, String.toList_ofList]
  exact ⟨hc, not_mem_of_mem_splitOn hl⟩

theorem isName_of_mem_patternParts {path c : String} (h : c ∈ patternParts path) : IsName c := by
  obtain ⟨hmem, hne⟩ := List.mem_filter.mp h
  exact isName_of_mem_parts ((List.dropWhile_sublist _).mem hmem) (bne_iff_ne.mp hne)

/-- What a directory has are names. -/
theorem isName_of_mem_namesIn {s : FileStore} {path n : String} (h : n ∈ s.namesIn path) :
    IsName n := by
  rw [FileStore.namesIn] at h
  split at h
  · rw [List.mem_mergeSort, List.mem_eraseDups] at h
    obtain ⟨⟨p, bytes⟩, _, hn⟩ := List.mem_filterMap.mp h
    dsimp only at hn
    split at hn
    · obtain ⟨hmem, hne⟩ := List.mem_filter.mp (List.mem_of_getElem? hn)
      exact isName_of_mem_parts hmem (by simp_all)
    · cases hn
  · cases h

/-! ## Paths that fit a pattern -/

/-- A path to which a name is joined by a slash. -/
def IsOpen (path : String) : Prop := path ≠ "" ∧ ¬ ['/'] <:+ path.toList

section
variable {d d' n n' : String}

/-- Different names are joined to a path differently. -/
theorem join_injective (d : String) : Function.Injective (join d) := by
  intro a b h
  rw [join, join] at h
  split at h
  · exact (String.append_right_inj d).mp h
  · exact (String.append_right_inj (d ++ "/")).mp h

theorem isOpen_append (hn : IsName n) : IsOpen (d ++ n) := by
  have hne : n.toList ≠ [] := by simpa using hn.1
  refine ⟨by simp [hn.1], fun hslash => hn.2 ?_⟩
  rw [String.toList_append] at hslash
  have hsuffix :=
    List.suffix_of_suffix_length_le hslash (List.suffix_append _ _) (List.length_pos_iff.mpr hne)
  exact hsuffix.subset (List.mem_singleton_self _)

/-- A path that ends in a name is open for another. -/
theorem isOpen_join (hn : IsName n) : IsOpen (join d n) := by
  rw [join]
  split <;> exact isOpen_append hn

/-- An open path is joined to a name by a slash. -/
theorem join_of_isOpen (hd : IsOpen d) : join d n = d ++ "/" ++ n := by
  refine if_neg ?_
  rw [Bool.or_eq_true, String.isEmpty_iff, String.endsWith_eq_endsWith_toSlice,
    String.Slice.endsWith_string_iff, String.copy_toSlice]
  exact not_or.mpr hd

/-- Behind the last slash is what has none. -/
theorem afterLast_append (cs : List Char) {ds : List Char} (h : '/' ∉ ds) :
    afterLast '/' (cs ++ '/' :: ds) = ds := by
  have hall : ∀ c ∈ ds.reverse, (c != '/') = true := fun c hc => bne_iff_ne.mpr fun heq => by
    rw [List.mem_reverse, heq] at hc
    exact h hc
  rw [afterLast, List.reverse_append, List.reverse_cons, List.append_assoc, List.singleton_append,
    List.takeWhile_append_of_pos hall, List.takeWhile_cons_of_neg (by decide), List.append_nil,
    List.reverse_reverse]

/-- A path tells the directory and the name that it was made from. -/
theorem join_inj (hd : IsOpen d) (hd' : IsOpen d') (hn : IsName n) (hn' : IsName n')
    (h : join d n = join d' n') :
    d = d' := by
  have hlist : d.toList ++ '/' :: n.toList = d'.toList ++ '/' :: n'.toList := by
    simpa [join_of_isOpen hd, join_of_isOpen hd'] using congrArg String.toList h
  have hname : n.toList = n'.toList := by
    rw [← afterLast_append d.toList hn.2, hlist, afterLast_append _ hn'.2]
  rw [hname] at hlist
  exact String.toList_inj.mp (List.append_cancel_right hlist)

end

section
variable {fits : String → String → Bool} {s : FileStore} {d c : String} {goesOn : Bool}

theorem isName_of_mem_namesFitting (hc : IsName c) {n : String}
    (h : n ∈ namesFitting fits s d c goesOn) :
    IsName n := by
  rw [namesFitting] at h
  split at h
  · exact isName_of_mem_namesIn (List.mem_filter.mp h).1
  · split at h
    · rwa [List.mem_singleton.mp h]
    · cases h

/-- No name fits twice. -/
theorem nodup_namesFitting : (namesFitting fits s d c goesOn).Nodup := by
  rw [namesFitting]
  split
  · exact (s.nodup_namesIn d).filter _
  · split
    · exact List.nodup_singleton c
    · exact List.nodup_nil

/-- The paths stay apart from each other, part by part: either there is only one, or a slash follows
each. -/
theorem nodup_extensions {cs ds : List String} (hcs : ∀ c ∈ cs, IsName c) (hds : ds.Nodup)
    (hopen : ds.length ≤ 1 ∨ ∀ d ∈ ds, IsOpen d) : (extensions fits s cs ds).Nodup := by
  induction cs generalizing ds with
  | nil => exact hds
  | cons c cs ih =>
    have hname (d n : String) (h : n ∈ namesFitting fits s d c !cs.isEmpty) : IsName n :=
      isName_of_mem_namesFitting (hcs c List.mem_cons_self) h
    refine ih (fun c hc => hcs c (List.mem_cons_of_mem _ hc))
      (List.nodup_flatMap.mpr ⟨fun d _ => ?_, ?_⟩) (.inr fun e he => ?_)
    · exact nodup_namesFitting.map (join_injective d)
    · rcases hopen with hone | hopen
      · match ds, hone with
        | [], _ => exact .nil
        | [d], _ => exact List.pairwise_singleton _ d
      · refine hds.imp_of_mem fun hd hd' hne e he he' => hne ?_
        obtain ⟨n, hn, rfl⟩ := List.mem_map.mp he
        obtain ⟨n', hn', heq⟩ := List.mem_map.mp he'
        exact join_inj (hopen _ hd) (hopen _ hd') (hname _ _ hn) (hname _ _ hn') heq.symm
    · obtain ⟨d, -, he⟩ := List.mem_flatMap.mp he
      obtain ⟨n, hn, rfl⟩ := List.mem_map.mp he
      exact isOpen_join (hname d n hn)

/-- A pattern is expanded to no path twice. -/
theorem nodup_expansions (pattern : String) : (expansions fits s pattern).Nodup :=
  (List.mergeSort_perm _ _).nodup_iff.mpr (nodup_extensions (fun _ => isName_of_mem_patternParts)
    (List.nodup_singleton _) (.inl (Nat.le_refl 1)))

end

end Path

namespace Trial

/-! ## One program -/

/-- A text occurs in another if it is an infix of it. -/
theorem occursIn_iff {part whole : List Char} : occursIn part whole = true ↔ part <:+: whole := by
  induction whole with
  | nil => rw [occursIn, List.isEmpty_iff, List.infix_nil]
  | cons c cs ih =>
    rw [occursIn, Bool.or_eq_true, ih, List.isPrefixOf_iff_prefix, List.infix_cons_iff]

/-- The expected text of a program, if it can be read. -/
def expectation (s : FileStore) (program : String) : Except ReadRefusal String :=
  (s.openPath (expectedPath program)).text

/-- Whether a program did what is expected of it: it revealed the expected text, or that occurs in
the report of its failure. -/
def Meets (expected trace : String) (hasFailed : Bool) (attempted : CommandEnding × Machine) :
    Prop :=
  if hasFailed then (Text.strip expected).toList <:+: trace.toList
  else Text.strip attempted.2.output = Text.strip expected

instance (expected trace : String) (hasFailed : Bool) (attempted : CommandEnding × Machine) :
    Decidable (Meets expected trace hasFailed attempted) :=
  inferInstanceAs (Decidable (if hasFailed then _ else _))

/-- Nothing is asked of a program that fails where nothing is expected. -/
theorem meets_of_blank {expected trace : String} {attempted : CommandEnding × Machine}
    (hblank : Text.strip expected = "") : Meets expected trace true attempted := by
  rw [Meets, if_pos rfl, hblank]
  exact List.nil_infix

section
variable {s : FileStore} (setting : Setting) {p : String} (hasFailed : Bool)
  (attempted : CommandEnding × Machine)

/-- A program without an expected output is told as such. -/
theorem judge_of_error {e : ReadRefusal} (h : expectation s p = .error e) :
    judge s setting p hasFailed attempted = .noExpectation (e.message (expectedPath p)) := by
  unfold expectation at h
  unfold judge
  dsimp only
  rw [h]

/-- A program with an expected output passes if the run meets it. -/
theorem judge_of_ok {expected : String} (h : expectation s p = .ok expected) :
    judge s setting p hasFailed attempted =
      if Meets expected (setting.trace p attempted) hasFailed attempted then .passed
        else .failed := by
  unfold expectation at h
  unfold judge
  dsimp only
  rw [h]
  cases hasFailed
  · simp only [Meets, Bool.false_eq_true, if_false, beq_iff_eq]
  · simp only [Meets, if_true, occursIn_iff]

/-- A program passes exactly if it has an expected output and the run meets it. -/
theorem judge_eq_passed_iff : judge s setting p hasFailed attempted = .passed ↔
    ∃ expected, expectation s p = .ok expected ∧
    Meets expected (setting.trace p attempted) hasFailed attempted := by
  cases h : expectation s p with
  | error e =>
    rw [judge_of_error setting hasFailed attempted h]
    exact ⟨nofun, nofun⟩
  | ok expected =>
    rw [judge_of_ok setting hasFailed attempted h, ite_eq_left_iff, imp_iff_not nofun, not_not]
    simp only [Except.ok.injEq, exists_eq_left']

/-- A program fails exactly if it has an expected output and the run does not meet it. -/
theorem judge_eq_failed_iff : judge s setting p hasFailed attempted = .failed ↔
    ∃ expected, expectation s p = .ok expected ∧
    ¬ Meets expected (setting.trace p attempted) hasFailed attempted := by
  cases h : expectation s p with
  | error e =>
    rw [judge_of_error setting hasFailed attempted h]
    exact ⟨nofun, nofun⟩
  | ok expected =>
    rw [judge_of_ok setting hasFailed attempted h, ite_eq_right_iff, imp_iff_not nofun]
    simp only [Except.ok.injEq, exists_eq_left']

/-- One program is counted if its expected text can be read, and only then. -/
theorem counted_judge :
    (if judge s setting p hasFailed attempted = .passed then 1 else 0) +
      (if judge s setting p hasFailed attempted = .failed then 1 else 0) =
        if (expectation s p).isOk then 1 else 0 := by
  cases h : expectation s p with
  | error e => rw [judge_of_error setting hasFailed attempted h]; rfl
  | ok expected =>
    rw [judge_of_ok setting hasFailed attempted h]
    split <;> rfl

end

/-! ## All programs -/

def passedIn (results : List (String × Result)) : Nat := results.countP fun x => x.2 = .passed

def failedIn (results : List (String × Result)) : Nat := results.countP fun x => x.2 = .failed

/-- The machine that the programs leave. -/
def machineAfter (s : FileStore) (ps : List String) (m : Machine) : Machine :=
  ps.foldl (fun m p => (attempt s p m).2) m

/-- Whether each of the programs comes to an end when it is tried. -/
def AllEnd (s : FileStore) (ps : List String) (m : Machine) : Prop :=
  ∀ before p after, ps = before ++ p :: after →
    hasFailed? (attempt s p (machineAfter s before m)).1 ≠ none

section
variable {s : FileStore} (setting : Setting)

theorem AllEnd.head {p : String} {ps : List String} {m : Machine} (h : AllEnd s (p :: ps) m) :
    ∃ b, hasFailed? (attempt s p m).1 = some b :=
  Option.ne_none_iff_exists'.mp (h [] p ps rfl)

theorem AllEnd.tail {p : String} {ps : List String} {m : Machine} (h : AllEnd s (p :: ps) m) :
    AllEnd s ps (attempt s p m).2 :=
  fun before q after hps => h (p :: before) q after (by rw [hps, List.cons_append])

/-- The first program is judged by its attempt, and the others go on from there. -/
theorem runAll_cons {p : String} {ps : List String} {m : Machine} {b : Bool}
    {results : List (String × Result)} (hp : hasFailed? (attempt s p m).1 = some b)
    (hps : runAll s setting ps (attempt s p m).2 = some results) :
    runAll s setting (p :: ps) m = some ((p, judge s setting p b (attempt s p m)) :: results) := by
  rw [runAll, hp, hps]
  rfl

/-- **The trials of programs that all come to an end**: each has its result at its place, and those
that are counted are those whose expected texts can be read. -/
theorem runAll_of_allEnd {ps : List String} {m : Machine} (h : AllEnd s ps m) :
    ∃ results, runAll s setting ps m = some results ∧ results.map Prod.fst = ps ∧
      passedIn results + failedIn results = ps.countP (fun p => (expectation s p).isOk) ∧
      ∀ before p after, ps = before ++ p :: after → ∃ b,
        hasFailed? (attempt s p (machineAfter s before m)).1 = some b ∧
        results[before.length]? =
          some (p, judge s setting p b (attempt s p (machineAfter s before m))) := by
  induction ps generalizing m with
  | nil => exact ⟨[], rfl, rfl, rfl, by simp⟩
  | cons p ps ih =>
    obtain ⟨b, hp⟩ := h.head
    obtain ⟨results, hps, hfst, hcount, hplace⟩ := ih h.tail
    refine ⟨_, runAll_cons setting hp hps, by rw [List.map_cons, hfst], ?_, ?_⟩
    · have hfirst := counted_judge (s := s) (p := p) setting b (attempt s p m)
      rw [passedIn, failedIn] at hcount ⊢
      rw [List.countP_cons, List.countP_cons, List.countP_cons]
      simp only [decide_eq_true_eq]
      omega
    · rintro (_ | ⟨q, before⟩) r after hps'
      · obtain ⟨rfl, rfl⟩ := List.cons_eq_cons.mp hps'
        exact ⟨b, hp, rfl⟩
      · rw [List.cons_append, List.cons_eq_cons] at hps'
        obtain ⟨rfl, hps'⟩ := hps'
        exact hplace before r after hps'

end

/-! ## The report -/

def linesText (results : List (String × Result)) : String :=
  let width := (results.map fun (p, _) => (reportName p).length).foldl max 0
  heading ++ "\n#--- Running Test Suite ---#\n" ++ plainColour ++ "\n" ++
    String.join (results.map fun (p, r) => padRight width (reportName p) ++ "\t" ++ r.text ++ "\n")

def summary (passed failed : Nat) : String :=
  heading ++ "\n\n#--- Summary ---#\n" ++ plainColour ++ "\n" ++
    "Total:\t" ++ Decimal.natText (passed + failed) ++ "\n" ++
    passedColour ++ "Passed:\t" ++ Decimal.natText passed ++ "\n" ++
    failedColour ++ "Failed:\t" ++ Decimal.natText failed ++ plainColour ++ "\n\n"

/-- A report is the lines of the results and the summary. -/
theorem reportText_eq (results : List (String × Result)) :
    reportText results = linesText results ++ summary (passedIn results) (failedIn results) := by
  unfold summary
  repeat rewrite [← String.append_assoc]
  rfl

/-- A trial of some programs gives the report of their results. -/
theorem run_eq {s : FileStore} {path : String} {setting : Setting}
    (h : programsIn s path setting ≠ []) (rest : List String) {m : Machine}
    {results : List (String × Result)}
    (hresults : runAll s setting (programsIn s path setting) m = some results) :
    run s (path :: rest) m setting = .ok (reportText results) := by
  rw [run]
  split
  · next hnone => exact absurd hnone h
  · rw [hresults]

/-- **What the report of trials counts.** If every program of the directory comes to an end, each is
tried once and has one line in the report, but the total only counts those whose expected texts can
be read, so it is the number of programs just if all can. A program whose expected text can be read
passes or fails as it meets this text or not. In particular, a program that fails where the expected
text is blank has passed, whatever is reported of the failure. -/
theorem trial_report_counts (setting : Setting) {s : FileStore} {path : String}
    (h : programsIn s path setting ≠ []) (rest : List String) {m : Machine}
    (hend : AllEnd s (programsIn s path setting) m) :
    let programs := programsIn s path setting
    ∃ results, runAll s setting programs m = some results ∧
    run s (path :: rest) m setting =
      .ok (linesText results ++ summary (passedIn results) (failedIn results)) ∧
    programs.Nodup ∧ results.map Prod.fst = programs ∧
    passedIn results + failedIn results = programs.countP (fun p => (expectation s p).isOk) ∧
    (passedIn results + failedIn results = programs.length ↔
      ∀ p ∈ programs, (expectation s p).isOk = true) ∧
    ∀ before p after, programs = before ++ p :: after →
      let attempted := attempt s p (machineAfter s before m)
      ∃ r b, results[before.length]? = some (p, r) ∧ hasFailed? attempted.1 = some b ∧
        (r = .passed ↔ ∃ expected, expectation s p = .ok expected ∧
          Meets expected (setting.trace p attempted) b attempted) ∧
        (r = .failed ↔ ∃ expected, expectation s p = .ok expected ∧
          ¬ Meets expected (setting.trace p attempted) b attempted) ∧
        ∀ expected, expectation s p = .ok expected → Text.strip expected = "" → b = true →
          r = .passed := by
  intro programs
  obtain ⟨results, hresults, hfst, hcount, hplace⟩ := runAll_of_allEnd setting hend
  refine ⟨results, hresults, ?_, Path.nodup_expansions _, hfst, hcount, ?_, ?_⟩
  · rw [run_eq h rest hresults, reportText_eq]
  · rw [hcount, List.countP_eq_length]
  · intro before p after hprograms attempted
    obtain ⟨b, hb, hr⟩ := hplace before p after hprograms
    refine ⟨_, b, hr, hb, judge_eq_passed_iff setting b _, judge_eq_failed_iff setting b _, ?_⟩
    rintro expected hexpected hblank rfl
    exact (judge_eq_passed_iff setting true _).mpr ⟨expected, hexpected, meets_of_blank hblank⟩

/-- A directory with two programs that are no texts: one of which nothing is expected, and one
without an expected text. -/
def twoTrials : FileStore := ⟨[("t/a.ssc", [255]), ("t/b.ssc", [255]), ("t/output/a.out", [])]⟩

theorem namesIn_twoTrials : twoTrials.namesIn "t" = ["a.ssc", "b.ssc", "output"] := by
  have hplace : twoTrials.place "t" = .ok (some ["t"]) := by decide +kernel
  have hnames : (twoTrials.files.filterMap fun x =>
      if FileStore.isBelow ["t"] (FileStore.components x.1) then
      (FileStore.components x.1)[1]? else none).eraseDups = ["a.ssc", "b.ssc", "output"] := by
        decide +kernel
  rw [FileStore.namesIn, hplace]
  exact (congrArg (List.mergeSort · _) hnames).trans (List.mergeSort_of_pairwise (by decide))

theorem programsIn_twoTrials : programsIn twoTrials "t" = ["t/a.ssc", "t/b.ssc"] := by
  have hdirectory : Path.plainDirectory ("t" ++ "/*" ++ programMark) = "t" := by decide +kernel
  have hparts : Path.patternParts ("t" ++ "/*" ++ programMark) = ["*.ssc"] := by decide +kernel
  have hpattern : Path.isPattern "*.ssc" = true := by decide +kernel
  have hfitting : (["a.ssc", "b.ssc", "output"].filter fun n =>
      ("*.ssc".startsWith "." || !n.startsWith ".") &&
      Path.fits "*.ssc" n && (!false || twoTrials.isDirectory (Path.join "t" n))) =
        ["a.ssc", "b.ssc"] := by
    decide +kernel
  have hnames : Path.namesFitting Path.fits twoTrials "t" "*.ssc" false = ["a.ssc", "b.ssc"] := by
    rw [Path.namesFitting, if_pos hpattern, namesIn_twoTrials, hfitting]
  have hextensions : Path.extensions Path.fits twoTrials ["*.ssc"] ["t"] =
      ["t/a.ssc", "t/b.ssc"] := by
    show (["t"].flatMap fun d =>
      (Path.namesFitting Path.fits twoTrials d "*.ssc" false).map (Path.join d)) = _
    rw [List.flatMap_cons, List.flatMap_nil, hnames]
    decide +kernel
  rw [programsIn, Path.expansions, hdirectory, hparts, hextensions]
  exact List.mergeSort_of_pairwise (by decide)

/-- What is no text is not even loaded. -/
theorem hasFailed_notText {p : String} (hp : p ∈ ["t/a.ssc", "t/b.ssc"]) (m : Machine) :
    hasFailed? (attempt twoTrials p m).1 = some true := by
  have hopen : ∀ p ∈ ["t/a.ssc", "t/b.ssc"], twoTrials.openPath p = .bytes [255] := by
    decide +kernel
  rw [attempt, runFile, hopen p hp]
  rfl

theorem allEnd_twoTrials : AllEnd twoTrials ["t/a.ssc", "t/b.ssc"] (Machine.fresh "" []) := by
  intro before p after hps hnone
  have hmem : p ∈ ["t/a.ssc", "t/b.ssc"] := by
    rw [hps]
    exact List.mem_append_right _ List.mem_cons_self
  exact nomatch (hasFailed_notText hmem _).symm.trans hnone

/-- The total of two programs is one, and that is one that failed. -/
theorem trial_report_counts_two : (programsIn twoTrials "t").length = 2 ∧
    (∃ lines, run twoTrials ["t"] (Machine.fresh "" []) = .ok (lines ++ summary 1 0)) ∧
    hasFailed? (attempt twoTrials "t/a.ssc" (Machine.fresh "" [])).1 = some true := by
  have hexpected : expectation twoTrials "t/a.ssc" = .ok "" := by
    have hopen : twoTrials.openPath (expectedPath "t/a.ssc") = .bytes [] := by decide +kernel
    rw [expectation, hopen]
    rfl
  have hreadable : ["t/a.ssc", "t/b.ssc"].countP (fun p => (expectation twoTrials p).isOk) = 1 := by
    decide +kernel
  have hsome : programsIn twoTrials "t" ≠ [] := by
    rw [programsIn_twoTrials]
    exact List.cons_ne_nil _ _
  obtain ⟨results, -, hrun, -, -, hcount, -, hplace⟩ := trial_report_counts {} hsome []
    (programsIn_twoTrials ▸ allEnd_twoTrials)
  rw [programsIn_twoTrials] at hcount hplace ⊢
  obtain ⟨r, b, hr, hb, -, -, hblank⟩ := hplace [] "t/a.ssc" ["t/b.ssc"] rfl
  obtain rfl : true = b :=
    Option.some_inj.mp ((hasFailed_notText List.mem_cons_self _).symm.trans hb)
  rw [hblank "" hexpected (by decide +kernel) rfl] at hr
  have hpassed : 0 < passedIn results :=
    List.countP_pos_iff.mpr ⟨_, List.mem_of_getElem? hr, by decide⟩
  obtain ⟨hone, hnone⟩ : passedIn results = 1 ∧ failedIn results = 0 := by omega
  rw [hone, hnone] at hrun
  exact ⟨rfl, ⟨_, hrun⟩, hb⟩

end Trial

end Spellbook
