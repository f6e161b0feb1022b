import Spellbook.Proofs.Interpolation
import Spellbook.Proofs.Respelling

/-!
# Two ways to write a text

A text without quotes and braces can stand between quotes with or without a dollar sign in front of
them. Without, it is one token. With, a lexer cuts off the opening, the prose and the quote one by
one, and what would be layout in code is prose there: all characters up to the quote are one token
(`Lexicon.IsText.startsWith_prose`). So one text with prose in it, which is read, gives the readings
of all others (`read_proseCut`).

Both ways mean the text with its escapes read, or fail alike, so programs that reveal it do the same
(`literals_agree`).
-/

namespace Spellbook

/-! ## Cutting off the tokens -/

/-- In code only the opening of a text starts with a dollar sign. -/
theorem Terminal.eq_of_split_dollar {t : Terminal} {cs l r : List Char}
    (h : t.pattern.split ('$' :: cs) = some (l, r)) : t = .openText ∨ t = .prose := by
  have hall : ∀ t ∈ Terminal.all, t.pattern.opensWith '$' = true → t = .openText ∨
      t = .prose := by decide
  exact hall t t.mem_all (Pattern.opensWith_of_split h)

namespace Lexicon

variable {l : Lexicon} {lexeme : Lexeme} {r : List Char}

/-- A token of code is cut off before a blank. -/
theorem IsCode.startsWith_of_stops (hl : l.IsCode) (h : l.StartsWith (lexeme.text ++ r) lexeme r)
    {v : List Char} (hv : Stops v) : l.StartsWith (lexeme.text ++ v) lexeme v := by
  have hstop := hl.startsWith_stop (u := []) (r := r) (by rwa [List.append_nil]) hv
  rwa [List.append_nil] at hstop

/-- A token inside a text that is not prose is cut off whatever follows it. -/
theorem IsText.startsWith_mark (hl : l.IsText) (h : l.StartsWith (lexeme.text ++ r) lexeme r)
    (hmark : lexeme.terminal ≠ .prose) (v : List Char) :
    l.StartsWith (lexeme.text ++ v) lexeme v := by
  have hleft :=
    hl.startsWith_left (u := []) (r := r) (v := v) (by rwa [List.append_nil]) fun h =>
      absurd h hmark
  rwa [List.append_nil] at hleft

/-- The opening of a text is cut off whatever follows it. -/
theorem IsCode.startsWith_openText (hl : l.IsCode)
    (h : l.StartsWith (['$', '"'] ++ r) ⟨.openText, ['$', '"']⟩ r) (v : List Char) :
    l.StartsWith (['$', '"'] ++ v) ⟨.openText, ['$', '"']⟩ v := by
  obtain ⟨t, hfit, hs, hclass⟩ := h
  obtain ⟨ht, hsplit, -⟩ := (firstFit_eq_some_iff hl.ordered).mp hfit
  obtain rfl : t = .openText :=
    (Terminal.eq_of_split_dollar hsplit).resolve_right fun hp => hl.prose (hp ▸ ht)
  have hnew : Terminal.openText.pattern.split (['$', '"'] ++ v) = some (['$', '"'], v) :=
    Pattern.split_exactly_eq_some.mpr ⟨List.cons_ne_nil _ _, rfl, rfl⟩
  refine ⟨.openText, (firstFit_eq_some_iff hl.ordered).mpr ⟨ht, hnew, fun s hmem hlt => ?_⟩, hs,
    hclass⟩
  cases hother : s.pattern.split (['$', '"'] ++ v) with
  | none => rfl
  | some pair =>
    rcases Terminal.eq_of_split_dollar hother with rfl | rfl
    · exact absurd hlt (Nat.lt_irrefl _)
    · exact absurd hmem hl.prose

/-- Inside a text all prose up to the next quote or brace is one token. -/
theorem IsText.startsWith_prose (hl : l.IsText) {cs v : List Char} (hne : cs ≠ [])
    (hcs : ∀ c ∈ cs, isProse c = true) (hv : ∀ c ∈ v.head?, isProse c = false) :
    l.StartsWith (cs ++ v) ⟨.prose, cs⟩ v := by
  have hsplit : Terminal.prose.pattern.split (cs ++ v) = some (cs, v) :=
    cutRun_eq_some.mpr ⟨hne, rfl, hcs, hv⟩
  have hfirst : ∀ s ∈ l.pool, ¬s.code < Terminal.prose.code := hl.forall_pool (by decide)
  refine ⟨.prose, (firstFit_eq_some_iff hl.ordered).mpr ⟨hl.prose, hsplit, fun s hmem hlt => ?_⟩,
    rfl, (hl.classify_prose cs).symm⟩
  exact absurd hlt (hfirst s (hl.tried_pool s hmem))

end Lexicon

/-! ## Reading prose -/

def proseSpelling (body : List Char) : Spelling := fun t text => if t = .prose then body else text

theorem read_emptyText : Tree.read "reveal $\"\";" = .ok (revealProgram (interpolated [])) :=
  GivenText.emptyText.read

theorem reads_proseText :
    Reader.Reads [] (proseCut ['a']) (revealProgram (interpolated [prosePart "a"])) := by
  obtain ⟨c, -, hc, hreads⟩ := Tree.reads_of_isReadWith GivenText.prose.isReadWith
  rwa [eq_of_beq hc] at hreads

section

variable {body : List Char} (hne : body ≠ []) (hbody : ∀ c ∈ body, isProse c = true)
include hne hbody

theorem respells_proseCut : Respells (proseSpelling body) [] (proseCut ['a']) (proseCut body) := by
  refine .take .nil (fun L hL h => ?_) (.take (.blank rfl .nil) (fun L hL h => ?_)
    (.take rfl (fun L hL h => ?_) (.take rfl (fun L hL h => ?_)
      (.take .nil (fun L hL h => ?_) (.finish (.layout .nil))))))
  · exact Lexicon.IsCode.startsWith_of_stops hL h (.cons (b := ' ') rfl)
  · exact Lexicon.IsCode.startsWith_openText hL h _
  · exact Lexicon.IsText.startsWith_prose hL hne hbody fun c hc => by cases hc; rfl
  · exact Lexicon.IsText.startsWith_mark hL h (by decide) _
  · exact Lexicon.IsCode.startsWith_of_stops hL h .nil

theorem read_proseCut : Reader.read (proseCut body).text =
    .ok (revealProgram (interpolated [prosePart (String.ofList body)])) :=
  Reader.read_respell rfl reads_proseText (respells_proseCut hne hbody)

end

/-- What stands between quotes keeps its place when line breaks are made plain. -/
theorem plainBreaks_quoted (front s : String) (hfront : '\r' ∉ front.toList) :
    plainBreaks (front ++ s ++ "\";").toList =
      front.toList ++ (plainBreaks s.toList ++ ['"', ';']) := by
  have hends : ("\";" : String).toList = ['"', ';'] := rfl
  rw [String.toList_append, String.toList_append, List.append_assoc,
    plainBreaks_append_left hfront, hends, plainBreaks_append (by decide)]
  rfl

/-- A text between quotes is read as a literal. -/
theorem read_quoted {s : String} (hquote : '"' ∉ plainBreaks s.toList) :
    Tree.read ("reveal \"" ++ s ++ "\";") =
    .ok (revealProgram (TextPart.prose (String.ofList (plainBreaks s.toList))).value) := by
  have htext : (literalCut (plainBreaks s.toList)).text =
      "reveal \"".toList ++ (plainBreaks s.toList ++ ['"', ';']) := by
    simp [literalCut, Cut.text]
  rw [Tree.read, plainBreaks_quoted _ _ (by decide), ← htext,
    Reader.read_of_reads (reads_literalCut hquote), TextPart.value, String.toList_ofList]
  rfl

/-- Between quotes behind a dollar sign it is read as prose, if there is any. -/
theorem read_prose {s : String} (hs : ∀ c ∈ plainBreaks s.toList, isProse c = true) :
    ∃ ps, Tree.read ("reveal $\"" ++ s ++ "\";") =
      .ok (revealProgram (interpolated (ps.map TextPart.tree))) ∧
      (ps = [.prose (String.ofList (plainBreaks s.toList))] ∨ ps = [] ∧
        plainBreaks s.toList = []) := by
  by_cases hne : plainBreaks s.toList = []
  · have hempty : s = "" := by
      rw [← String.toList_eq_nil_iff]
      exact Classical.byContradiction fun h => plainBreaks_ne_nil h hne
    exact ⟨[], by rw [hempty]; exact read_emptyText, .inr ⟨rfl, hne⟩⟩
  · refine ⟨_, ?_, .inl rfl⟩
    have htext : (proseCut (plainBreaks s.toList)).text =
        "reveal $\"".toList ++ (plainBreaks s.toList ++ ['"', ';']) := by
      simp [proseCut, Cut.text]
    rw [Tree.read, plainBreaks_quoted _ _ (by decide), ← htext, read_proseCut hne hs]
    rfl

/-! ## Revealing it -/

/-- What comes of revealing a text whose escapes are still to be read. -/
def Machine.revealWritten (m : Machine) (s : String) : Ending Datum × Machine :=
  match Text.Escape.decode s with
  | .ok text => (.done .nothing, { m with output := m.output ++ text })
  | .error b => (.failed (.brokenEscape b), m)

/-- A program that reveals what evaluates to a literal reveals its text. -/
theorem run_revealProgram {e : Tree} {s : String}
    (he : ∀ n, e.meaning (n + 3) = (liftM (literalText s) : Spell Datum)) (m : Machine) :
    m.run (revealProgram e) = m.revealWritten s := by
  obtain ⟨n, hn⟩ : ∃ n, endurance = n + 5 := ⟨endurance - 5, (Nat.sub_add_cancel (by decide)).symm⟩
  rw [Machine.run, hn, Machine.revealWritten]
  show runEach (Tree.meaning (n + 4)) [revelation e] m = _
  rw [runEach, meaning_revelation_eq, he, literalText]
  cases Text.Escape.decode s with
  | ok text => rfl
  | error b => rfl

/-- A text of prose evaluates to what the literal does. -/
theorem meaning_interpolated_prose (s : String) (n : Nat) :
    (interpolated ([TextPart.prose s].map TextPart.tree)).meaning (n + 3) =
      (liftM (literalText s) : Spell Datum) := by
  rw [meaning_interpolated, List.map_singleton, runAll, TextPart.meaning_value_prose, literalText]
  funext m
  cases Text.Escape.decode s with
  | ok text =>
    show (Ending.done (Datum.rune (.text (String.join [text]))), m) = _
    rw [String.join_cons, String.join_nil, String.append_empty]
    rfl
  | error b => rfl

theorem meaning_interpolated_nil (n : Nat) :
    (interpolated ([].map TextPart.tree)).meaning (n + 3) =
      (liftM (literalText "") : Spell Datum) := by
  rw [meaning_interpolated, literalText, show Text.Escape.decode "" =
    .ok "" from Text.Escape.decode_writtenText ""]
  rfl

/-- **A text means the same with and without a dollar sign in front of its quotes.** If it has
neither quotes nor braces, the programs that reveal it are read both ways, and both reveal the same
text or fail on the same escape. -/
theorem literals_agree {s : String} (hquote : '"' ∉ s.toList) (hopen : '\x7b' ∉ s.toList)
    (hclose : '\x7d' ∉ s.toList) :
    ∃ t u, Tree.read ("reveal \"" ++ s ++ "\";") = .ok t ∧
    Tree.read ("reveal $\"" ++ s ++ "\";") = .ok u ∧
      ∀ m : Machine, m.run u = m.run t ∧
        ((∃ text, m.run t = (.done .nothing, { m with output := m.output ++ text })) ∨
          ∃ b, m.run t = (.failed (.brokenEscape b), m)) := by
  have hprose : ∀ c ∈ plainBreaks s.toList, isProse c = true := by
    intro c hc
    rcases mem_plainBreaks hc with rfl | hc
    · rfl
    · have hne (d : Char) (hd : d ∉ s.toList) : (c != d) = true :=
        bne_iff_ne.mpr fun h => hd (h ▸ hc)
      rw [isProse, hne _ hopen, hne _ hquote, hne _ hclose]
      rfl
  have hplain : '"' ∉ plainBreaks s.toList := fun h => by cases hprose _ h
  obtain ⟨ps, hread, hps⟩ := read_prose hprose
  have hrun (m : Machine) :
      m.run (revealProgram (TextPart.prose (String.ofList (plainBreaks s.toList))).value) =
        m.revealWritten (String.ofList (plainBreaks s.toList)) :=
    run_revealProgram (fun n => TextPart.meaning_value_prose _ (n + 2)) m
  refine ⟨_, _, read_quoted hplain, hread, fun m => ⟨?_, ?_⟩⟩
  · rw [hrun]
    rcases hps with rfl | ⟨rfl, hempty⟩
    · exact run_revealProgram (meaning_interpolated_prose _) m
    · rw [hempty]
      exact run_revealProgram meaning_interpolated_nil m
  · rw [hrun, Machine.revealWritten]
    cases Text.Escape.decode (String.ofList (plainBreaks s.toList)) with
    | ok text => exact .inl ⟨text, rfl⟩
    | error b => exact .inr ⟨b, rfl⟩

/-- Blanks, what would be a remark in code, a line break of two characters and a backslash before
the quote are all prose. -/
theorem literals_agree_remark :
    ∃ t u, Tree.read ("reveal \"" ++ " ~~ a\r\n\\" ++ "\";") = .ok t ∧
      Tree.read ("reveal $\"" ++ " ~~ a\r\n\\" ++ "\";") = .ok u ∧
      ∀ m : Machine, m.run u = m.run t := by
  obtain ⟨t, u, ht, hu, hrun⟩ :=
    literals_agree (s := " ~~ a\r\n\\") (by decide) (by decide) (by decide)
  exact ⟨t, u, ht, hu, fun m => (hrun m).1⟩

end Spellbook
