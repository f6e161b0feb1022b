import Spellbook.Proofs.Plain

/-!
# Layout does not matter

What stands between two tokens outside of interpolated texts can be replaced by any other layout, as
long as the text agrees with the old one up to a blank behind each token (`Reads.respace`). So
blanks and remarks can be put in at any token boundary that is not directly inside an interpolated
text (`Tree.read_spaced`).
-/

namespace Spellbook

/-! ### Other layouts -/

/-- Two texts that agree up to a blank, or the end, of the second. -/
def Agree (cs cs' : List Char) : Prop := ∃ u r v, cs = u ++ r ∧ cs' = u ++ v ∧ Stops v

theorem Agree.refl (cs : List Char) : Agree cs cs :=
  ⟨cs, [], [], (List.append_nil cs).symm, (List.append_nil cs).symm, .nil⟩

theorem Agree.append {cs cs' : List Char} (h : Agree cs cs') (w : List Char) :
    Agree (w ++ cs) (w ++ cs') := by
  obtain ⟨u, r, v, rfl, rfl, hv⟩ := h
  exact ⟨w ++ u, r, v, (List.append_assoc ..).symm, (List.append_assoc ..).symm, hv⟩

/-- Any text agrees with one where a token stops. -/
theorem Agree.of_stops (cs : List Char) {cs' : List Char} (h : Stops cs') : Agree cs cs' :=
  ⟨[], cs, cs', rfl, rfl, h⟩

/-- `Respaces n c c'`: after the enclosures `n`, the cut `c'` has the tokens of `c`, the same gaps
directly inside texts, and other gaps elsewhere that keep the tokens apart. -/
inductive Respaces : Nesting → Cut → Cut → Prop
  | finish {n : Nesting} {tail tail' : List Char} (htail : Trailing tail') :
      Respaces n (.tail tail) (.tail tail')
  | take {n : Nesting} {s : Segment} {gap' : List Char} {c c' : Cut}
      (hin : n.inText = true → gap' = s.gap) (hout : n.inText = false → Layout gap')
      (hagree : Agree c.text c'.text) (rest : Respaces (n.after s.lexeme.terminal) c c') :
      Respaces n (.cons s c) (.cons ⟨gap', s.lexeme⟩ c')

namespace Reader

variable {stack : Stack} {ls : List Lexeme} {c c' : Cut} {t : Tree}

theorem action_of_feed {l : Terminal} {text : List Char} {fuel : Nat}
    (h : feed l text fuel stack ≠ .refused) : ∃ a, action? (top stack) l = some a := by
  cases fuel with
  | zero => exact absurd rfl h
  | succ fuel =>
    cases ha : action? (top stack) l with
    | none =>
      rw [feed, ha] at h
      exact absurd rfl h
    | some a => exact ⟨a, rfl⟩

/-- A text does not end directly inside an interpolated text. -/
theorem Reached.not_inText_of_complete (h : Reached stack ls) {text : List Char} {fuel : Nat}
    (hfeed : Reader.feed .textEnd text fuel stack = .complete t) :
    Automaton.inText (top stack) = false := by
  cases htext : Automaton.inText (top stack) with
  | false => rfl
  | true =>
    obtain ⟨a, ha⟩ := action_of_feed (by rw [hfeed]; exact nofun)
    rcases Automaton.action_inText h.top_lt htext ha with hend | hend | hend <;> cases hend

/-- A stack outside of a text reads code. -/
theorem Reached.isCode (h : Reached stack ls) (hcode : Automaton.inText (top stack) = false) :
    (lexicon stack).IsCode :=
  Lexicon.isCode_ofState h.top_lt hcode

/-- A stack inside of a text reads text. -/
theorem Reached.isText (h : Reached stack ls) (htext : Automaton.inText (top stack) = true) :
    (lexicon stack).IsText :=
  Lexicon.isText_ofState h.top_lt htext

theorem Reached.inText_after (h : Reached stack ls) {l : Lexeme} (hl : l.terminal = .prose) :
    (Nesting.afterAll [] (ls ++ [l])).inText = Automaton.inText (top stack) := by
  rw [h.inText_top, Nesting.afterAll_snoc, hl]
  rfl

/-- Directly inside a text the next token follows at once, so respaced texts start alike. -/
theorem Reads.common_front (h : Reads stack c t) (hreached : Reached stack ls)
    (htext : Automaton.inText (top stack) = true) (hr : Respaces (Nesting.afterAll [] ls) c c') :
    ∃ u r v, u ≠ [] ∧ c.text = u ++ r ∧ c'.text = u ++ v := by
  cases h with
  | finish hskips hfeed =>
    rw [hreached.not_inText_of_complete hfeed] at htext
    cases htext
  | @take _ stack' s c _ hskips hstarts hfeed rest =>
    cases hr with
    | @take _ _ gap' _ c' hin hout hagree hrest =>
      rw [← hreached.inText_top] at hin
      have hgap : s.gap = [] := (hreached.isText htext).eq_nil_of_skips hskips
      refine ⟨s.lexeme.text, c.text, c'.text, hstarts.ne_nil, ?_, ?_⟩
      · rw [Cut.text, hgap, List.nil_append]
      · rw [Cut.text, hin htext, hgap, List.nil_append]

/-- **Respaced texts are read alike.** -/
theorem Reads.respace (h : Reads stack c t) (hreached : Reached stack ls)
    (hr : Respaces (Nesting.afterAll [] ls) c c') : Reads stack c' t := by
  induction h generalizing ls c' with
  | finish hskips hfeed =>
    cases hr with
    | finish htail =>
      have hcode := hreached.isCode (hreached.not_inText_of_complete hfeed)
      exact .finish (hcode.skips_trailing htail) hfeed
  | @take stack stack' s c t hskips hstarts hfeed rest ih =>
    cases hr with
    | @take _ _ gap' _ c' hin hout hagree hrest =>
      have hreached' := hreached.feed_taken hfeed
      rw [← Nesting.afterAll_snoc] at hrest
      rw [← hreached.inText_top] at hin hout
      cases htext : Automaton.inText (top stack) with
      | false =>
        have hcode := hreached.isCode htext
        obtain ⟨u, r, v, hu, hu', hv⟩ := hagree
        rw [hu, ← List.append_assoc] at hstarts
        have hstarts' := hcode.startsWith_stop hstarts hv
        rw [List.append_assoc, ← hu'] at hstarts'
        refine .take ?_ hstarts' hfeed (ih hreached' hrest)
        rw [Cut.text]
        exact hcode.skips_layout (hout htext) (hcode.not_blank_of_startsWith hstarts')
      | true =>
        have hcode := hreached.isText htext
        have hgap : gap' = [] := (hin htext).trans (hcode.eq_nil_of_skips hskips)
        have hstarts' : (lexicon stack).StartsWith (s.lexeme.text ++ c'.text) s.lexeme c'.text := by
          by_cases hprose : s.lexeme.terminal = .prose
          · have htext' : Automaton.inText (top stack') = true := by
              rw [hreached'.inText_top, hreached.inText_after hprose, htext]
            obtain ⟨u, r, v, hne, hu, hu'⟩ := rest.common_front hreached' htext' hrest
            rw [hu, ← List.append_assoc] at hstarts
            rw [hu', ← List.append_assoc]
            exact hcode.startsWith_left hstarts fun _ => hne
          · have hleft := hcode.startsWith_left (u := []) (v := c'.text) (by simpa using hstarts)
              fun h => absurd h hprose
            simpa using hleft
        refine .take ?_ hstarts' hfeed (ih hreached' hrest)
        rw [Cut.text, hgap]
        exact .done

end Reader

/-! ### Blanks and remarks put in -/

/-- What can be put in between tokens: nothing, or blanks and whole remarks that start with a
blank. -/
def Insertion (cs : List Char) : Prop := Layout cs ∧ Stops cs

/-- `Filled gap gap'`: the blanks and remarks of `gap`, with something put in at places between
them. -/
inductive Filled : List Char → List Char → Prop
  | nil : Filled [] []
  | put {ins gap gap' : List Char} (hins : Insertion ins) (h : Filled gap gap') :
      Filled gap (ins ++ gap')
  | blank {b : Char} {gap gap' : List Char} (hb : isBlank b = true) (h : Filled gap gap') :
      Filled (b :: gap) (b :: gap')
  | remark {line gap gap' : List Char} (hline : '\n' ∉ line) (h : Filled gap gap') :
      Filled ('~' :: '~' :: line ++ '\n' :: gap) ('~' :: '~' :: line ++ '\n' :: gap')

/-- `Spaced n c c'`: after the enclosures `n`, the cut `c'` is `c` with something put in at token
boundaries that are not directly inside a text. A boundary may also lie between two skipped blanks
or remarks, or behind a last remark that no line break ends. -/
inductive Spaced : Nesting → Cut → Cut → Prop
  | finish {n : Nesting} {gap gap' rest ins : List Char} (h : Filled gap gap')
  (hrest : Trailing rest)
      (hins : Insertion ins) : Spaced n (.tail (gap ++ rest)) (.tail (gap' ++ rest ++ ins))
  | take {n : Nesting} {s : Segment} {gap' : List Char} {c c' : Cut}
      (h : if n.inText then gap' = s.gap else Filled s.gap gap')
      (rest : Spaced (n.after s.lexeme.terminal) c c') :
      Spaced n (.cons s c) (.cons ⟨gap', s.lexeme⟩ c')

/-- A gap that is filled in is layout. -/
theorem Filled.layout {gap gap' : List Char} (h : Filled gap gap') : Layout gap' := by
  induction h with
  | nil => exact .nil
  | put hins _ ih => exact hins.1.append ih
  | blank hb _ ih => exact .blank hb ih
  | remark hline _ ih => exact .remark hline ih

theorem Agree.filled {gap gap' cs cs' : List Char} (hcs : Agree cs cs') (h : Filled gap gap') :
    Agree (gap ++ cs) (gap' ++ cs') := by
  induction h with
  | nil => exact hcs
  | @put ins _ gap' hins _ ih =>
    cases ins with
    | nil => exact ih
    | cons b ins => exact .of_stops _ fun c hc => hins.2 c hc
  | @blank b _ _ _ _ ih => exact ih.append [b]
  | @remark line _ _ _ _ ih => simpa using ih.append ('~' :: '~' :: line ++ ['\n'])

/-- A cut that is spaced differently respaces the cut. -/
theorem Spaced.respaces {n : Nesting} {c c' : Cut} (h : Spaced n c c') :
    Respaces n c c' ∧ Agree c.text c'.text := by
  induction h with
  | @finish _ _ _ rest ins hgap hrest hins =>
    have hagree : Agree rest (rest ++ ins) :=
      ⟨rest, [], ins, (List.append_nil rest).symm, rfl, hins.2⟩
    refine ⟨.finish ((hgap.layout.append_trailing hrest).append hins.1), ?_⟩
    rw [Cut.text, Cut.text, List.append_assoc]
    exact hagree.filled hgap
  | @take n s gap' c c' hgap _ ih =>
    obtain ⟨hrespaces, hagree⟩ := ih
    cases htext : n.inText with
    | true =>
      rw [htext, if_pos rfl] at hgap
      subst hgap
      refine ⟨.take (fun _ => rfl) (fun hout => ?_) hagree hrespaces, (hagree.append _).append _⟩
      rw [htext] at hout
      cases hout
    | false =>
      rw [htext, if_neg (Bool.false_ne_true)] at hgap
      refine ⟨.take (fun hin => ?_) (fun _ => hgap.layout) hagree hrespaces,
        (hagree.append _).filled hgap⟩
      rw [htext] at hin
      cases hin

theorem Filled.refl {gap : List Char} (h : Layout gap) : Filled gap gap := by
  induction h with
  | nil => exact .nil
  | blank hb _ ih => exact .blank hb ih
  | remark hline _ ih => exact .remark hline ih

/-- What the reader skips outside of texts is made of blanks and remarks, so there are boundaries to
put something in. -/
theorem Reader.Reads.spaced_self {stack : Reader.Stack} {ls : List Lexeme} {c : Cut} {t : Tree}
    (h : Reader.Reads stack c t) (hreached : Reader.Reached stack ls) :
    Spaced (Nesting.afterAll [] ls) c c := by
  induction h generalizing ls with
  | finish hskips hfeed =>
    have hcode := hreached.isCode (hreached.not_inText_of_complete hfeed)
    have hspaced :=
      Spaced.finish (n := Nesting.afterAll [] ls) .nil (hcode.trailing_of_skips hskips nofun).1
      ⟨.nil, .nil⟩
    rwa [List.append_nil] at hspaced
  | @take stack stack' s c t hskips hstarts hfeed rest ih =>
    have hrest := ih (hreached.feed_taken hfeed)
    rw [Nesting.afterAll_snoc] at hrest
    refine .take ?_ hrest
    rw [← hreached.inText_top]
    split
    case isTrue => rfl
    case isFalse hout =>
      have hcode := hreached.isCode (Bool.not_eq_true _ ▸ hout)
      refine .refl
        ((hcode.trailing_of_skips hskips (hcode.not_blank_of_startsWith hstarts)).2 fun hnil => ?_)
      exact hstarts.ne_nil (List.append_eq_nil_iff.mp hnil).1

/-- `Respaced source source'`: the second text is the first with blanks and remarks put in between
its tokens. -/
def Respaced (source source' : String) : Prop :=
  ∃ c c', Reader.cut (plainBreaks source.toList) = some c ∧ Spaced [] c c' ∧
  plainBreaks source'.toList = c'.text

/-- A text with other layout between its tokens is read as the same tree. -/
theorem Tree.read_of_respaced {source source' : String} {t : Tree} (h : Tree.read source = .ok t)
    (hspaced : Respaced source source') : Tree.read source' = .ok t := by
  obtain ⟨c, hcut, -, hreads⟩ := Reader.read_eq_ok_iff.mp h
  obtain ⟨c₁, c', hcut', hspaced, htext⟩ := hspaced
  obtain rfl : c = c₁ := Option.some.inj (hcut.symm.trans hcut')
  rw [Tree.read, htext]
  exact Reader.read_of_reads (hreads.respace .nil hspaced.respaces.1)

/-- **Layout does not matter.** The text that is read, its line breaks made plain, can be cut into
its tokens. Blanks and whole remarks that start with a blank can be put in between them, but not
directly inside an interpolated text, and the tree stays the same. -/
theorem Tree.read_spaced {source : String} {t : Tree} (h : Tree.read source = .ok t) :
    ∃ c, Reader.cut (plainBreaks source.toList) = some c ∧ c.text = plainBreaks source.toList ∧
      Spaced [] c c ∧ ∀ source' c', Spaced [] c c' → plainBreaks source'.toList = c'.text →
        Tree.read source' = .ok t := by
  obtain ⟨c, hcut, htext, hreads⟩ := Reader.read_eq_ok_iff.mp h
  refine ⟨c, hcut, htext, hreads.spaced_self .nil, fun source' c' hspaced htext' => ?_⟩
  exact Tree.read_of_respaced h ⟨c, c', hcut, hspaced, htext'⟩

/-- Blanks, line breaks and a remark between all tokens of a declaration. -/
theorem Tree.read_spaced_remark :
    Tree.read "rune a;" = .ok (dormantProgram "a") ∧
      Tree.read "\nrune\t~~ its name:\n a ~~ no value\n\n;\n" = .ok (dormantProgram "a") := by
  have hreads : Reader.Reads [] (dormantCut "a") (dormantProgram "a") :=
    reads_dormantCut (by decide)
  have hread : Tree.read "rune a;" = .ok (dormantProgram "a") := Reader.read_of_reads hreads
  refine ⟨hread, ?_⟩
  obtain ⟨c, hcut, -, -, hspaced⟩ := Tree.read_spaced hread
  obtain rfl : dormantCut "a" = c := Option.some.inj ((Reader.cut_of_reads hreads).symm.trans hcut)
  have hline : Filled [] ['\n'] := .put ⟨.blank rfl .nil, .cons rfl⟩ .nil
  have hname : Filled [' '] "\t~~ its name:\n ".toList :=
    .put ⟨.blank rfl (.remark (by decide : '\n' ∉ " its name:".toList) .nil), .cons rfl⟩
      (.blank rfl .nil)
  have hvalue : Filled [] " ~~ no value\n\n".toList :=
    .put ⟨.blank rfl (.remark (by decide : '\n' ∉ " no value".toList) (.blank rfl .nil)),
      .cons rfl⟩ .nil
  exact hspaced _ _ (.take hline (.take hname (.take hvalue
    (.finish .nil (.layout .nil) ⟨.blank (b := '\n') rfl .nil, .cons rfl⟩)))) rfl

end Spellbook
