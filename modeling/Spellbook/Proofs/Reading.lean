import Spellbook.Proofs.Lexing

/-!
# Texts as the reader cuts them

`Reader.cut` gives the tokens of a text as the reader comes by them, each with the blanks and
remarks before it. `Reads stack c t` is the reader's way through a text that is cut so: a text is
read as `t` just if there is such a way through one of its cuts (`Reader.read_eq_ok_iff`), and then
the start of the grammar derives its tokens (`Reads.derives`).
-/

namespace Spellbook

def Lexeme.Spelled (l : Lexeme) : Prop := ∀ w, l.terminal.spelling? = some w → l.text = w

/-- A token with what is skipped before it. -/
structure Segment where
  gap : List Char
  lexeme : Lexeme
  deriving DecidableEq, Repr

/-- A text cut into its tokens. -/
inductive Cut where
  /-- what is skipped after the last token -/
  | tail (cs : List Char)
  /-- a token before others -/
  | cons (s : Segment) (c : Cut)
  deriving DecidableEq, Repr

namespace Cut

def text : Cut → List Char
  | tail cs => cs
  | cons s c => s.gap ++ (s.lexeme.text ++ c.text)

def lexemes : Cut → List Lexeme
  | tail _ => []
  | cons s c => s.lexeme :: c.lexemes

end Cut

namespace Reader

/-! ### Cutting -/

/-- The stack after a token that is taken. -/
def Outcome.stack? : Outcome → Option Stack
  | taken stack => some stack
  | _ => none

/-- Cuts what comes next off the text `cs` and goes on with `again`. -/
def cutNext (again : Stack → List Char → Option Cut) (stack : Stack) (cs : List Char) :
    Lexicon.Next → Option Cut
  | .token tok rest _ =>
    (feed tok.terminal tok.text (patience stack) stack).stack?.bind fun stack =>
      (again stack rest).map
        (Cut.cons ⟨cs.take (cs.length - (tok.text ++ rest).length), ⟨tok.terminal, tok.text⟩⟩)
  | .nothing => some (.tail cs)
  | .stray _ _ => none

/-- Cuts a text from a stack on, at most `fuel` tokens. -/
def cutFrom : Nat → Stack → List Char → Option Cut
  | 0, _, _ => none
  | fuel + 1, stack, cs =>
    cutNext (cutFrom fuel) stack cs ((Lexicon.ofStates.getD (top stack) default).next cs {})

/-- Cuts a text into the tokens that the reader takes. -/
def cut (cs : List Char) : Option Cut := cutFrom (cs.length + 1) [] cs

/-! ### The way of the reader -/

/-- The lexicon of the state on top. -/
def lexicon (stack : Stack) : Lexicon := Lexicon.ofState (top stack)

/-- `Reads stack c t`: from this stack the reader goes through a text cut as `c` and makes `t` of
it. -/
inductive Reads : Stack → Cut → Tree → Prop
  | finish {stack : Stack} {tail : List Char} {t : Tree}
  (hskips : (lexicon stack).Skips tail tail [])
      (hfeed : feed .textEnd [] (patience stack) stack = .complete t) : Reads stack (.tail tail) t
  | take {stack stack' : Stack} {s : Segment} {c : Cut} {t : Tree}
      (hskips : (lexicon stack).Skips (Cut.cons s c).text s.gap (s.lexeme.text ++ c.text))
      (hstarts : (lexicon stack).StartsWith (s.lexeme.text ++ c.text) s.lexeme c.text)
      (hfeed : feed s.lexeme.terminal s.lexeme.text (patience stack) stack = .taken stack')
      (rest : Reads stack' c t) : Reads stack (.cons s c) t

section
variable {stack : Stack} {ls : List Lexeme} {c : Cut} {t : Tree} {fuel : Nat}

/-- The lexer that the reader takes is that of the top state. -/
theorem Reached.lexicon_eq (h : Reached stack ls) :
    Lexicon.ofStates.getD (top stack) default = lexicon stack :=
  Lexicon.ofStates_getD h.top_lt

/-- What the reader accepts it has gone through. -/
theorem reads_of_readFrom (hreached : Reached stack ls) {cs : List Char} {place last : Place}
    (h : readFrom fuel stack cs place last = .ok t) : ∃ c, c.text = cs ∧ Reads stack c t := by
  induction fuel generalizing stack ls cs place last with
  | zero => cases h
  | succ fuel ih =>
    rw [readFrom, hreached.lexicon_eq] at h
    cases hnext : (lexicon stack).next cs place with
    | token tok rest place' =>
      rw [hnext, advance] at h
      obtain ⟨gap, cs', hskips, hstarts⟩ := Lexicon.nextWithin_eq_token hnext
      cases hfeed : feed tok.terminal tok.text (patience stack) stack with
      | taken stack' =>
        rw [hfeed] at h
        obtain ⟨c, rfl, hreads⟩ := ih (hreached.feed_taken hfeed) h
        have hcs' := hstarts.eq_append
        rw [hcs'] at hskips hstarts
        have htext : (Cut.cons ⟨gap, tok.terminal, tok.text⟩ c).text = cs := by
          rw [Cut.text, hskips.eq_append]
        exact ⟨Cut.cons ⟨gap, tok.terminal, tok.text⟩ c, htext,
          .take (htext ▸ hskips) hstarts hfeed hreads⟩
      | complete t' =>
        have hend := (hreached.feed_complete hfeed).1
        have hmem := hstarts.terminal_mem
        rw [show (Lexeme.mk tok.terminal tok.text).terminal = .textEnd from hend] at hmem
        exact absurd hmem (by decide)
      | refused =>
        rw [hfeed] at h
        cases h
    | nothing =>
      rw [hnext, advance] at h
      cases hfeed : feed .textEnd [] (patience stack) stack with
      | complete t' =>
        rw [hfeed] at h
        cases h
        exact ⟨.tail cs, rfl, .finish (Lexicon.nextWithin_eq_nothing hnext) hfeed⟩
      | taken stack' => rw [hfeed] at h; cases h
      | refused => rw [hfeed] at h; cases h
    | stray rest place' =>
      rw [hnext, advance] at h
      split at h <;> cases h

/-- The reader goes on behind a token that it takes. -/
theorem readFrom_of_taken (hreached : Reached stack ls) {stack' : Stack} {l : Lexeme}
    {cs gap rest : List Char} (hskips : (lexicon stack).Skips cs gap (l.text ++ rest))
    (hstarts : (lexicon stack).StartsWith (l.text ++ rest) l rest)
    (hfeed : feed l.terminal l.text (patience stack) stack = .taken stack') (fuel : Nat)
    (place last : Place) :
    ∃ place' last', readFrom (fuel + 1) stack cs place last =
      readFrom fuel stack' rest place' last' := by
  obtain ⟨place₁, place₂, hnext⟩ := Lexicon.next_of_startsWith hskips hstarts place
  refine ⟨place₂, place₁, ?_⟩
  rw [readFrom, hreached.lexicon_eq, hnext, advance, hfeed, Outcome.andThen]

/-- The reader fails at a character that no possible token starts with. -/
theorem readFrom_of_stray (hreached : Reached stack ls) {c : Char}
    (h : ∀ s ∈ (lexicon stack).pool, s.pattern.opensWith c = false) (fuel : Nat) (cs : List Char)
    (place last : Place) :
    ∃ fault, readFrom (fuel + 1) stack (c :: cs) place last = .error fault := by
  have hfit : Lexicon.firstFit (lexicon stack).tried (c :: cs) = none := by
    cases hfit : Lexicon.firstFit (lexicon stack).tried (c :: cs) with
    | none => rfl
    | some found =>
      obtain ⟨hmem, hsplit⟩ := Lexicon.firstFit_spec hfit
      have hopens := Pattern.opensWith_of_split hsplit
      rw [h _ (Lexicon.mem_tried_ofState.mp hmem).1] at hopens
      cases hopens
  have hnext : (lexicon stack).next (c :: cs) place = .stray (c :: cs) place := by
    rw [Lexicon.next, List.length_cons, Lexicon.nextWithin, hfit]
    intro hnil
    cases hnil
  rw [readFrom, hreached.lexicon_eq, hnext, advance]
  split
  · exact ⟨_, rfl⟩
  · exact ⟨_, rfl⟩

/-- What the reader can go through it accepts. -/
theorem readFrom_of_reads (h : Reads stack c t) (hreached : Reached stack ls)
    (hfuel : c.lexemes.length < fuel) (place last : Place) :
    readFrom fuel stack c.text place last = .ok t := by
  induction h generalizing ls fuel place last with
  | finish hskips hfeed =>
    obtain ⟨n, rfl⟩ : ∃ n, fuel = n + 1 := ⟨fuel - 1, by omega⟩
    rw [Cut.text, readFrom, hreached.lexicon_eq, Lexicon.next_of_skips_all hskips, advance, hfeed,
      Outcome.andThen]
  | @take stack stack' s c t hskips hstarts hfeed rest ih =>
    obtain ⟨n, rfl⟩ : ∃ n, fuel = n + 1 := ⟨fuel - 1, by omega⟩
    obtain ⟨place', last', hread⟩ := readFrom_of_taken hreached hskips hstarts hfeed n place last
    rw [hread]
    exact ih (hreached.feed_taken hfeed) (Nat.lt_of_succ_lt_succ hfuel) place' last'

/-- The reader cuts a text where its way goes. -/
theorem cutFrom_of_reads (h : Reads stack c t) (hreached : Reached stack ls)
    (hfuel : c.lexemes.length < fuel) : cutFrom fuel stack c.text = some c := by
  induction h generalizing ls fuel with
  | finish hskips hfeed =>
    obtain ⟨n, rfl⟩ : ∃ n, fuel = n + 1 := ⟨fuel - 1, by omega⟩
    rw [Cut.text, cutFrom, hreached.lexicon_eq, Lexicon.next_of_skips_all hskips, cutNext]
  | @take stack stack' s c t hskips hstarts hfeed rest ih =>
    obtain ⟨n, rfl⟩ : ∃ n, fuel = n + 1 := ⟨fuel - 1, by omega⟩
    obtain ⟨place₁, place₂, hnext⟩ := Lexicon.next_of_startsWith hskips hstarts {}
    have hgap : (Cut.cons s c).text.take
        ((Cut.cons s c).text.length - (s.lexeme.text ++ c.text).length) = s.gap := by
      rw [Cut.text, List.length_append, Nat.add_sub_cancel, List.take_left]
    rw [cutFrom, hreached.lexicon_eq, hnext, cutNext, hfeed, Outcome.stack?, Option.bind_some,
      ih (hreached.feed_taken hfeed) (Nat.lt_of_succ_lt_succ hfuel), hgap]
    rfl

/-- A text has no more lexemes than characters. -/
theorem Reads.length_le (h : Reads stack c t) : c.lexemes.length ≤ c.text.length := by
  induction h with
  | finish hskips hfeed => exact Nat.zero_le _
  | @take stack stack' s c t hskips hstarts hfeed rest ih =>
    have hpos := List.length_pos_iff.mpr hstarts.ne_nil
    rw [Cut.text, Cut.lexemes, List.length_append, List.length_append, List.length_cons]
    omega

/-- The tokens on the way are derived from the start of the grammar. -/
theorem Reads.derives (h : Reads stack c t) (hreached : Reached stack ls) :
    Derives Grammar.productions [.nonterminal .start] [.tree t] (ls ++ c.lexemes) := by
  induction h generalizing ls with
  | finish hskips hfeed =>
    rw [Cut.lexemes, List.append_nil]
    exact (hreached.feed_complete hfeed).2
  | take hskips hstarts hfeed rest ih =>
    have hderives := ih (hreached.feed_taken hfeed)
    rwa [List.append_assoc] at hderives

/-- Each lexeme of a reading is spelled as its terminal says. -/
theorem Reads.spelled (h : Reads stack c t) : ∀ l ∈ c.lexemes, l.Spelled := by
  induction h with
  | finish hskips hfeed => exact nofun
  | take hskips hstarts hfeed rest ih =>
    intro l hl
    rcases List.mem_cons.mp hl with rfl | hl
    · exact fun w hw => hstarts.text_eq hw
    · exact ih l hl

end

/-- A reading of a text is what the reader finds. -/
theorem read_of_reads {c : Cut} {t : Tree} (h : Reads [] c t) : read c.text = .ok t :=
  readFrom_of_reads h .nil (Nat.lt_succ_of_le h.length_le) {} {}

/-- The cut of a reading is what the reader cuts. -/
theorem cut_of_reads {c : Cut} {t : Tree} (h : Reads [] c t) : cut c.text = some c :=
  cutFrom_of_reads h .nil (Nat.lt_succ_of_le h.length_le)

/-- **A text is read as `t` just if the reader has a way through it that makes `t`.** -/
theorem read_eq_ok_iff {cs : List Char} {t : Tree} :
    read cs = .ok t ↔ ∃ c, cut cs = some c ∧ c.text = cs ∧ Reads [] c t := by
  constructor
  · intro h
    obtain ⟨c, rfl, hreads⟩ := reads_of_readFrom .nil h
    exact ⟨c, cut_of_reads hreads, rfl, hreads⟩
  · rintro ⟨c, -, rfl, hreads⟩
    exact read_of_reads hreads

end Reader

/-! ### Line breaks -/

/-- No carriage return is left. -/
theorem not_mem_plainBreaks (cs : List Char) : '\r' ∉ plainBreaks cs := by
  fun_induction plainBreaks cs with
  | case1 cs ih => simp [ih]
  | case2 cs _ ih => simp [ih]
  | case3 c cs _ hc ih =>
    rw [List.mem_cons, not_or]
    exact ⟨fun h => hc h.symm, ih⟩
  | case4 => exact nofun

/-- A text without a carriage return stays as it is. -/
theorem plainBreaks_of_not_mem {cs : List Char} (h : '\r' ∉ cs) : plainBreaks cs = cs := by
  fun_induction plainBreaks cs with
  | case1 cs ih => exact absurd List.mem_cons_self h
  | case2 cs _ ih => exact absurd List.mem_cons_self h
  | case3 c cs _ _ ih => rw [ih fun hmem => h (List.mem_cons_of_mem c hmem)]
  | case4 => rfl

theorem mem_plainBreaks {cs : List Char} {c : Char} (h : c ∈ plainBreaks cs) :
    c = '\n' ∨ c ∈ cs := by
  fun_induction plainBreaks cs with
  | case1 cs ih =>
    rcases List.mem_cons.mp h with h | h
    · exact .inl h
    · exact (ih h).imp_right fun h => List.mem_cons_of_mem _ (List.mem_cons_of_mem _ h)
  | case2 cs _ ih =>
    rcases List.mem_cons.mp h with h | h
    · exact .inl h
    · exact (ih h).imp_right (List.mem_cons_of_mem _)
  | case3 d cs _ _ ih =>
    rcases List.mem_cons.mp h with rfl | h
    · exact .inr List.mem_cons_self
    · exact (ih h).imp_right (List.mem_cons_of_mem _)
  | case4 => cases h

theorem plainBreaks_ne_nil {cs : List Char} (h : cs ≠ []) : plainBreaks cs ≠ [] := by
  fun_cases plainBreaks cs with
  | case1 | case2 | case3 => exact List.cons_ne_nil _ _
  | case4 => exact absurd rfl h

theorem plainBreaks_append_left {cs : List Char} (h : '\r' ∉ cs) (ds : List Char) :
    plainBreaks (cs ++ ds) = cs ++ plainBreaks ds := by
  induction cs with
  | nil => rfl
  | cons c cs ih =>
    rw [List.mem_cons, not_or] at h
    rw [List.cons_append, plainBreaks, ih h.2, List.cons_append]
    · exact fun _ hc => absurd hc.symm h.1
    · exact fun hc => h.1 hc.symm

/-- Line breaks are made plain piece by piece, if no break is torn apart. -/
theorem plainBreaks_append {ds : List Char} (h : ds.head? ≠ some '\n') (cs : List Char) :
    plainBreaks (cs ++ ds) = plainBreaks cs ++ plainBreaks ds := by
  fun_induction plainBreaks cs with
  | case1 cs ih => rw [List.cons_append, List.cons_append, plainBreaks, ih, List.cons_append]
  | case2 cs hcs ih =>
    rw [List.cons_append, plainBreaks, ih, List.cons_append]
    intro cs' hcs'
    cases cs with
    | nil => exact h (by rw [← List.nil_append ds, hcs']; rfl)
    | cons c cs => cases hcs'; exact hcs _ rfl
  | case3 c cs hc hc' ih =>
    rw [List.cons_append, plainBreaks, ih, List.cons_append]
    · exact fun _ h => absurd h hc'
    · exact hc'
  | case4 => rfl

end Spellbook
