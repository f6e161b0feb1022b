import Spellbook.Proofs.Derivation
import Spellbook.Proofs.Pattern

/-!
# Tokens and what stands between them

Blanks and remarks are a `Layout`. Outside of interpolated texts a lexer skips any layout before a
token (`Lexicon.IsCode.skips_layout`), and it cuts the same token off two texts that agree up to a
blank behind the token (`Lexicon.IsCode.startsWith_stop`). Directly inside an interpolated text
nothing is skipped (`Lexicon.IsText.eq_nil_of_skips`).
-/

namespace Spellbook

/-! ### First characters -/

/-- Whether a lexeme of the pattern can start with the character. -/
def Pattern.opensWith : Pattern → Char → Bool
  | exactly w, c => w.head? == some c
  | firstOf ws, c => ws.any (·.head? == some c)
  | whole, c => c == '-' || isDigit c
  | decimal, c => c == '-' || isDigit c
  | quoted, c => c == '"'
  | name, c => isNameStart c
  | prose, c => isProse c
  | blanks, c => isBlank c
  | remark, c => c == '~'

namespace Pattern

variable {c : Char} {cs l r : List Char}

/-- A word that is cut off opens with the first character of the text. -/
theorem head_of_cutFirst {ws : List (List Char)} (h : cutFirst ws (c :: cs) = some (l, r)) :
    ∃ w ∈ ws, w.head? = some c := by
  obtain ⟨w, hw, hcut⟩ := List.exists_of_findSome?_eq_some h
  refine ⟨w, hw, ?_⟩
  cases w with
  | nil => cases hcut
  | cons a w =>
    rw [if_neg (by simp), cutText] at hcut
    split at hcut
    · next hac => rw [List.head?_cons, hac]
    · cases hcut

/-- A run that is cut off opens with a character of the run. -/
theorem head_of_cutRun {p : Char → Bool} (h : cutRun p (c :: cs) = some (l, r)) : p c = true := by
  rw [cutRun_cons] at h
  split at h
  · next hc => exact hc
  · cases h

/-- A whole number that is cut off opens with a digit or a minus sign. -/
theorem head_of_cutWhole (h : cutWhole (c :: cs) = some (l, r)) :
    (c == '-' || isDigit c) = true := by
  by_cases hc : c = '-'
  · simp [hc]
  · rw [cutWhole_of_ne hc] at h
    rw [head_of_cutRun h, Bool.or_true]

/-- A pattern splits only a text that opens with one of its characters. -/
theorem opensWith_of_split {p : Pattern} (h : p.split (c :: cs) = some (l, r)) :
    p.opensWith c = true := by
  cases p with
  | exactly w =>
    obtain ⟨w', hw, hhead⟩ := head_of_cutFirst h
    rw [List.mem_singleton.mp hw] at hhead
    rw [opensWith, hhead, beq_self_eq_true]
  | firstOf ws =>
    obtain ⟨w, hw, hhead⟩ := head_of_cutFirst h
    exact List.any_eq_true.mpr ⟨w, hw, by rw [hhead, beq_self_eq_true]⟩
  | whole => exact head_of_cutWhole h
  | decimal =>
    rw [split_decimal] at h
    obtain ⟨⟨front, rest⟩, hwhole, -⟩ := Option.bind_eq_some_iff.mp h
    exact head_of_cutWhole hwhole
  | quoted =>
    obtain ⟨body, rfl, heq, -⟩ := split_quoted_eq_some.mp h
    cases heq
    rfl
  | name =>
    obtain ⟨d, run, rfl, heq, hd, -⟩ := split_name_eq_some.mp h
    cases heq
    exact hd
  | prose => exact head_of_cutRun h
  | blanks => exact head_of_cutRun h
  | remark =>
    obtain ⟨line, rfl, heq, -⟩ := split_remark_eq_some.mp h
    cases heq
    rfl

end Pattern

namespace Terminal

/-- Only blanks and remarks are skipped. -/
theorem eq_of_isSkipped {t : Terminal} (h : t.isSkipped = true) : t = .blanks ∨ t = .remark := by
  cases t <;> simp_all [isSkipped]

/-- What is checked of the spelling of a terminal: only blanks and prose can start with a blank,
only the quotes with a quote, nothing tried before remarks but prose with a tilde, and all but four
classes have no blanks. -/
def spellingOk (t : Terminal) : Bool :=
  (t == .prose || t == .blanks || blankChars.all (!t.pattern.opensWith ·)) &&
  (t == .quoted || t == .quote || !t.pattern.opensWith '"') &&
  (t == .prose || Nat.ble remark.code t.code || !t.pattern.opensWith '~') &&
  (t == .quoted || t == .prose || t.isSkipped || t.pattern.isPlain)

/-- The spellings of all terminals, checked together. -/
theorem spellings_checked : all.all spellingOk = true := by
  decide +kernel

theorem spellingOk_self (t : Terminal) : t.spellingOk = true :=
  List.all_eq_true.mp spellings_checked t t.mem_all

variable {t : Terminal} {cs l r : List Char}

/-- A blank opens only prose and blanks. -/
theorem eq_of_split_blank {b : Char} (hb : isBlank b = true)
    (h : t.pattern.split (b :: cs) = some (l, r)) : t = .prose ∨ t = .blanks := by
  have hok := t.spellingOk_self
  simp only [spellingOk, Bool.and_eq_true, Bool.or_eq_true, beq_iff_eq] at hok
  rcases hok.1.1.1 with hclass | hnone
  · exact hclass
  · have hb := List.all_eq_true.mp hnone b (mem_blankChars hb)
    rw [Pattern.opensWith_of_split h] at hb
    cases hb

/-- A quote opens only a quoted text and the quote itself. -/
theorem eq_of_split_quote (h : t.pattern.split ('"' :: cs) = some (l, r)) :
    t = .quoted ∨ t = .quote := by
  have hok := t.spellingOk_self
  simp only [spellingOk, Bool.and_eq_true, Bool.or_eq_true, beq_iff_eq] at hok
  rcases hok.1.1.2 with hclass | hnone
  · exact hclass
  · rw [Pattern.opensWith_of_split h] at hnone
    cases hnone

/-- A tilde opens only prose, a remark and what is tried after the remark. -/
theorem le_of_split_tilde (h : t.pattern.split ('~' :: cs) = some (l, r)) :
    t = .prose ∨ remark.code ≤ t.code := by
  have hok := t.spellingOk_self
  simp only [spellingOk, Bool.and_eq_true, Bool.or_eq_true, beq_iff_eq] at hok
  rcases hok.1.2 with (hclass | hle) | hnone
  · exact .inl hclass
  · exact .inr (Nat.le_of_ble_eq_true hle)
  · rw [Pattern.opensWith_of_split h] at hnone
    cases hnone

/-- The pattern of any terminal but the quoted text, the prose and the skipped ones is a plain one.
-/
theorem isPlain_pattern (hq : t ≠ .quoted) (hp : t ≠ .prose) (hs : t.isSkipped = false) :
    t.pattern.isPlain = true := by
  have hok := t.spellingOk_self
  simp only [spellingOk, Bool.and_eq_true, Bool.or_eq_true, beq_iff_eq] at hok
  rcases hok.2 with ((h | h) | h) | h
  · exact absurd h hq
  · exact absurd h hp
  · rw [hs] at h; cases h
  · exact h

end Terminal

namespace Lexicon

/-! ### The first terminal that fits -/

def Ordered (ts : List Terminal) : Prop := ts.Pairwise (·.code < ·.code)

/-- The terminals are tried in the order of their codes. -/
theorem trialOrder_ordered : Ordered Terminal.trialOrder := by
  unfold Ordered
  decide

/-- The terminal that fits first is the one of the least code among those that split the text. -/
theorem firstFit_eq_some_iff {ts : List Terminal} {cs l r : List Char} {t : Terminal}
    (hts : Ordered ts) :
    firstFit ts cs = some (t, l, r) ↔
      t ∈ ts ∧ t.pattern.split cs = some (l, r) ∧
        ∀ s ∈ ts, s.code < t.code → s.pattern.split cs = none := by
  induction ts with
  | nil => simp [firstFit]
  | cons a ts ih =>
    obtain ⟨ha, hts⟩ := List.pairwise_cons.mp hts
    rw [firstFit]
    cases hsplit : a.pattern.split cs with
    | some pair =>
      obtain ⟨l', r'⟩ := pair
      constructor
      · intro h
        cases h
        refine ⟨List.mem_cons_self, hsplit, fun s hs hlt => ?_⟩
        rcases List.mem_cons.mp hs with rfl | hs
        · exact absurd hlt (Nat.lt_irrefl _)
        · exact absurd hlt (Nat.lt_asymm (ha s hs))
      · rintro ⟨ht, hfit, hbefore⟩
        rcases List.mem_cons.mp ht with rfl | ht
        · rw [hsplit] at hfit
          cases hfit
          rfl
        · have hnone := hbefore a List.mem_cons_self (ha t ht)
          rw [hsplit] at hnone
          cases hnone
    | none =>
      show firstFit ts cs = some (t, l, r) ↔ _
      rw [ih hts]
      constructor
      · rintro ⟨ht, hfit, hbefore⟩
        refine ⟨List.mem_cons_of_mem a ht, hfit, fun s hs hlt => ?_⟩
        rcases List.mem_cons.mp hs with rfl | hs
        · exact hsplit
        · exact hbefore s hs hlt
      · rintro ⟨ht, hfit, hbefore⟩
        rcases List.mem_cons.mp ht with rfl | ht
        · rw [hsplit] at hfit
          cases hfit
        · exact ⟨ht, hfit, fun s hs hlt => hbefore s (List.mem_cons_of_mem a hs) hlt⟩

/-! ### The lexicons of the states -/

section
variable {state : Nat} {t : Terminal}

/-- The pool of a state has the skipped terminals and those with an action. -/
theorem mem_pool_ofState :
    t ∈ (ofState state).pool ↔
      t ∈ Terminal.trialOrder ∧ (t.isSkipped = true ∨ (action? state t).isSome = true) := by
  simp only [ofState, ofTerminals, possible, List.mem_filter, Bool.or_eq_true,
    List.contains_iff_mem]
  grind

/-- The terminals that a state tries are those of its pool that no other of them absorbs. -/
theorem mem_tried_ofState :
    t ∈ (ofState state).tried ↔
      t ∈ (ofState state).pool ∧ ∀ s ∈ (ofState state).pool, s.absorbs t = false := by
  show t ∈ (ofState state).pool.filter (fun s => !(ofState state).pool.any (·.absorbs s)) ↔ _
  simp only [List.mem_filter, Bool.not_eq_true', List.any_eq_false, Bool.not_eq_true]

/-- A class of words is absorbed by nothing. -/
theorem absorbs_of_class {s : Terminal} (h : t.spelling? = none) : s.absorbs t = false := by
  simp [Terminal.absorbs, h]

/-- A state tries its terminals in the order of their codes. -/
theorem ordered_tried_ofState : Ordered (ofState state).tried :=
  trialOrder_ordered.sublist ((List.filter_sublist).trans List.filter_sublist)

/-- Every state tries the classes that are skipped. -/
theorem skipped_mem_tried (hmem : t ∈ Terminal.trialOrder) (hskip : t.isSkipped = true)
    (hclass : t.spelling? = none) : t ∈ (ofState state).tried :=
  mem_tried_ofState.mpr ⟨mem_pool_ofState.mpr ⟨hmem, .inl hskip⟩, fun _ _ =>
    absorbs_of_class hclass⟩

/-- The table of lexers has the lexer of each state. -/
theorem ofStates_getD (h : state < Automaton.size) :
    ofStates.getD state default = ofState state := by
  simp [ofStates, h]

end

/-- A lexicon of a state outside of interpolated texts. -/
structure IsCode (l : Lexicon) : Prop where
  ordered : Ordered l.tried
  blanks : .blanks ∈ l.tried
  remark : .remark ∈ l.tried
  prose : .prose ∉ l.tried
  oneQuote : .quoted ∈ l.tried → .quote ∉ l.tried

/-- A lexicon of a state directly inside an interpolated text. -/
structure IsText (l : Lexicon) : Prop where
  ordered : Ordered l.tried
  prose : .prose ∈ l.tried
  only : ∀ t ∈ l.pool, t.isSkipped = true ∨ t = .prose ∨ t = .openBrace ∨ t = .quote
  tried_pool : ∀ t ∈ l.tried, t ∈ l.pool

section
variable {state : Nat} {t : Terminal}

theorem isSome_of_mem_pool (h : t ∈ (ofState state).pool) (hskip : t.isSkipped = false) :
    (action? state t).isSome = true := by
  have hpool := (mem_pool_ofState.mp h).2
  rw [hskip] at hpool
  rcases hpool with hpool | hpool
  · cases hpool
  · exact hpool

/-- A state outside of a text has a lexer for code. -/
theorem isCode_ofState (hs : state < Automaton.size) (hcode : Automaton.inText state = false) :
    (ofState state).IsCode where
  ordered := ordered_tried_ofState
  blanks := skipped_mem_tried (by decide) rfl rfl
  remark := skipped_mem_tried (by decide) rfl rfl
  prose h := by
    have hsome : Automaton.inText state = true :=
      isSome_of_mem_pool (mem_tried_ofState.mp h).1 rfl
    rw [hcode] at hsome
    cases hsome
  oneQuote hquoted hquote := by
    have hquoted := isSome_of_mem_pool (mem_tried_ofState.mp hquoted).1 rfl
    have hquote := isSome_of_mem_pool (mem_tried_ofState.mp hquote).1 rfl
    obtain ⟨a, ha⟩ := Option.isSome_iff_exists.mp hquoted
    obtain ⟨b, hb⟩ := Option.isSome_iff_exists.mp hquote
    exact Automaton.not_quoted_of_quote hs ha hb

/-- A state inside of a text has a lexer for text. -/
theorem isText_ofState (hs : state < Automaton.size) (htext : Automaton.inText state = true) :
    (ofState state).IsText where
  ordered := ordered_tried_ofState
  prose := mem_tried_ofState.mpr
    ⟨mem_pool_ofState.mpr ⟨by decide, .inr htext⟩, fun _ _ => absorbs_of_class rfl⟩
  only t ht := by
    cases hskip : t.isSkipped with
    | true => exact .inl rfl
    | false =>
      obtain ⟨a, ha⟩ := Option.isSome_iff_exists.mp (isSome_of_mem_pool ht hskip)
      exact .inr (Automaton.action_inText hs htext ha)
  tried_pool t ht := (mem_tried_ofState.mp ht).1

end

/-! ### What comes next -/

/-- `l.Skips cs gap cs'`: lexemes that are skipped make up `gap`, and `cs'` follows. -/
inductive Skips (l : Lexicon) : List Char → List Char → List Char → Prop
  | done {cs : List Char} : Skips l cs [] cs
  | skip {cs skipped after gap cs' : List Char} {t : Terminal}
      (hfit : firstFit l.tried cs = some (t, skipped, after)) (hs : t.isSkipped = true)
      (h : Skips l after gap cs') : Skips l cs (skipped ++ gap) cs'

/-- The text `cs` starts with the token `lexeme`, and `rest` follows. -/
def StartsWith (l : Lexicon) (cs : List Char) (lexeme : Lexeme) (rest : List Char) : Prop :=
  ∃ t, firstFit l.tried cs = some (t, lexeme.text, rest) ∧ t.isSkipped = false ∧
    lexeme.terminal = l.classify t lexeme.text

section
variable {l : Lexicon} {cs cs' gap rest : List Char} {lexeme : Lexeme}

/-- What fits first is one of those tried and splits the text. -/
theorem firstFit_spec {ts : List Terminal} {t : Terminal} {text : List Char}
    (h : firstFit ts cs = some (t, text, rest)) :
    t ∈ ts ∧ t.pattern.split cs = some (text, rest) := by
  induction ts with
  | nil => cases h
  | cons a ts ih =>
    rw [firstFit] at h
    cases hsplit : a.pattern.split cs with
    | none =>
      rw [hsplit] at h
      obtain ⟨ht, hfit⟩ := ih h
      exact ⟨List.mem_cons_of_mem a ht, hfit⟩
    | some pair =>
      rw [hsplit] at h
      cases h
      exact ⟨List.mem_cons_self, hsplit⟩

/-- What fits first takes a nonempty piece off the front of the text. -/
theorem firstFit_append {ts : List Terminal} {t : Terminal} {text : List Char}
    (h : firstFit ts cs = some (t, text, rest)) : cs = text ++ rest ∧ text ≠ [] :=
  ⟨(Pattern.split_append (firstFit_spec h).2).symm, Pattern.split_ne_nil (firstFit_spec h).2⟩

/-- A lexeme is a token of the class that it fits, or of the fixed spelling that it is. -/
theorem classify_cases (t : Terminal) (text : List Char) :
    l.classify t text = t ∨
      l.classify t text ∈ l.pool ∧ (l.classify t text).spelling? = some text := by
  rw [classify]
  cases hfind : l.pool.find? fun s => t.absorbs s && s.spelling? == some text with
  | none => exact .inl rfl
  | some s =>
    have hs := List.find?_some hfind
    rw [Bool.and_eq_true] at hs
    exact .inr ⟨List.mem_of_find?_eq_some hfind, eq_of_beq hs.2⟩

/-- A token of a fixed spelling is spelled so. -/
theorem StartsWith.text_eq {w : List Char} (h : l.StartsWith cs lexeme rest)
    (hw : lexeme.terminal.spelling? = some w) : lexeme.text = w := by
  obtain ⟨t, hfit, -, hclass⟩ := h
  rcases l.classify_cases t lexeme.text with hsame | ⟨-, hspelling⟩
  · rw [hclass, hsame] at hw
    have hpattern : t.pattern = .exactly w := by
      rw [Terminal.spelling?] at hw
      cases hp : t.pattern <;> rw [hp] at hw <;> cases hw
      rfl
    have hsplit := (firstFit_spec hfit).2
    rw [hpattern] at hsplit
    exact (Pattern.split_exactly_eq_some.mp hsplit).2.1
  · rw [hclass, hspelling] at hw
    exact Option.some.inj hw

theorem StartsWith.terminal_mem {state : Nat} (h : (ofState state).StartsWith cs lexeme rest) :
    lexeme.terminal ∈ Terminal.trialOrder := by
  obtain ⟨t, hfit, -, hclass⟩ := h
  have hpool : lexeme.terminal ∈ (ofState state).pool := by
    rw [hclass]
    rcases (ofState state).classify_cases t lexeme.text with hsame | ⟨hmem, -⟩
    · rw [hsame]
      exact (mem_tried_ofState.mp (firstFit_spec hfit).1).1
    · exact hmem
  exact (mem_pool_ofState.mp hpool).1

/-- A text that starts with a lexeme is the lexeme and the rest. -/
theorem StartsWith.eq_append (h : l.StartsWith cs lexeme rest) : cs = lexeme.text ++ rest := by
  obtain ⟨t, hfit, -⟩ := h
  exact (firstFit_append hfit).1

/-- No lexeme is empty. -/
theorem StartsWith.ne_nil (h : l.StartsWith cs lexeme rest) : lexeme.text ≠ [] := by
  obtain ⟨t, hfit, -⟩ := h
  exact (firstFit_append hfit).2

/-- A text with a gap is the gap and the rest. -/
theorem Skips.eq_append (h : l.Skips cs gap cs') : cs = gap ++ cs' := by
  induction h with
  | done => rfl
  | skip hfit hs h ih => rw [(firstFit_append hfit).1, ih, List.append_assoc]

/-- Two gaps after each other are one gap. -/
theorem Skips.trans {gap' : List Char} (h : l.Skips cs gap cs') (h' : l.Skips cs' gap' rest) :
    l.Skips cs (gap ++ gap') rest := by
  induction h with
  | done => exact h'
  | skip hfit hs h ih =>
    rw [List.append_assoc]
    exact .skip hfit hs (ih h')

/-- A token that is found stands behind a gap. -/
theorem nextWithin_eq_token {fuel : Nat} {place place' : Place} {tok : Token}
    (h : l.nextWithin fuel cs place = .token tok rest place') :
    ∃ gap cs', l.Skips cs gap cs' ∧ l.StartsWith cs' ⟨tok.terminal, tok.text⟩ rest := by
  fun_induction nextWithin l fuel cs place with
  | case1 => cases h
  | case2 => cases h
  | case3 => cases h
  | case4 fuel cs place _ t lexeme after hfit hs ih =>
    obtain ⟨gap, cs', hskips, hstarts⟩ := ih h
    exact ⟨lexeme ++ gap, cs', .skip hfit hs hskips, hstarts⟩
  | case5 fuel cs place _ t lexeme after hfit hs =>
    cases h
    exact ⟨[], cs, .done, t, hfit, Bool.eq_false_iff.mpr hs, rfl⟩

/-- If no token is found, the whole text is a gap. -/
theorem nextWithin_eq_nothing {fuel : Nat} {place : Place}
    (h : l.nextWithin fuel cs place = .nothing) : l.Skips cs cs [] := by
  fun_induction nextWithin l fuel cs place with
  | case1 => exact .done
  | case2 => cases h
  | case3 => cases h
  | case4 fuel cs place _ t lexeme after hfit hs ih =>
    have hskip := Skips.skip hfit hs (ih h)
    rwa [← (firstFit_append hfit).1] at hskip
  | case5 => cases h

/-- One step of the lexer: a terminal that is skipped moves on, another gives a token. -/
theorem nextWithin_of_fit {fuel : Nat} {t : Terminal} {text : List Char} (place : Place)
    (hfit : firstFit l.tried cs = some (t, text, rest)) :
    l.nextWithin (fuel + 1) cs place =
      if t.isSkipped then l.nextWithin fuel rest (place.after text)
      else .token ⟨l.classify t text, text, place⟩ rest (place.after text) := by
  cases cs with
  | nil =>
    obtain ⟨hnil, hne⟩ := firstFit_append hfit
    exact absurd (List.append_eq_nil_iff.mp hnil.symm).1 hne
  | cons c cs => rw [nextWithin, hfit]; exact nofun

/-- What is skipped does not matter for what comes next, the place apart. -/
theorem nextWithin_of_skips (h : l.Skips cs gap cs') {fuel : Nat} (hfuel : cs.length ≤ fuel)
    (place : Place) : ∃ fuel' place', cs'.length ≤ fuel' ∧
      l.nextWithin fuel cs place = l.nextWithin fuel' cs' place' := by
  induction h generalizing fuel place with
  | done => exact ⟨fuel, place, hfuel, rfl⟩
  | skip hfit hs h ih =>
    have hlt := firstFit_length_lt hfit
    obtain ⟨n, rfl⟩ : ∃ n, fuel = n + 1 := ⟨fuel - 1, by omega⟩
    rw [nextWithin_of_fit place hfit, if_pos hs]
    exact ih (by omega) _

/-- The lexeme behind a gap is the next token. -/
theorem next_of_startsWith (hskips : l.Skips cs gap cs') (h : l.StartsWith cs' lexeme rest)
    (place : Place) : ∃ place₁ place₂,
      l.next cs place = .token ⟨lexeme.terminal, lexeme.text, place₁⟩ rest place₂ := by
  obtain ⟨fuel, place', hfuel, heq⟩ := nextWithin_of_skips hskips (Nat.le_refl _) place
  obtain ⟨t, hfit, hs, hclass⟩ := h
  have hlt := firstFit_length_lt hfit
  obtain ⟨n, rfl⟩ : ∃ n, fuel = n + 1 := ⟨fuel - 1, by omega⟩
  refine ⟨place', place'.after lexeme.text, ?_⟩
  rw [next, heq, nextWithin_of_fit place' hfit, if_neg (by rw [hs]; exact nofun), hclass]

/-- A text that is one gap has no next token. -/
theorem next_of_skips_all (h : l.Skips cs gap []) (place : Place) : l.next cs place = .nothing := by
  obtain ⟨fuel, place', -, heq⟩ := nextWithin_of_skips h (Nat.le_refl _) place
  rw [next, heq, nextWithin]

end
end Lexicon

/-! ### Layout -/

/-- Blanks and whole remarks. -/
inductive Layout : List Char → Prop
  | nil : Layout []
  | blank {b : Char} {cs : List Char} (hb : isBlank b = true) (h : Layout cs) : Layout (b :: cs)
  | remark {line cs : List Char} (hline : '\n' ∉ line) (h : Layout cs) :
      Layout ('~' :: '~' :: line ++ '\n' :: cs)

/-- Blanks and remarks to the end of a text, where the last remark needs no line break. -/
inductive Trailing : List Char → Prop
  | layout {cs : List Char} (h : Layout cs) : Trailing cs
  | remark {cs line : List Char} (h : Layout cs) (hline : '\n' ∉ line) :
      Trailing (cs ++ '~' :: '~' :: line)

section
variable {cs cs' line : List Char} {b : Char}

theorem Layout.append (h : Layout cs) (h' : Layout cs') : Layout (cs ++ cs') := by
  induction h with
  | nil => exact h'
  | blank hb h ih => exact .blank hb ih
  | remark hline h ih =>
    have hremark := Layout.remark hline ih
    simpa using hremark

/-- Blanks are layout. -/
theorem Layout.of_blanks (h : ∀ c ∈ cs, isBlank c = true) : Layout cs := by
  induction cs with
  | nil => exact .nil
  | cons b cs ih =>
    exact .blank (h b List.mem_cons_self) (ih fun c hc => h c (List.mem_cons_of_mem b hc))

/-- Layout stays layout without a blank in front. -/
theorem Layout.tail (h : Layout (b :: cs)) (hb : isBlank b = true) : Layout cs := by
  cases h with
  | blank _ h => exact h
  | remark hline h => cases hb

theorem Trailing.tail (h : Trailing (b :: cs)) (hb : isBlank b = true) : Trailing cs := by
  generalize hwhole : b :: cs = whole at h
  cases h with
  | layout h => subst hwhole; exact .layout (h.tail hb)
  | @remark front line h hline =>
    cases front with
    | nil => cases hwhole; cases hb
    | cons c front => cases hwhole; exact .remark (h.tail hb) hline

/-- Layout before a trailing gap makes a trailing gap. -/
theorem Layout.append_trailing (h : Layout cs) (h' : Trailing cs') : Trailing (cs ++ cs') := by
  cases h' with
  | layout h' => exact .layout (h.append h')
  | remark h' hline =>
    rw [← List.append_assoc]
    exact .remark (h.append h') hline

/-- A last remark runs on into a layout that follows it, up to the next line break. -/
theorem Trailing.of_remark_append (hline : '\n' ∉ line) (h : Layout cs) :
    Trailing ('~' :: '~' :: line ++ cs) := by
  induction h generalizing line with
  | nil => simpa using Trailing.remark .nil hline
  | @blank b cs hb h ih =>
    by_cases hbreak : b = '\n'
    · subst hbreak
      exact .layout (.remark hline h)
    · have hline' : '\n' ∉ line ++ [b] := by simp [hline, Ne.symm hbreak]
      simpa using ih hline'
  | @remark line' cs hline' h ih =>
    have hboth : '\n' ∉ line ++ '~' :: '~' :: line' := by simp [hline, hline']
    have hremark := Layout.remark hboth h
    exact .layout (by simpa using hremark)

/-- Layout after a trailing gap makes a trailing gap. -/
theorem Trailing.append (h : Trailing cs) (h' : Layout cs') : Trailing (cs ++ cs') := by
  cases h with
  | layout h => exact .layout (h.append h')
  | remark h hline =>
    rw [List.append_assoc]
    exact h.append_trailing (.of_remark_append hline h')

end

namespace Lexicon.IsCode

variable {l : Lexicon} (hl : l.IsCode) {cs gap rest : List Char} {b : Char}
include hl

/-- In code the blanks in front are taken together. -/
theorem firstFit_blank (hb : isBlank b = true) :
    firstFit l.tried (b :: cs) =
      some (.blanks, b :: cs.takeWhile isBlank, cs.dropWhile isBlank) := by
  refine (firstFit_eq_some_iff hl.ordered).mpr ⟨hl.blanks, ?_, fun s hs hlt => ?_⟩
  · show cutRun isBlank (b :: cs) = _
    rw [cutRun_cons, if_pos hb]
  · cases hsplit : s.pattern.split (b :: cs) with
    | none => rfl
    | some pair =>
      rcases Terminal.eq_of_split_blank hb hsplit with rfl | rfl
      · exact absurd hs hl.prose
      · exact absurd hlt (Nat.lt_irrefl _)

/-- In code a remark is taken to the end of its line. -/
theorem firstFit_remark {line : List Char} (hline : '\n' ∉ line)
    (hrest : ∀ c ∈ rest.head?, c = '\n') :
    firstFit l.tried ('~' :: '~' :: line ++ rest) = some (.remark, '~' :: '~' :: line, rest) := by
  refine (firstFit_eq_some_iff hl.ordered).mpr
    ⟨hl.remark, Pattern.split_remark_eq_some.mpr ⟨line, rfl, rfl, hline, hrest⟩, fun s hs hlt => ?_⟩
  cases hsplit : s.pattern.split ('~' :: '~' :: line ++ rest) with
  | none => rfl
  | some pair =>
    rcases Terminal.le_of_split_tilde hsplit with rfl | hle
    · exact absurd hs hl.prose
    · exact absurd hlt (Nat.not_lt.mpr hle)

/-- In code no lexeme opens with a blank. -/
theorem not_blank_of_startsWith {lexeme : Lexeme} (h : l.StartsWith cs lexeme rest) :
    ∀ c ∈ cs.head?, isBlank c = false := by
  intro c hc
  cases hblank : isBlank c with
  | false => rfl
  | true =>
    obtain ⟨t, hfit, hs, -⟩ := h
    cases cs with
    | nil => cases hc
    | cons c cs =>
      cases hc
      rw [hl.firstFit_blank hblank, Option.some.injEq, Prod.mk.injEq] at hfit
      rw [← hfit.1] at hs
      cases hs

/-- One more blank in front makes the gap longer by one. -/
theorem skips_blank (hb : isBlank b = true) (hrest : ∀ c ∈ rest.head?, isBlank c = false)
    (h : l.Skips cs gap rest) : l.Skips (b :: cs) (b :: gap) rest := by
  by_cases hhead : ∀ c ∈ cs.head?, isBlank c = false
  · -- the run of blanks is `b` alone
    obtain ⟨htake, hdrop⟩ := span_eq_iff.mpr ⟨(List.nil_append cs).symm, nofun, hhead⟩
    have hfit : firstFit l.tried (b :: cs) = _ := hl.firstFit_blank hb
    rw [htake, hdrop] at hfit
    exact .skip hfit rfl h
  · -- the run of blanks goes on with the one that `cs` starts with
    cases cs with
    | nil => exact absurd nofun hhead
    | cons c cs =>
      have hc : isBlank c = true := by simpa using hhead
      cases h with
      | done => rw [hrest c rfl] at hc; cases hc
      | skip hfit hs h =>
        rw [hl.firstFit_blank hc] at hfit
        cases hfit
        have hfit : firstFit l.tried (b :: c :: cs) = _ := hl.firstFit_blank hb
        rw [List.takeWhile_cons_of_pos hc, List.dropWhile_cons_of_pos hc] at hfit
        exact .skip hfit rfl h

/-- **A layout is skipped.** -/
theorem skips_layout (h : Layout gap) (hrest : ∀ c ∈ rest.head?, isBlank c = false) :
    l.Skips (gap ++ rest) gap rest := by
  induction h with
  | nil => exact .done
  | blank hb h ih => exact hl.skips_blank hb hrest ih
  | @remark line cs hline h ih =>
    have hbreak := hl.skips_blank (b := '\n') rfl hrest ih
    have hfit : firstFit l.tried ('~' :: '~' :: line ++ '\n' :: (cs ++ rest)) = _ :=
      hl.firstFit_remark hline (by simp)
    simpa using Skips.skip hfit rfl hbreak

/-- Code skips a trailing gap to the end. -/
theorem skips_trailing (h : Trailing gap) : l.Skips gap gap [] := by
  cases h with
  | layout h =>
    have hskips : l.Skips (gap ++ []) gap [] := hl.skips_layout h nofun
    rwa [List.append_nil] at hskips
  | @remark cs line h hline =>
    have hfit : firstFit l.tried ('~' :: '~' :: line ++ []) = _ := hl.firstFit_remark hline nofun
    rw [List.append_nil] at hfit
    have hlast := Skips.skip hfit rfl .done
    rw [List.append_nil] at hlast
    exact (hl.skips_layout h (by simp [isBlank])).trans hlast

/-- What is skipped is a layout, or one with a last remark at the end of the text. -/
theorem trailing_of_skips (h : l.Skips cs gap rest) (hrest : ∀ c ∈ rest.head?, isBlank c = false) :
    Trailing gap ∧ (rest ≠ [] → Layout gap) := by
  induction h with
  | done => exact ⟨.layout .nil, fun _ => .nil⟩
  | @skip cs skipped after gap rest t hfit hs h ih =>
    obtain ⟨htrailing, hlayout⟩ := ih hrest
    obtain ⟨-, hsplit, -⟩ := (firstFit_eq_some_iff hl.ordered).mp hfit
    rcases Terminal.eq_of_isSkipped hs with rfl | rfl
    · obtain ⟨-, -, hblanks, -⟩ := cutRun_eq_some.mp hsplit
      have hfront := Layout.of_blanks hblanks
      exact ⟨hfront.append_trailing htrailing, fun hne => hfront.append (hlayout hne)⟩
    · obtain ⟨line, rfl, -, hline, hbreak⟩ := Pattern.split_remark_eq_some.mp hsplit
      have hafter := h.eq_append
      cases gap with
      | nil =>
        -- a line break cannot follow what is skipped, so the remark is the last
        have hnil : rest = [] := by
          cases rest with
          | nil => rfl
          | cons c rest =>
            have hc : c = '\n' := hbreak c (by rw [hafter]; rfl)
            have hblank := hrest c rfl
            rw [hc] at hblank
            cases hblank
        exact ⟨by simpa using Trailing.remark .nil hline, fun hne => absurd hnil hne⟩
      | cons c gap =>
        have hc : c = '\n' := hbreak c (by rw [hafter]; rfl)
        subst hc
        have hfront : Layout ('~' :: '~' :: line ++ ['\n']) := .remark hline .nil
        refine ⟨?_, fun hne => ?_⟩
        · simpa using hfront.append_trailing (htrailing.tail rfl)
        · exact .remark hline ((hlayout hne).tail rfl)

/-- **The same token is cut off two texts that agree up to a blank behind it.** -/
theorem startsWith_stop {lexeme : Lexeme} {u r v : List Char}
    (h : l.StartsWith (lexeme.text ++ u ++ r) lexeme (u ++ r)) (hv : Stops v) :
    l.StartsWith (lexeme.text ++ u ++ v) lexeme (u ++ v) := by
  have hne := h.ne_nil
  have hblank := hl.not_blank_of_startsWith h
  obtain ⟨t, hfit, hs, hclass⟩ := h
  obtain ⟨ht, hsplit, hbefore⟩ := (firstFit_eq_some_iff hl.ordered).mp hfit
  refine ⟨t, (firstFit_eq_some_iff hl.ordered).mpr ⟨ht, ?_, fun s hmem hlt => ?_⟩, hs, hclass⟩
  · by_cases hq : t = .quoted
    · subst hq
      obtain ⟨body, hl, -, hbody⟩ := Pattern.split_quoted_eq_some.mp hsplit
      exact Pattern.split_quoted_eq_some.mpr ⟨body, hl, List.append_assoc .., hbody⟩
    · have hp : t ≠ .prose := fun hp => hl.prose (hp ▸ ht)
      rw [Pattern.split_stop (Terminal.isPlain_pattern hq hp hs) hv, Pattern.split_left hsplit]
      rfl
  · have hnone := hbefore s hmem hlt
    by_cases hq : s = .quoted
    · -- a quote at the front would be a whole text in quotes, or end an interpolated text
      subst hq
      cases hnew : Terminal.quoted.pattern.split (lexeme.text ++ u ++ v) with
      | none => rfl
      | some pair =>
        obtain ⟨c, text, htext⟩ := List.exists_cons_of_ne_nil hne
        rw [htext] at hnew hsplit
        have hc : c = '"' := by simpa [Terminal.pattern, Pattern.opensWith] using
          Pattern.opensWith_of_split hnew
        subst hc
        rcases Terminal.eq_of_split_quote hsplit with rfl | rfl
        · exact absurd hlt (Nat.lt_irrefl _)
        · exact absurd ht (hl.oneQuote hmem)
    · have hkind : s.pattern.isPlain = true ∨ s.pattern = .blanks ∨ s.pattern = .remark := by
        cases hskip : s.isSkipped with
        | false => exact .inl (Terminal.isPlain_pattern hq (fun hp => hl.prose (hp ▸ hmem)) hskip)
        | true =>
          rcases Terminal.eq_of_isSkipped hskip with rfl | rfl
          · exact .inr (.inl rfl)
          · exact .inr (.inr rfl)
      exact Pattern.split_none_stop hkind (by simp [hne]) hv hnone

end Lexicon.IsCode

/-! ### Directly inside a text -/

namespace Lexicon.IsText

variable {l : Lexicon} (hl : l.IsText) {cs gap rest : List Char}
include hl

/-- Nothing is skipped: blanks and tildes are prose there. -/
theorem not_skipped {t : Terminal} {text : List Char}
    (hfit : firstFit l.tried cs = some (t, text, rest)) : t.isSkipped = false := by
  obtain ⟨-, hsplit, hbefore⟩ := (firstFit_eq_some_iff hl.ordered).mp hfit
  cases hskip : t.isSkipped with
  | false => rfl
  | true =>
    cases cs with
    | nil =>
      obtain ⟨hnil, hne⟩ := firstFit_append hfit
      exact absurd (List.append_eq_nil_iff.mp hnil.symm).1 hne
    | cons c cs =>
      have hopens := Pattern.opensWith_of_split hsplit
      have hprose : isProse c = true := by
        rcases Terminal.eq_of_isSkipped hskip with rfl | rfl
        · exact isProse_blank hopens
        · rw [show c = '~' from eq_of_beq hopens]
          rfl
      have hlt : Terminal.prose.code < t.code := by
        rcases Terminal.eq_of_isSkipped hskip with rfl | rfl <;> decide
      have hnone : cutRun isProse (c :: cs) = none := hbefore .prose hl.prose hlt
      rw [cutRun_cons, if_pos hprose] at hnone
      cases hnone

/-- In a text nothing is skipped. -/
theorem eq_nil_of_skips (h : l.Skips cs gap rest) : gap = [] := by
  cases h with
  | done => rfl
  | skip hfit hs h => rw [hl.not_skipped hfit] at hs; cases hs

/-- In a text only prose, an opening brace and the closing quote are tried. -/
theorem eq_of_mem {t : Terminal} (ht : t ∈ l.tried) (hs : t.isSkipped = false) :
    t = .prose ∨ t = .openBrace ∨ t = .quote := by
  rcases hl.only t (hl.tried_pool t ht) with hskip | h
  · rw [hs] at hskip
    cases hskip
  · exact h

/-- What holds of the few terminals that are possible holds of the lexicon. -/
theorem forall_pool {q : Terminal → Prop}
    (h : ∀ t ∈ [Terminal.blanks, .remark, .prose, .openBrace, .quote], q t) :
    ∀ t ∈ l.pool, q t := by
  intro t ht
  rcases hl.only t ht with hskip | rfl | rfl | rfl
  · rcases Terminal.eq_of_isSkipped hskip with rfl | rfl <;> exact h _ (by simp)
  all_goals exact h _ (by simp)

/-- Prose is not taken for a token of a fixed spelling. -/
theorem classify_prose (text : List Char) : l.classify .prose text = .prose := by
  have hfree : ∀ s ∈ l.pool, Terminal.prose.absorbs s = false := hl.forall_pool (by decide)
  have hnone : (l.pool.find? fun s => Terminal.prose.absorbs s && s.spelling? == some text) =
      none := by
    refine List.find?_eq_none.mpr fun s hs hfound => ?_
    rw [hfree s hs] at hfound
    cases hfound
  rw [classify, hnone]
  rfl

/-- The same token is cut off two texts that agree behind it; behind prose they share a
character. -/
theorem startsWith_left {lexeme : Lexeme} {u r v : List Char}
    (h : l.StartsWith (lexeme.text ++ u ++ r) lexeme (u ++ r))
    (hu : lexeme.terminal = .prose → u ≠ []) :
    l.StartsWith (lexeme.text ++ u ++ v) lexeme (u ++ v) := by
  obtain ⟨t, hfit, hs, hclass⟩ := h
  obtain ⟨ht, hsplit, -⟩ := (firstFit_eq_some_iff hl.ordered).mp hfit
  refine ⟨t, (firstFit_eq_some_iff hl.ordered).mpr ?_, hs, hclass⟩
  by_cases hprose : t = .prose
  · subst hprose
    rw [hl.classify_prose] at hclass
    obtain ⟨hne, -, hrun, hend⟩ := cutRun_eq_some.mp hsplit
    refine ⟨ht, cutRun_eq_some.mpr ⟨hne, List.append_assoc .., hrun, ?_⟩, fun s hmem hlt => ?_⟩
    · obtain ⟨c, u, rfl⟩ := List.exists_cons_of_ne_nil (hu hclass)
      exact hend
    · have hfirst : ∀ s ∈ l.pool, ¬ s.code < Terminal.prose.code := hl.forall_pool (by decide)
      exact absurd hlt (hfirst s (hl.tried_pool s hmem))
  · obtain ⟨c, hpattern, hopens⟩ : ∃ c, t.pattern = .exactly [c] ∧
        ∀ s ∈ l.pool, s.code < t.code → s.pattern.opensWith c = false := by
      rcases hl.eq_of_mem ht hs with rfl | rfl | rfl
      · exact absurd rfl hprose
      · exact ⟨'\x7b', rfl, hl.forall_pool (by decide)⟩
      · exact ⟨'"', rfl, hl.forall_pool (by decide)⟩
    rw [hpattern] at hsplit
    obtain ⟨hne, htext, -⟩ := Pattern.split_exactly_eq_some.mp hsplit
    rw [htext]
    refine ⟨ht, ?_, fun s hmem hlt => ?_⟩
    · rw [hpattern]
      exact Pattern.split_exactly_eq_some.mpr ⟨hne, rfl, List.append_assoc ..⟩
    · cases hnew : s.pattern.split ([c] ++ u ++ v) with
      | none => rfl
      | some pair =>
        have hopen := Pattern.opensWith_of_split hnew
        rw [hopens s (hl.tried_pool s hmem) hlt] at hopen
        cases hopen

end Lexicon.IsText
end Spellbook
