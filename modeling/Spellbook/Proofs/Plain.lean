import Spellbook.Proofs.Completeness

/-!
# Plain programs

The part of the language that declares, assigns and reveals runes and calculates with whole numbers
(`plainPrograms`). What the tables say of it is checked once (`fragments_checked`), and in the same
theorem for the programs that reveal literals (`literalPrograms`), since working the tables out
takes longest. A lexer tells the tokens of plain programs apart if a blank follows each operator,
and no letter or digit each name or number (`PlainToken.separates`), so such programs are read as
they are derived (`Tree.read_plain`).
-/

namespace Spellbook

open Automaton (size inText)

/-- Programs of declarations, assignments and revelations, with calculations on whole numbers and
runes. -/
def plainPrograms : Fragment where
  terminals :=
    [.rune, .reveal, .name, .equals, .semicolon, .either, .both, .compareOp, .addOp, .mulOp,
    .bang, .minus, .roundOp, .caret, .openParen, .closeParen, .whole]
  nonterminals :=
    [.start, .instructions, .instruction, .declare, .assign, .reveal, .name, .expression,
    .eitherExpr, .bothExpr, .compareExpr, .sumExpr, .productExpr, .unaryExpr, .powerExpr, .primary,
    .number, .runeExpr]
  first
    | .start | .instructions | .instruction => [.rune, .reveal, .name]
    | .declare => [.rune]
    | .reveal => [.reveal]
    | .assign | .name | .runeExpr => [.name]
    | .number => [.whole]
    | .powerExpr | .primary => [.openParen, .whole, .name]
    | _ => [.bang, .minus, .roundOp, .openParen, .whole, .name]
  follow
    | .start => [.textEnd]
    | .instructions | .instruction => [.textEnd, .rune, .reveal, .name]
    | .declare | .assign | .reveal => [.semicolon]
    | .name => [.equals, .semicolon]
    | .expression => [.semicolon, .closeParen]
    | .eitherExpr => [.semicolon, .closeParen, .either]
    | .bothExpr | .compareExpr => [.semicolon, .closeParen, .either, .both]
    | .sumExpr => [.semicolon, .closeParen, .either, .both, .compareOp, .addOp]
    | .productExpr | .unaryExpr =>
      [.semicolon, .closeParen, .either, .both, .compareOp, .addOp, .mulOp]
    | _ => [.semicolon, .closeParen, .either, .both, .compareOp, .addOp, .mulOp, .caret]
  apartFrom
    | .name => [.runeExpr]
    | _ => []

def literalPrograms : Fragment where
  terminals := [.reveal, .quoted, .semicolon]
  nonterminals :=
    [.start, .instructions, .instruction, .reveal, .expression, .eitherExpr, .bothExpr,
    .compareExpr, .sumExpr, .productExpr, .unaryExpr, .powerExpr, .primary]
  first
    | .start | .instructions | .instruction | .reveal => [.reveal]
    | _ => [.quoted]
  follow
    | .start => [.textEnd]
    | .instructions | .instruction => [.textEnd, .reveal]
    | _ => [.semicolon]
  apartFrom _ := []

/-- A production of the grammar whose symbols all are in a fragment is one of the fragment. -/
theorem Fragment.mem_productions {f : Fragment} {p : Production} (hp : p ∈ Grammar.productions)
    (h : f.hasProduction p = true) : p ∈ f.productions := by
  obtain ⟨k, hk⟩ := List.getElem?_of_mem hp
  have hnumbered : (p, k) ∈ f.numbered :=
    List.mem_filter.mpr ⟨List.mem_zipIdx_iff_getElem?.mpr hk, h⟩
  exact List.mem_map.mpr ⟨(p, k), hnumbered, rfl⟩

theorem plain_mem {p : Production} (hp : p ∈ Grammar.productions)
    (h : plainPrograms.hasProduction p = true) :
    p ∈ plainPrograms.productions :=
  Fragment.mem_productions hp h

/-! ### Tokens -/

/-- The terminals that a lexer could take for another one, where both are possible. -/
def Terminal.rivals : Terminal → List Terminal
  | roundOp => [mulOp, caret, tilde]
  | caret => [roundOp]
  | addOp => [minus]
  | minus => [addOp]
  | tilde => [roundOp]
  | _ => []

/-- The words that can stand where a plain program has a name. -/
def wordsAtNames : List Terminal :=
  [.incantation, .truth, .transmute, .foretell, .proclaim, .shatter, .persist, .measure, .mayhaps,
   .sealedWord, .dispel, .listen, .reveal, .cycle, .tome, .castWord, .rune, .sealWord]

/-- What is checked of the tokens that a state expects: no rival is possible, and if it is a name,
no words but those listed. -/
def tokensOk (state : Nat) : Bool :=
  (plainPrograms.terminals.all fun t => !plainPrograms.expects state t ||
    t.rivals.all fun r => (action? state r).isNone) &&
  (!plainPrograms.expects state .name || Terminal.trialOrder.all fun t =>
    Nat.ble Terminal.name.code t.code || (action? state t).isNone ||
      [Terminal.decimal, .whole, .quoted].contains t || wordsAtNames.contains t)

/-- What is checked of the states that expect a numeral: nothing that starts with a plus is
possible. -/
def operandOk (state : Nat) : Bool :=
  !plainPrograms.expects state .whole || Terminal.trialOrder.all fun t =>
    !t.pattern.opensWith '+' || (action? state t).isNone

/-- The tables of both fragments, checked together. -/
theorem fragments_checked : plainPrograms.Checked ∧ (List.range size).all tokensOk = true ∧
    literalPrograms.Checked ∧ (List.range size).all operandOk = true := by
  decide +kernel

theorem plainPrograms_checked : plainPrograms.Checked := fragments_checked.1

theorem literalPrograms_checked : literalPrograms.Checked := fragments_checked.2.2.1

theorem Terminal.rivals_not_skipped (t : Terminal) : ∀ r ∈ t.rivals, r.isSkipped = false := by
  cases t <;> decide

/-- A class and a spelling that it absorbs are rivals, prose apart. -/
theorem Terminal.absorbs_cases : ∀ t ∈ trialOrder, ∀ s ∈ trialOrder, t.absorbs s = true →
    t = .prose ∨ (t ∈ s.rivals ∧ s ∈ t.rivals) := by
  decide +kernel

namespace Fragment

variable {f : Fragment} {state : Nat} {t : Terminal}

/-- A terminal that is expected in a state has an action there. -/
theorem isSome_of_expects (h : f.expects state t = true) : (action? state t).isSome = true := by
  rw [expects, Bool.and_eq_true, Bool.or_eq_true] at h
  rcases h.2 with hmove | hclose
  · obtain ⟨n, hn⟩ := Option.isSome_iff_exists.mp hmove
    rw [Automaton.action_of_move hn]
    rfl
  · obtain ⟨⟨p, k⟩, -, hk⟩ := List.any_eq_true.mp hclose
    rw [Bool.and_eq_true] at hk
    rw [eq_of_isReduce hk.2]
    rfl

/-- A state that expects a terminal of a checked fragment is outside of a text. -/
theorem Checked.not_inText_of_expects (hf : f.Checked) (hs : state < size)
    (h : f.expects state t = true) : inText state = false := by
  rw [expects, Bool.and_eq_true] at h
  exact hf.not_inText hs h.1

/-- No rival of a token is possible where the token is expected. -/
def Unrivalled (f : Fragment) (t : Terminal) : Prop :=
  ∀ state < size, f.expects state t = true → ∀ s ∈ (Lexicon.ofState state).pool, s ∉ t.rivals

/-- A terminal without rivals is unrivalled. -/
theorem Unrivalled.of_nil (h : t.rivals = []) : f.Unrivalled t := by
  intro state hs hexp s hmem
  rw [h]
  exact List.not_mem_nil

section
variable (hf : f.Checked) (hs : state < size)
include hf hs

/-- Where a checked fragment expects a terminal, prose is not in the pool. -/
theorem Checked.not_prose {s : Terminal} (hexp : f.expects state t = true)
    (hmem : s ∈ (Lexicon.ofState state).pool) : s ≠ .prose := by
  rintro rfl
  have hin : inText state = true := Lexicon.isSome_of_mem_pool hmem rfl
  rw [hf.not_inText_of_expects hs hexp] at hin
  cases hin

/-- A token that fits is cut off if no terminal that is tried before it fits. -/
theorem Checked.startsWith {l : Lexeme} {v : List Char} (hfree : f.Unrivalled l.terminal)
    (hexp : f.expects state l.terminal = true)
    (hsplit : l.terminal.pattern.split (l.text ++ v) = some (l.text, v))
    (hbefore : ∀ s ∈ (Lexicon.ofState state).pool, s.code < l.terminal.code →
      s.pattern.split (l.text ++ v) = none)
    (hl : l.terminal ∈ Terminal.trialOrder ∧ l.terminal.isSkipped = false) :
    (Lexicon.ofState state).StartsWith (l.text ++ v) l v := by
  obtain ⟨horder, hskip⟩ := hl
  have hpool : l.terminal ∈ (Lexicon.ofState state).pool :=
    Lexicon.mem_pool_ofState.mpr ⟨horder, .inr (isSome_of_expects hexp)⟩
  have htried : l.terminal ∈ (Lexicon.ofState state).tried := by
    refine Lexicon.mem_tried_ofState.mpr ⟨hpool, fun s hmem =>
      Bool.eq_false_iff.mpr fun habsorbs => ?_⟩
    rcases Terminal.absorbs_cases s (Lexicon.mem_pool_ofState.mp hmem).1 _ horder habsorbs with
      hprose | ⟨hr, -⟩
    · exact hf.not_prose hs hexp hmem hprose
    · exact hfree state hs hexp s hmem hr
  have hclass : ((Lexicon.ofState state).pool.find? fun s =>
      l.terminal.absorbs s && s.spelling? == some l.text) = none := by
    refine List.find?_eq_none.mpr fun s hmem hfound => ?_
    rw [Bool.and_eq_true] at hfound
    rcases Terminal.absorbs_cases _ horder s (Lexicon.mem_pool_ofState.mp hmem).1 hfound.1 with
      hprose | ⟨-, hr⟩
    · exact hf.not_prose hs hexp hpool hprose
    · exact hfree state hs hexp s hmem hr
  refine ⟨l.terminal, (Lexicon.firstFit_eq_some_iff Lexicon.ordered_tried_ofState).mpr
    ⟨htried, hsplit, fun s hmem hlt => ?_⟩, hskip, ?_⟩
  · exact hbefore s (Lexicon.mem_tried_ofState.mp hmem).1 hlt
  · rw [Lexicon.classify, hclass, Option.getD_none]

end
end Fragment

theorem plain_terminals_known :
    ∀ t ∈ plainPrograms.terminals, t ∈ Terminal.trialOrder ∧ t.isSkipped = false := by
  decide

/-- The terminals of plain programs have no rivals where they are expected. -/
theorem plain_unrivalled {t : Terminal} (ht : t ∈ plainPrograms.terminals) :
    plainPrograms.Unrivalled t := by
  intro state hs hexp s hmem hr
  have hok := List.all_eq_true.mp fragments_checked.2.1 state (List.mem_range.mpr hs)
  rw [tokensOk, Bool.and_eq_true] at hok
  have hrivals := List.all_eq_true.mp hok.1 t ht
  rw [hexp, Bool.not_true, Bool.false_or] at hrivals
  have hnone := Option.isNone_iff_eq_none.mp (List.all_eq_true.mp hrivals s hr)
  have hsome := Lexicon.isSome_of_mem_pool hmem (t.rivals_not_skipped s hr)
  rw [hnone] at hsome
  cases hsome

/-- Of the terminals tried before names, only numbers, texts and some words are possible where a
name is expected. -/
theorem word_of_expects_name {state : Nat} {s : Terminal} (hs : state < size)
    (hexp : plainPrograms.expects state .name = true) (hmem : s ∈ (Lexicon.ofState state).pool)
    (hlt : s.code < Terminal.name.code) :
    s ∈ [Terminal.decimal, .whole, .quoted] ∨ s ∈ wordsAtNames := by
  have hok := List.all_eq_true.mp fragments_checked.2.1 state (List.mem_range.mpr hs)
  rw [tokensOk, Bool.and_eq_true, hexp, Bool.not_true, Bool.false_or] at hok
  have hword := List.all_eq_true.mp hok.2 s (Lexicon.mem_pool_ofState.mp hmem).1
  simp only [Bool.or_eq_true, List.contains_iff_mem] at hword
  rcases hword with ((hle | hnone) | h) | h
  · exact absurd hlt (Nat.not_lt.mpr (Nat.le_of_ble_eq_true hle))
  · have hskip : s.isSkipped = false := Bool.eq_false_iff.mpr fun hskip => by
      rcases Terminal.eq_of_isSkipped hskip with rfl | rfl <;> exact absurd hlt (by decide)
    have hsome := Lexicon.isSome_of_mem_pool hmem hskip
    rw [Option.isNone_iff_eq_none.mp hnone] at hsome
    cases hsome
  · exact .inl h
  · exact .inr h

/-- No terminal that starts with a plus is possible where a numeral is expected. -/
theorem not_opensWith_plus {state : Nat} {s : Terminal} (hs : state < size)
    (hexp : plainPrograms.expects state .whole = true) (hmem : s ∈ (Lexicon.ofState state).pool) :
    s.pattern.opensWith '+' = false := by
  have hok := List.all_eq_true.mp fragments_checked.2.2.2 state (List.mem_range.mpr hs)
  rw [operandOk, hexp, Bool.not_true, Bool.false_or] at hok
  obtain ⟨horder, hpossible⟩ := Lexicon.mem_pool_ofState.mp hmem
  have hplus := List.all_eq_true.mp hok s horder
  rw [Bool.or_eq_true, Bool.not_eq_true'] at hplus
  rcases hplus with hplus | hnone
  · exact hplus
  · rcases hpossible with hskip | hsome
    · rcases Terminal.eq_of_isSkipped hskip with rfl | rfl <;> rfl
    · rw [Option.isNone_iff_eq_none.mp hnone] at hsome
      cases hsome

/-! ### What may follow a token -/

def Pattern.texts : Pattern → List (List Char)
  | exactly w => [w]
  | firstOf ws => ws
  | _ => []

/-- The words and operators of plain programs. Two operators of sums are left out: a lexer takes
them for an operator of products and a sign. -/
def signs : List Lexeme :=
  (plainPrograms.terminals.flatMap fun t => t.pattern.texts.map (Lexeme.mk t)).filter fun l =>
    l.text != "/+".toList && l.text != "/-".toList

/-- What is checked of a sign: it is cut off as a whole, has no line break, and no terminal tried
before it fits but its rivals. -/
def signOk (l : Lexeme) : Bool :=
  plainPrograms.terminals.contains l.terminal && !l.text.contains '\r' &&
  l.terminal.pattern.split l.text == some (l.text, []) &&
  Terminal.trialOrder.all fun s => s == .prose || l.terminal.rivals.contains s ||
    Nat.ble l.terminal.code s.code || (s.pattern.split l.text).isNone

/-- The signs of plain programs, checked together. -/
theorem signs_checked : signs.all signOk = true := by
  decide +kernel

theorem terminal_mem_of_signs {l : Lexeme} (hl : l ∈ signs) :
    l.terminal ∈ plainPrograms.terminals := by
  have hok := List.all_eq_true.mp signs_checked l hl
  simp only [signOk, Bool.and_eq_true, List.contains_iff_mem] at hok
  exact hok.1.1.1

theorem break_notMem_of_signs {l : Lexeme} (hl : l ∈ signs) : '\r' ∉ l.text := by
  have hok := List.all_eq_true.mp signs_checked l hl
  simp only [signOk, Bool.and_eq_true, Bool.not_eq_true', ← List.contains_iff_mem] at hok ⊢
  rw [hok.1.1.2]
  exact Bool.false_ne_true

/-- The tokens that a lexer knows by their first character. -/
def marks : List (Terminal × Char) := [(.openParen, '('), (.closeParen, ')'), (.semicolon, ';')]

/-- The marks of plain programs, checked together: each is the only terminal but prose that opens
with its character. -/
theorem marks_checked : ∀ m ∈ marks, m.1 ∈ plainPrograms.terminals ∧ m.1.rivals = [] ∧
    m.1.pattern = .exactly [m.2] ∧
    ∀ s ∈ Terminal.trialOrder, s.pattern.opensWith m.2 = true → s = .prose ∨ s = m.1 := by
  decide +kernel

/-- A name that does not start with a word that can stand in its place. -/
def isFreeName (x : List Char) : Bool :=
  Pattern.name.takesAll x && wordsAtNames.all fun t => (t.pattern.split x).isNone

/-- A free name is a run of the characters of names that no word splits. -/
theorem isFreeName_spec {x : List Char} (h : isFreeName x = true) :
    (∃ c run, x = c :: run ∧ isNameStart c = true ∧ ∀ d ∈ run, isNamePart d = true) ∧
      ∀ t ∈ wordsAtNames, t.pattern.split x = none := by
  rw [isFreeName, Bool.and_eq_true] at h
  refine ⟨?_, fun t ht => Option.isNone_iff_eq_none.mp (List.all_eq_true.mp h.2 t ht)⟩
  have htakes := h.1
  rw [Pattern.takesAll] at htakes
  split at htakes
  · next lexeme rest hsplit =>
    obtain ⟨c, run, rfl, -, hc, hrun, -⟩ := Pattern.split_name_eq_some.mp hsplit
    exact ⟨c, run, (eq_of_beq htakes).symm, hc, hrun⟩
  · cases htakes

theorem words_checked : ∀ t ∈ wordsAtNames, t.pattern.texts ≠ [] ∧
    t.pattern.texts.all (List.all · isNamePart) = true := by
  decide +kernel

/-- A pattern of fixed texts cuts the first of them off. -/
theorem Pattern.split_of_texts {p : Pattern} (h : p.texts ≠ []) (cs : List Char) :
    p.split cs = cutFirst p.texts cs := by
  cases p with
  | exactly w => rfl
  | firstOf ws => rfl
  | _ => exact absurd rfl h

/-- A word that a name does not start with does not go beyond its end. -/
theorem split_none_of_word {t : Terminal} {x v : List Char} (ht : t ∈ wordsAtNames)
    (h : t.pattern.split x = none) (hv : ∀ c ∈ v.head?, isNamePart c = false) :
    t.pattern.split (x ++ v) = none := by
  obtain ⟨hne, hparts⟩ := words_checked t ht
  rw [Pattern.split_of_texts hne] at h ⊢
  rw [Pattern.cutFirst_stop hparts hv, h]
  rfl

/-- No number and no quoted text opens like a name. -/
theorem not_opensWith_nameStart {c : Char} (hc : isNameStart c = true) :
    ∀ s ∈ [Terminal.decimal, .whole, .quoted], s.pattern.opensWith c = false := by
  have hdash : c ≠ '-' := by rintro rfl; cases hc
  have hquote : c ≠ '"' := by rintro rfl; cases hc
  have hdigit : isDigit c = false := Bool.eq_false_iff.mpr fun hd => by
    simp only [isNameStart, isDigit, Bool.or_eq_true, Bool.and_eq_true, decide_eq_true_eq,
      beq_iff_eq] at hc hd
    rcases hc with (hc | hc) | rfl
    · exact absurd (Char.le_trans hc.1 hd.2) (by decide)
    · exact absurd (Char.le_trans hc.1 hd.2) (by decide)
    · exact absurd hd.2 (by decide)
  have hnumber : (c == '-' || isDigit c) = false := by simp [hdash, hdigit]
  intro s hs
  simp only [List.mem_cons, List.not_mem_nil, or_false] at hs
  rcases hs with rfl | rfl | rfl
  · exact hnumber
  · exact hnumber
  · exact beq_false_of_ne hquote

def isNumeral (w : List Char) : Bool := !w.isEmpty && w.all isDigit

/-- A numeral is cut off whole if no digit follows it. -/
theorem cutWhole_numeral {w v : List Char} (hw : isNumeral w = true)
    (hv : ∀ c ∈ v.head?, isDigit c = false) : Pattern.cutWhole (w ++ v) = some (w, v) := by
  rw [isNumeral, Bool.and_eq_true, Bool.not_eq_true', List.all_eq_true] at hw
  cases w with
  | nil => cases hw.1
  | cons c w =>
    have hc : c ≠ '-' := by
      rintro rfl
      cases hw.2 '-' List.mem_cons_self
    rw [List.cons_append, Pattern.cutWhole_of_ne hc]
    exact cutRun_eq_some.mpr ⟨List.cons_ne_nil c w, rfl, hw.2, hv⟩

/-- A token of a plain program and what may follow it. -/
inductive PlainToken : Lexeme → List Char → Prop
  | sign {l : Lexeme} {v : List Char} (hl : l ∈ signs) (hv : Stops v) : PlainToken l v
  | mark {t : Terminal} {c : Char} {v : List Char} (h : (t, c) ∈ marks) : PlainToken ⟨t, [c]⟩ v
  | name {x v : List Char} (hx : isFreeName x = true) (hv : ∀ c ∈ v.head?, isNamePart c = false) :
      PlainToken ⟨.name, x⟩ v
  | numeral {w v : List Char} (hw : isNumeral w = true)
      (hv : ∀ c ∈ v.head?, isDigit c = false ∧ c ≠ '.') : PlainToken ⟨.whole, w⟩ v

/-! ### Tokens come apart -/

namespace Fragment.Checked

variable {f : Fragment} {l : Lexeme} {v : List Char} (hf : f.Checked)
include hf

/-- An operator or a word is told apart from what follows if a blank comes next. -/
theorem separates_sign (hfree : f.Unrivalled l.terminal) (hl : l ∈ signs) (hv : Stops v) :
    f.Separates l v := by
  intro state hs hexp
  have hok := List.all_eq_true.mp signs_checked l hl
  simp only [signOk, Bool.and_eq_true, beq_iff_eq, List.contains_iff_mem] at hok
  obtain ⟨⟨⟨ht, -⟩, hsplit⟩, hbefore⟩ := hok
  have hfront : (Lexicon.ofState state).StartsWith (l.text ++ []) l [] := by
    refine hf.startsWith hs hfree hexp (by rw [List.append_nil, hsplit]) (fun s hmem hlt => ?_)
      (plain_terminals_known _ ht)
    have hsok := List.all_eq_true.mp hbefore s (Lexicon.mem_pool_ofState.mp hmem).1
    simp only [Bool.or_eq_true, beq_iff_eq, List.contains_iff_mem] at hsok
    rcases hsok with ((hprose | hr) | hle) | hnone
    · exact absurd hprose (hf.not_prose hs hexp hmem)
    · exact absurd hr (hfree state hs hexp s hmem)
    · exact absurd hlt (Nat.not_lt.mpr (Nat.le_of_ble_eq_true hle))
    · rw [List.append_nil]
      exact Option.isNone_iff_eq_none.mp hnone
  have hcode := Lexicon.isCode_ofState hs (hf.not_inText_of_expects hs hexp)
  rw [← List.append_nil l.text] at hfront
  simpa using hcode.startsWith_stop (u := []) (r := []) hfront hv

/-- A mark is told apart from whatever follows. -/
theorem separates_mark {t : Terminal} {c : Char} (h : (t, c) ∈ marks) : f.Separates ⟨t, [c]⟩ v := by
  intro state hs hexp
  obtain ⟨ht, hnil, hpattern, hsole⟩ := marks_checked (t, c) h
  have hsplit : t.pattern.split ([c] ++ v) = some ([c], v) := by
    rw [hpattern]
    exact Pattern.split_exactly_eq_some.mpr ⟨by simp, rfl, rfl⟩
  refine hf.startsWith hs (.of_nil hnil) hexp hsplit (fun s hmem hlt => ?_)
    (plain_terminals_known _ ht)
  show s.pattern.split ([c] ++ v) = none
  cases hsplit' : s.pattern.split ([c] ++ v) with
  | none => rfl
  | some pair =>
    rcases hsole s (Lexicon.mem_pool_ofState.mp hmem).1 (Pattern.opensWith_of_split hsplit') with
      hprose | rfl
    · exact absurd hprose (hf.not_prose hs hexp hmem)
    · exact absurd hlt (Nat.lt_irrefl _)

end Fragment.Checked

namespace PlainToken

variable {l : Lexeme} {x w v : List Char}

/-- A free name is told apart if it cannot go on with the next character. -/
theorem separates_name (hx : isFreeName x = true) (hv : ∀ c ∈ v.head?, isNamePart c = false) :
    plainPrograms.Separates ⟨.name, x⟩ v := by
  intro state hs hexp
  obtain ⟨⟨c, run, hrun, hc, hparts⟩, hfree⟩ := isFreeName_spec hx
  have hsplit : Pattern.name.split (x ++ v) = some (x, v) :=
    Pattern.split_name_eq_some.mpr ⟨c, run, hrun, rfl, hc, hparts, hv⟩
  have ht : Terminal.name ∈ plainPrograms.terminals := by decide
  refine plainPrograms_checked.startsWith (l := ⟨.name, x⟩) hs (plain_unrivalled ht) hexp hsplit
    (fun s hmem hlt => ?_) (plain_terminals_known _ ht)
  rcases word_of_expects_name hs hexp hmem hlt with hother | hword
  · show s.pattern.split (x ++ v) = none
    cases hsplit' : s.pattern.split (x ++ v) with
    | none => rfl
    | some pair =>
      rw [hrun] at hsplit'
      have hopens := Pattern.opensWith_of_split hsplit'
      rw [not_opensWith_nameStart hc s hother] at hopens
      cases hopens
  · exact split_none_of_word hword (hfree s hword) hv

/-- A numeral is told apart if neither a digit nor a point comes next. -/
theorem separates_numeral (hw : isNumeral w = true)
    (hv : ∀ c ∈ v.head?, isDigit c = false ∧ c ≠ '.') : plainPrograms.Separates ⟨.whole, w⟩ v := by
  intro state hs hexp
  have hsplit : Pattern.cutWhole (w ++ v) = some (w, v) :=
    cutWhole_numeral hw fun c hc => (hv c hc).1
  have ht : Terminal.whole ∈ plainPrograms.terminals := by decide
  refine plainPrograms_checked.startsWith (l := ⟨.whole, w⟩) hs (plain_unrivalled ht) hexp hsplit
    (fun s hmem hlt => ?_) (plain_terminals_known _ ht)
  obtain rfl : s = .decimal :=
    (by decide : ∀ s ∈ Terminal.trialOrder, s.code < Terminal.whole.code → s = .decimal) s
      (Lexicon.mem_pool_ofState.mp hmem).1 hlt
  show Pattern.decimal.split (w ++ v) = none
  rw [Pattern.split_decimal, hsplit, Option.bind_some]
  cases v with
  | nil => rfl
  | cons c v => exact Pattern.cutFraction_of_ne (hv c rfl).2 ..

/-- **A lexer tells a token of a plain program apart** from what may follow it. -/
theorem separates (h : PlainToken l v) : plainPrograms.Separates l v := by
  cases h with
  | sign hl hv =>
    exact plainPrograms_checked.separates_sign (plain_unrivalled (terminal_mem_of_signs hl)) hl hv
  | mark h => exact plainPrograms_checked.separates_mark h
  | name hx hv => exact separates_name hx hv
  | numeral hw hv => exact separates_numeral hw hv

end PlainToken

/-! ### Texts -/

/-- A text of plain tokens with at most one blank before each. -/
inductive PlainText : Cut → Prop
  | tail : PlainText (.tail [])
  | cons {gap : List Char} {l : Lexeme} {c : Cut} (hgap : gap = [] ∨ gap = [' '])
      (hl : PlainToken l c.text) (h : PlainText c) : PlainText (.cons ⟨gap, l⟩ c)

theorem PlainToken.break_notMem {l : Lexeme} {v : List Char} (h : PlainToken l v) :
    '\r' ∉ l.text := by
  cases h with
  | sign hl hv => exact break_notMem_of_signs hl
  | @mark t c v h => exact (by decide : ∀ m ∈ marks, '\r' ∉ [m.2]) (t, c) h
  | name hx hv =>
    intro hmem
    obtain ⟨⟨c, run, rfl, hc, hrun⟩, -⟩ := isFreeName_spec hx
    rcases List.mem_cons.mp hmem with rfl | hmem
    · cases hc
    · cases hrun _ hmem
  | numeral hw hv =>
    intro hmem
    rw [isNumeral, Bool.and_eq_true, List.all_eq_true] at hw
    cases hw.2 _ hmem

namespace PlainText

variable {c : Cut}

theorem apart (h : PlainText c) : Fragment.Apart plainPrograms.Separates c := by
  induction h with
  | tail => exact .tail (.layout .nil)
  | cons hgap hl h ih =>
    refine .cons ?_ hl.separates ih
    rcases hgap with rfl | rfl
    · exact .nil
    · exact .blank rfl .nil

theorem break_notMem (h : PlainText c) : '\r' ∉ c.text := by
  induction h with
  | tail => exact nofun
  | cons hgap hl h ih =>
    rw [Cut.text, List.mem_append, List.mem_append, not_or, not_or]
    refine ⟨?_, hl.break_notMem, ih⟩
    rcases hgap with rfl | rfl <;> simp

end PlainText

open Reader (Derives)

/-- `DerivesPlain n t ls`: a part `n` of a plain program is derived from the tokens `ls`, and `t` is
its tree. -/
abbrev DerivesPlain (n : Nonterminal) (t : Tree) (ls : List Lexeme) : Prop :=
  Derives plainPrograms.productions [.nonterminal n] [.tree t] ls

/-- A plain text that the grammar derives is read. -/
theorem PlainText.reads {c : Cut} {t : Tree} (hc : PlainText c)
    (h : DerivesPlain .start t c.lexemes) :
    Reader.Reads [] c t :=
  plainPrograms_checked.reads h hc.apart

/-- **A plain text is read as what its tokens are derived as.** -/
theorem Tree.read_plain {c : Cut} {t : Tree} (hc : PlainText c)
    (h : DerivesPlain .start t c.lexemes) :
    Tree.read (String.ofList c.text) = .ok t := by
  rw [Tree.read, String.toList_ofList, plainBreaks_of_not_mem hc.break_notMem]
  exact Reader.read_of_reads (hc.reads h)

/-! ### Instructions -/

section
open Grammar (rule pass list)

variable {n : Nonterminal} {x : String} {t value : Tree} {ls : List Lexeme}

theorem derives_name (x : String) :
    DerivesPlain .name (.form .name [.leaf .name x]) [⟨.name, x.toList⟩] := by
  have hname : DerivesPlain .name (.form .name [.leaf .name (String.ofList x.toList)])
      [⟨.name, x.toList⟩] :=
    .closed (plain_mem (by decide) (by decide) : rule .name .name [.kept .name] ∈ _)
      (.single ⟨.name, x.toList⟩)
  rwa [String.ofList_toList] at hname

/-- An instruction with its semicolon. -/
theorem derives_instruction
    (hp : pass .instruction [.part n, .dropped .semicolon] ∈ plainPrograms.productions)
    (h : DerivesPlain n t ls) : DerivesPlain .instruction t (ls ++ [⟨.semicolon, [';']⟩]) :=
  .closed hp (h.append (.single ⟨.semicolon, [';']⟩))

def declaration (x : String) (value : Tree) : Tree :=
  .form .declare [.leaf .rune "rune", .form .name [.leaf .name x], value]

/-- The instruction that gives a rune a value. -/
def assignment (x : String) (value : Tree) : Tree :=
  .form .assign [.form .name [.leaf .name x], value]

def revelation (value : Tree) : Tree := .form .reveal [.leaf .reveal "reveal", value]

/-- A declaration is derived from its value. -/
theorem derives_declaration (h : DerivesPlain .expression value ls) :
    DerivesPlain .instruction (declaration x value)
      (⟨.rune, "rune".toList⟩ :: ⟨.name, x.toList⟩ :: ⟨.equals, ['=']⟩ ::
        (ls ++ [⟨.semicolon, [';']⟩])) := by
  have hdeclare : DerivesPlain .declare (declaration x value) _ :=
    .closed (plain_mem (by decide) (by decide) : rule .declare .declare
      [.kept .rune, .part .name, .dropped .equals, .part .expression] ∈ _)
      (.token ⟨.rune, "rune".toList⟩ ((derives_name x).append (.token ⟨.equals, ['=']⟩ h)))
  exact derives_instruction (plain_mem (by decide) (by decide)) hdeclare

theorem derives_assignment (h : DerivesPlain .expression value ls) :
    DerivesPlain .instruction (assignment x value)
      (⟨.name, x.toList⟩ :: ⟨.equals, ['=']⟩ :: (ls ++ [⟨.semicolon, [';']⟩])) := by
  have hassign : DerivesPlain .assign (assignment x value) _ :=
    .closed (plain_mem (by decide) (by decide) : rule .assign .assign
      [.part .name, .dropped .equals, .part .expression] ∈ _)
      ((derives_name x).append (.token ⟨.equals, ['=']⟩ h))
  exact derives_instruction (plain_mem (by decide) (by decide)) hassign

theorem derives_revelation (h : DerivesPlain .expression value ls) :
    DerivesPlain .instruction (revelation value)
      (⟨.reveal, "reveal".toList⟩ :: (ls ++ [⟨.semicolon, [';']⟩])) := by
  have hreveal : DerivesPlain .reveal (revelation value) _ :=
    .closed (plain_mem (by decide) (by decide) : rule .reveal .reveal
      [.kept .reveal, .part .expression] ∈ _) (.token ⟨.reveal, "reveal".toList⟩ h)
  exact derives_instruction (plain_mem (by decide) (by decide)) hreveal

/-- Instructions that are derived one by one are derived as a list. -/
theorem derives_instructions {ts : List Tree} {is : List (Tree × List Lexeme)}
    (hfront : Derives plainPrograms.productions [.nonterminal .instructions] [.list ts] ls)
    (h : ∀ i ∈ is, DerivesPlain .instruction i.1 i.2) :
    Derives plainPrograms.productions [.nonterminal .instructions] [.list (ts ++ is.map Prod.fst)]
      (ls ++ is.flatMap Prod.snd) := by
  induction is generalizing ts ls with
  | nil => simpa using hfront
  | cons i is ih =>
    obtain ⟨hi, his⟩ := List.forall_mem_cons.mp h
    have hlonger : Derives plainPrograms.productions [.nonterminal .instructions]
        [.list (ts ++ [i.1])] (ls ++ i.2) :=
      .closed (plain_mem (by decide) (by decide) :
        list .instructions [.part .instructions, .part .instruction] ∈ _) (hfront.append hi)
    simpa using ih hlonger his

/-- A program of some instructions. -/
theorem derives_program {i : Tree × List Lexeme} {is : List (Tree × List Lexeme)}
    (h : ∀ j ∈ i :: is, DerivesPlain .instruction j.1 j.2) :
    DerivesPlain .start (.form .start ((i :: is).map Prod.fst)) ((i :: is).flatMap Prod.snd) := by
  obtain ⟨hi, his⟩ := List.forall_mem_cons.mp h
  have hfirst : Derives plainPrograms.productions [.nonterminal .instructions] [.list [i.1]] i.2 :=
    .closed (plain_mem (by decide) (by decide) : list .instructions [.part .instruction] ∈ _) hi
  have hstart := Derives.closed (plain_mem (by decide) (by decide) :
    rule .start .start [.part .instructions] ∈ plainPrograms.productions)
    (derives_instructions hfirst his)
  have hbuild : Reader.build (rule .start .start [.part .instructions])
      [.list ([i.1] ++ is.map Prod.fst)] = .tree (.form .start ((i :: is).map Prod.fst)) := by
    simp [Reader.build, Reader.collect, rule, Reader.Piece.trees]
  rwa [hbuild] at hstart

/-! ### The shortest declaration -/

/-- The program that declares a rune without a value. -/
def dormantProgram (x : String) : Tree :=
  .form .start [.form .declare [.leaf .rune "rune", .form .name [.leaf .name x], .absent]]

/-- The text of the program, cut into its tokens. -/
def dormantCut (x : String) : Cut :=
  .cons ⟨[], ⟨.rune, "rune".toList⟩⟩ (.cons ⟨[' '], ⟨.name, x.toList⟩⟩
    (.cons ⟨[], ⟨.semicolon, [';']⟩⟩ (.tail [])))

/-- The program that declares a rune without a value is read. -/
theorem reads_dormantCut (hx : isFreeName x.toList = true) :
    Reader.Reads [] (dormantCut x) (dormantProgram x) := by
  have hplain : PlainText (dormantCut x) :=
    .cons (.inl rfl) (.sign (by decide) (.cons rfl)) (.cons (.inr rfl)
      (.name hx fun c hc => by cases hc; rfl) (.cons (.inl rfl) (.mark (by decide)) .tail))
  have hdeclare : DerivesPlain .declare _ _ :=
    .closed (plain_mem (by decide) (by decide) : rule .declare .declare
      [.kept .rune, .part .name, .gap] ∈ _) (.token ⟨.rune, "rune".toList⟩ (derives_name x))
  have hprogram := derives_program (i := ⟨_, _⟩) (List.forall_mem_singleton.mpr
    (derives_instruction (plain_mem (by decide) (by decide)) hdeclare))
  exact hplain.reads hprogram

end

end Spellbook
