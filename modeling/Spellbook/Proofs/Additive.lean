import Spellbook.Proofs.Precedence

/-!
# Additive operators

Eight texts are spelled as operators of sums. Between two operands, with blanks around it, each is
read as itself, but for the two that start with a slash: the slash is cut off as an operator of
products before an operator of sums is tried. So the one with a minus is read as a quotient by a
negative, and the one with a plus is not read at all, since nothing that starts with a plus can
stand where an operand is expected (`Tree.read_addition`).
-/

namespace Spellbook

open Fragment (Leads)

/-! ### Operands -/

/-- A rune or an unsigned numeral. -/
inductive Operand where
  | rune (x : String) (hx : isFreeName x.toList = true)
  | numeral (w : String) (hw : isNumeral w.toList = true)

namespace Operand

def lexeme : Operand → Lexeme
  | rune x _ => ⟨.name, x.toList⟩
  | numeral w _ => ⟨.whole, w.toList⟩

def text : Operand → String
  | rune x _ => x
  | numeral w _ => w

def tree : Operand → Tree
  | rune x _ => .form .rune [.leaf .name x]
  | numeral w _ => .leaf .whole w

variable (o : Operand)

/-- An operand is written as its lexeme. -/
theorem toList_text : o.text.toList = o.lexeme.text := by
  cases o <;> rfl

theorem lexemes_tree : o.tree.lexemes = [o.lexeme] := by
  cases o <;> rfl

theorem reckoning_primary : Reckoning .primary o.tree := by
  cases o with
  | rune x hx => exact .rune hx
  | numeral w hw => exact .numeral hw

theorem reckoning_unary : Reckoning .unaryExpr o.tree :=
  .looser rfl (.looser rfl o.reckoning_primary)

/-- An operand may stand on the level of products. -/
theorem reckoning_product : Reckoning .productExpr o.tree := .looser rfl o.reckoning_unary

/-- A blank or a semicolon can stand behind an operand. -/
theorem plainToken {v : List Char} (hv : ∀ c ∈ v.head?, isBlank c = true ∨ c = ';') :
    PlainToken o.lexeme v := by
  cases o with
  | rune x hx =>
    refine .name hx fun c hc => ?_
    rcases hv c hc with hblank | rfl
    · exact isNamePart_blank hblank
    · rfl
  | numeral w hw =>
    refine .numeral hw fun c hc => ?_
    rcases hv c hc with hblank | rfl
    · exact ⟨isDigit_blank hblank, by rintro rfl; cases hblank⟩
    · decide

/-- No operand has a blank. -/
theorem not_blank : ∀ c ∈ o.lexeme.text, isBlank c = false := by
  intro c hc
  refine Bool.eq_false_iff.mpr fun hblank => ?_
  cases o with
  | rune x hx =>
    obtain ⟨⟨d, run, hrun, hd, hparts⟩, -⟩ := isFreeName_spec hx
    rw [lexeme, hrun] at hc
    rcases List.mem_cons.mp hc with rfl | hc
    · have hstart : isNameStart c = false := by
        simpa using forall_blank (q := (!isNameStart ·)) (by decide) hblank
      rw [hd] at hstart
      cases hstart
    · have hpart := isNamePart_blank hblank
      rw [hparts c hc] at hpart
      cases hpart
  | numeral w hw =>
    rw [isNumeral, Bool.and_eq_true, List.all_eq_true] at hw
    have hdigit := isDigit_blank hblank
    rw [hw.2 c hc] at hdigit
    cases hdigit

end Operand

/-! ### Blanks -/

/-- Some blanks, at least one. -/
structure Blanks where
  chars : List Char
  ne_nil : chars ≠ []
  blank : ∀ c ∈ chars, isBlank c = true

theorem isBlank_plainBreaks {cs : List Char} (h : ∀ c ∈ cs, isBlank c = true) :
    ∀ c ∈ plainBreaks cs, isBlank c = true := by
  intro c hc
  rcases mem_plainBreaks hc with rfl | hc
  · rfl
  · exact h c hc

namespace Blanks

def text (b : Blanks) : String := String.ofList b.chars

def plain (b : Blanks) : Blanks where
  chars := plainBreaks b.chars
  ne_nil := plainBreaks_ne_nil b.ne_nil
  blank := isBlank_plainBreaks b.blank

variable (b : Blanks)

theorem layout : Layout b.chars := .of_blanks b.blank

/-- Blanks stop every token. -/
theorem stops (v : List Char) : Stops (b.chars ++ v) := by
  obtain ⟨chars, hne, hblank⟩ := b
  cases chars with
  | nil => exact absurd rfl hne
  | cons c cs => exact .cons (hblank c List.mem_cons_self)

end Blanks

/-! ### The text -/

/-- The declaration of a rune by an operator between two operands. -/
def additionText (x : Operand) (before : Blanks) (op : String) (after : Blanks)
    (y : Operand) : String :=
  "rune r = " ++ x.text ++ before.text ++ op ++ after.text ++ y.text ++ ";"

/-- The first tokens of the text, and a cut of what stands behind the first operand. -/
def Operand.front (x : Operand) (c : Cut) : Cut :=
  .cons ⟨[], ⟨.rune, "rune".toList⟩⟩ (.cons ⟨[' '], ⟨.name, ['r']⟩⟩ (.cons ⟨[' '], ⟨.equals, ['=']⟩⟩
    (.cons ⟨[' '], x.lexeme⟩ c)))

/-- The last tokens of the text. -/
def Operand.back (y : Operand) (gap : Blanks) : Cut := .cons ⟨gap.chars, y.lexeme⟩ Cut.semicolon

section
variable (x y : Operand) (before after : Blanks)

theorem Operand.text_front (c : Cut) :
    (x.front c).text = "rune r = ".toList ++ x.lexeme.text ++ c.text := by
  rw [List.append_assoc]
  rfl

theorem Operand.text_back : (y.back after).text = after.chars ++ (y.lexeme.text ++ [';']) := rfl

theorem toList_additionText (op : String) : (additionText x before op after y).toList =
    "rune r = ".toList ++ x.lexeme.text ++
      (before.chars ++ (op.toList ++ (y.back after).text)) := by
  show ("rune r = " ++ x.text ++ before.text ++ op ++ after.text ++ y.text ++ ";").toList = _
  simp only [Operand.text_back, Blanks.text, String.toList_append, String.toList_ofList,
    Operand.toList_text, List.append_assoc]
  rfl

/-- Line breaks are made plain in the blanks only. -/
theorem plainBreaks_between {w v : List Char} (hw : '\r' ∉ w) (hv : v.head? ≠ some '\n')
    (b : Blanks) :
    plainBreaks (w ++ (b.chars ++ v)) = w ++ (b.plain.chars ++ plainBreaks v) := by
  rw [plainBreaks_append_left hw, plainBreaks_append hv]
  rfl

/-- Line breaks stand among the blanks only. -/
theorem plainBreaks_additionText {op : String} (hop : op.toList ∈ Terminal.addOp.pattern.texts) :
    plainBreaks (additionText x before op after y).toList =
      (additionText x before.plain op after.plain y).toList := by
  have hall : (Terminal.addOp.pattern.texts.all fun w =>
      !w.contains '\r' && w.head?.any (· != '\n')) = true := by
    decide
  have hok := List.all_eq_true.mp hall op.toList hop
  rw [Bool.and_eq_true, Bool.not_eq_true'] at hok
  have hbreak : '\r' ∉ op.toList := fun hmem => by
    rw [List.contains_iff_mem.mpr hmem] at hok
    cases hok.1
  have hop_head : (op.toList ++ (y.back after).text).head? ≠ some '\n' := by
    obtain ⟨c, hc, hline⟩ := (Option.any_eq_true _ _).mp hok.2
    rw [List.head?_append, hc]
    simpa using hline
  have hy_head : (y.lexeme.text ++ [';']).head? ≠ some '\n' := by
    intro hhead
    rcases List.mem_append.mp (List.mem_of_head? hhead) with hmem | hmem
    · cases y.not_blank '\n' hmem
    · cases List.mem_singleton.mp hmem
  have hx_break : '\r' ∉ "rune r = ".toList ++ x.lexeme.text := by
    rw [List.mem_append, not_or]
    refine ⟨by decide, fun hmem => ?_⟩
    cases x.not_blank '\r' hmem
  have hy_break : '\r' ∉ y.lexeme.text ++ [';'] := by
    rw [List.mem_append, not_or]
    refine ⟨fun hmem => ?_, by decide⟩
    cases y.not_blank '\r' hmem
  rw [toList_additionText, toList_additionText, plainBreaks_between hx_break hop_head,
    Operand.text_back, plainBreaks_between hbreak hy_head, plainBreaks_of_not_mem hy_break]
  rfl

/-- A text is read like the one with plain line breaks. -/
theorem read_additionText {op : String} (hop : op.toList ∈ Terminal.addOp.pattern.texts) :
    Tree.read (additionText x before op after y) =
      Reader.read (additionText x before.plain op after.plain y).toList := by
  rw [Tree.read, plainBreaks_additionText x y before after hop]

theorem leads_back : Leads plainPrograms.Separates [] (y.back after) := by
  have hy : PlainToken y.lexeme Cut.semicolon.text := y.plainToken fun c hc => by
    cases hc; exact .inr rfl
  have hsemicolon : PlainToken ⟨.semicolon, [';']⟩ [] := .mark (by decide)
  exact .cons after.layout hy.separates (.cons .nil hsemicolon.separates .tail)

/-- The declaration and its first operand stand apart from what follows. -/
theorem leads_front {rest : List Char} {c : Cut} (hc : Leads plainPrograms.Separates rest c)
    (hstops : Stops c.text) : Leads plainPrograms.Separates rest (x.front c) := by
  have hgap : Layout [' '] := .blank rfl .nil
  have hx : PlainToken x.lexeme c.text := x.plainToken fun b hb => .inl (hstops b hb)
  have hequals : PlainToken ⟨.equals, ['=']⟩ (' ' :: (x.lexeme.text ++ c.text)) :=
    .sign (by decide) (.cons rfl)
  have hname : PlainToken ⟨.name, ['r']⟩ (' ' :: '=' :: ' ' :: (x.lexeme.text ++ c.text)) :=
    .name (by decide) fun b hb => by cases hb; rfl
  have hrune : PlainToken ⟨.rune, "rune".toList⟩
      (' ' :: 'r' :: ' ' :: '=' :: ' ' :: (x.lexeme.text ++ c.text)) :=
    .sign (by decide) (.cons rfl)
  exact .cons .nil hrune.separates (.cons hgap hname.separates (.cons hgap hequals.separates
    (.cons hgap hx.separates hc)))

end

/-! ### Operators that are read as themselves -/

/-- A sum makes a program that declares a rune with it. -/
theorem derives_program_of_sum {value : Tree} (h : Reckoning .sumExpr value) :
    DerivesPlain .start (.form .start [declaration "r" value])
      (⟨.rune, "rune".toList⟩ :: ⟨.name, ['r']⟩ :: ⟨.equals, ['=']⟩ ::
        (value.lexemes ++ [⟨.semicolon, [';']⟩])) := by
  have hvalue : Written .expression value :=
    .expression (Reckoning.written (.looser rfl (.looser rfl (.looser rfl h))))
  have hprogram := derives_program (i := (declaration "r" value, _))
    (List.forall_mem_singleton.mpr (derives_declaration hvalue.derives))
  simpa using hprogram

section
variable (x y : Operand) (before after : Blanks)

/-- A value is read from its tokens, if they come apart and the first of them is an operand. -/
theorem read_front {c : Cut} {value : Tree} (h : Reckoning .sumExpr value)
    (hlexemes : value.lexemes ++ [⟨.semicolon, [';']⟩] = x.lexeme :: c.lexemes)
    (hc : Leads plainPrograms.Separates [] c) (hstops : Stops c.text) :
    Reader.read ("rune r = ".toList ++ x.lexeme.text ++ c.text) =
      .ok (.form .start [declaration "r" value]) := by
  have hderives := derives_program_of_sum h
  rw [hlexemes] at hderives
  have hapart := (leads_front x hc hstops).apart (.layout .nil)
  rw [← Operand.text_front]
  exact Reader.read_of_reads (plainPrograms_checked.reads hderives hapart)

/-- A sum of two operands is read as a sum. -/
theorem read_sum {op : String} (hop : ⟨.addOp, op.toList⟩ ∈ signs) :
    Reader.read (additionText x before op after y).toList =
      .ok (.form .start [declaration "r" (.form .sum [x.tree, .leaf .addOp op, y.tree])]) := by
  have hsign : PlainToken ⟨.addOp, op.toList⟩ (y.back after).text := .sign hop (after.stops _)
  have hsum : Reckoning .sumExpr (.form .sum [x.tree, .leaf .addOp op, y.tree]) :=
    .sum hop (.looser rfl x.reckoning_product) y.reckoning_product
  rw [toList_additionText]
  refine read_front x (c := .cons ⟨before.chars, ⟨.addOp, op.toList⟩⟩ (y.back after)) hsum ?_
    (.cons before.layout hsign.separates (leads_back y after)) (before.stops _)
  have hbare : Form.Bare .sum := fun _ => rfl
  rw [hbare.lexemes_between, x.lexemes_tree, y.lexemes_tree]
  rfl

/-! ### Operators that start with a slash -/

/-- What is checked of a character behind a slash: the slash is cut off alone, and no terminal tried
before the operators of products fits. -/
def slashOk (c : Char) : Bool :=
  Terminal.mulOp.pattern.split ['/', c] == some (['/'], [c]) && Terminal.trialOrder.all fun s =>
    s == .prose || Nat.ble Terminal.mulOp.code s.code || (s.pattern.split ['/', c]).isNone

/-- The slash of an operator that goes on with a sign is cut off alone. -/
theorem separates_slash {c : Char} {v : List Char} (hc : slashOk c = true) (hv : Stops v) :
    plainPrograms.Separates ⟨.mulOp, ['/']⟩ (c :: v) := by
  intro state hs hexp
  rw [slashOk, Bool.and_eq_true, beq_iff_eq] at hc
  obtain ⟨hsplit, hbefore⟩ := hc
  have ht : Terminal.mulOp ∈ plainPrograms.terminals := by decide
  have hfront : (Lexicon.ofState state).StartsWith ['/', c] ⟨.mulOp, ['/']⟩ [c] := by
    refine plainPrograms_checked.startsWith hs (plain_unrivalled ht) hexp hsplit
      (fun s hmem hlt => ?_) (plain_terminals_known _ ht)
    have hsok := List.all_eq_true.mp hbefore s (Lexicon.mem_pool_ofState.mp hmem).1
    simp only [Bool.or_eq_true, beq_iff_eq] at hsok
    rcases hsok with (hprose | hle) | hnone
    · exact absurd hprose (plainPrograms_checked.not_prose hs hexp hmem)
    · exact absurd hlt (Nat.not_lt.mpr (Nat.le_of_ble_eq_true hle))
    · exact Option.isNone_iff_eq_none.mp hnone
  have hcode := Lexicon.isCode_ofState hs (plainPrograms_checked.not_inText_of_expects hs hexp)
  have hstop : (Lexicon.ofState state).StartsWith ((Lexeme.mk .mulOp ['/']).text ++ [c] ++ v)
      _ ([c] ++ v) :=
    hcode.startsWith_stop (r := []) hfront hv
  exact hstop

/-- A slash and a minus sign are read as a quotient with a negative. -/
theorem read_slashMinus : Reader.read (additionText x before "/-" after y).toList =
    .ok (.form .start [declaration "r"
      (.form .product [x.tree, .leaf .mulOp "/", .form .negative [y.tree]])]) := by
  have hminus : PlainToken ⟨.minus, ['-']⟩ (y.back after).text := .sign (by decide) (after.stops _)
  have hproduct : Reckoning .productExpr
      (.form .product [x.tree, .leaf .mulOp "/", .form .negative [y.tree]]) :=
    .product (by decide) x.reckoning_product (.negative y.reckoning_unary)
  have hbare : Form.Bare .product := fun _ => rfl
  have hnegative : (Tree.form .negative [y.tree]).lexemes = mark .minus :: y.tree.lexemes := rfl
  rw [toList_additionText]
  refine read_front x
    (c := .cons ⟨before.chars, ⟨.mulOp, ['/']⟩⟩ (.cons ⟨[], ⟨.minus, ['-']⟩⟩ (y.back after)))
    (.looser rfl hproduct) ?_ ?_ (before.stops _)
  · rw [hbare.lexemes_between, hnegative, x.lexemes_tree, y.lexemes_tree]
    rfl
  · exact .cons before.layout (separates_slash (by decide) (after.stops _))
      (.cons .nil hminus.separates (leads_back y after))

/-- The tokens up to a slash, and the text behind it. -/
def Operand.slash (x : Operand) (before : Blanks) (rest : List Char) : Cut :=
  x.front (.cons ⟨before.chars, ⟨.mulOp, ['/']⟩⟩ (.tail rest))

/-- Behind the slash the reader expects an operand, whatever stands there. -/
theorem readFrom_slash {rest : List Char} (hrest : plainPrograms.Separates ⟨.mulOp, ['/']⟩ rest) :
    ∃ stack ls fuel place last, Reader.Reached stack ls ∧
      plainPrograms.expects (Reader.top stack) .whole = true ∧
      Reader.read (x.slash before rest).text =
        Reader.readFrom (fuel + 1) stack rest place last := by
  -- some operand could stand there, so the tokens up to the slash are taken
  have hproduct : Reckoning .productExpr
      (.form .product [x.tree, .leaf .mulOp "/", .leaf .whole "1"]) :=
    .product (by decide) x.reckoning_product (Operand.numeral "1" (by decide)).reckoning_unary
  have hbare : Form.Bare .product := fun _ => rfl
  have hderives := derives_program_of_sum (.looser rfl hproduct)
  rw [hbare.lexemes_between, x.lexemes_tree] at hderives
  obtain ⟨s, htakes, -⟩ := plainPrograms_checked.takes_start hderives
  have hleads : Leads plainPrograms.Separates rest (x.slash before rest) :=
    leads_front x (.cons before.layout hrest .tail) (before.stops _)
  have hlong : 5 ≤ (x.slash before rest).text.length := by
    have hfront : "rune r = ".toList.length = 9 := rfl
    rw [Operand.slash, Operand.text_front, List.length_append, List.length_append, hfront]
    omega
  obtain ⟨fuel, hfuel⟩ : ∃ fuel, (x.slash before rest).text.length + 1 = fuel + 1 + 5 :=
    ⟨(x.slash before rest).text.length - 5, by omega⟩
  have htaken : plainPrograms.Takes []
      ((x.slash before rest).lexemes ++ [⟨.whole, ['1']⟩, ⟨.semicolon, [';']⟩]) .textEnd _ := htakes
  obtain ⟨stack, place, last, hexpected, hreached, hread⟩ :=
    htaken.readFrom plainPrograms_checked .nil hleads (fuel + 1) {} {}
  cases hexpected with
  | take hr hcloses hm _ =>
    refine ⟨stack, _, fuel, place, last, hreached, hcloses.expects hr hm, ?_⟩
    rw [Reader.read, hfuel]
    exact hread

/-- A slash and a plus sign are not read. -/
theorem read_slashPlus :
    ∃ fault, Reader.read (additionText x before "/+" after y).toList = .error fault := by
  have htext : (additionText x before "/+" after y).toList =
      (x.slash before ('+' :: (y.back after).text)).text := by
    rw [toList_additionText, Operand.slash, Operand.text_front]
    rfl
  obtain ⟨stack, ls, fuel, place, last, hreached, hexpects, hread⟩ :=
    readFrom_slash x before (separates_slash (c := '+') (by decide) (after.stops _))
  rw [htext, Operand.text_back, hread]
  exact Reader.readFrom_of_stray hreached
    (fun s hmem => not_opensWith_plus hreached.top_lt hexpects hmem) ..

end

/-- **Operators of sums.** Those that start with a slash apart, they are read as themselves. -/
theorem Tree.read_addition (x y : Operand) (before after : Blanks) {op : String}
    (hop : op.toList ∈ Terminal.addOp.pattern.texts) :
    (op ≠ "/-" → op ≠ "/+" → Tree.read (additionText x before op after y) =
      .ok (.form .start [declaration "r" (.form .sum [x.tree, .leaf .addOp op, y.tree])])) ∧
    (op = "/-" → Tree.read (additionText x before op after y) = .ok (.form .start [declaration "r"
      (.form .product [x.tree, .leaf .mulOp "/", .form .negative [y.tree]])])) ∧
    (op = "/+" → ∃ fault, Tree.read (additionText x before op after y) = .error fault) := by
  rw [read_additionText x y before after hop]
  refine ⟨fun hminus hplus => ?_, ?_, ?_⟩
  · have hsign : ⟨.addOp, op.toList⟩ ∈ signs := by
      have hall : ∀ w ∈ Terminal.addOp.pattern.texts, w ≠ "/-".toList → w ≠ "/+".toList →
          ⟨.addOp, w⟩ ∈ signs := by
        decide
      exact hall op.toList hop (fun h => hminus (String.toList_injective h))
        (fun h => hplus (String.toList_injective h))
    exact read_sum x y before.plain after.plain hsign
  · rintro rfl
    exact read_slashMinus x y before.plain after.plain
  · rintro rfl
    exact read_slashPlus x y before.plain after.plain

/-- A difference that is to be rounded, with a line break behind the operator. -/
theorem Tree.read_addition_break : "~-".toList ∈ Terminal.addOp.pattern.texts ∧
    Tree.read "rune r = x ~-\r\n\t42;" = .ok (.form .start [declaration "r"
      (.form .sum [.form .rune [.leaf .name "x"], .leaf .addOp "~-", .leaf .whole "42"])]) := by
  have hop : "~-".toList ∈ Terminal.addOp.pattern.texts := by decide
  have hread := (Tree.read_addition (.rune "x" (by decide)) (.numeral "42" (by decide))
    ⟨[' '], by simp, by simp [isBlank]⟩ ⟨['\r', '\n', '\t'], by simp, by simp [isBlank]⟩ hop).1
      (by decide) (by decide)
  exact ⟨hop, hread⟩

/-- Two operators of sums are not read as such. -/
theorem slash_is_cut_off : "/-".toList ∈ Terminal.addOp.pattern.texts ∧
    "/+".toList ∈ Terminal.addOp.pattern.texts ∧
    Tree.read "rune r = x /- y;" = .ok (.form .start [declaration "r" (.form .product
      [.form .rune [.leaf .name "x"], .leaf .mulOp "/",
        .form .negative [.form .rune [.leaf .name "y"]]])]) ∧
    ∀ t, Tree.read "rune r = x /+ y;" ≠ .ok t := by
  let x : Operand := .rune "x" (by decide)
  let y : Operand := .rune "y" (by decide)
  let gap : Blanks := ⟨[' '], by simp, by simp [isBlank]⟩
  have hminus : "/-".toList ∈ Terminal.addOp.pattern.texts := by decide
  have hplus : "/+".toList ∈ Terminal.addOp.pattern.texts := by decide
  have hread :=
    (read_additionText x y gap gap hminus).trans (read_slashMinus x y gap.plain gap.plain)
  refine ⟨hminus, hplus, hread, fun t ht => ?_⟩
  obtain ⟨fault, hfault⟩ := read_slashPlus x y gap.plain gap.plain
  rw [← read_additionText x y gap gap hplus] at hfault
  cases ht.symm.trans hfault

end Spellbook
