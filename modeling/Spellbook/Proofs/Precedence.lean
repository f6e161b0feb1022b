import Spellbook.Proofs.Plain
import Spellbook.Proofs.Printing

/-!
# Precedence

A `Reckoning` is a tree of operators on numerals, runes and groups that keeps to the levels of
precedence: the operands of an operator are of its own level or a tighter one, on the side that it
does not associate to of a tighter one only. Its tokens alone, with no more parentheses than its
groups have, are read as the tree again (`Tree.read_reckoning`).
-/

namespace Spellbook

open Reader (Derives)
open Grammar (rule pass condition)

/-! ### Reckonings -/

/-- The next level of expressions, whose operators bind less tightly. -/
def Nonterminal.looser? : Nonterminal → Option Nonterminal
  | primary => some powerExpr
  | powerExpr => some unaryExpr
  | unaryExpr => some productExpr
  | productExpr => some sumExpr
  | sumExpr => some compareExpr
  | compareExpr => some bothExpr
  | bothExpr => some eitherExpr
  | _ => none

/-- `Reckoning n t`: a reckoning of the level `n`. -/
inductive Reckoning : Nonterminal → Tree → Prop
  | either {l r : Tree} (hl : Reckoning .eitherExpr l) (hr : Reckoning .bothExpr r) :
      Reckoning .eitherExpr (.form .either [l, .leaf .either "||", r])
  | both {l r : Tree} (hl : Reckoning .bothExpr l) (hr : Reckoning .compareExpr r) :
      Reckoning .bothExpr (.form .both [l, .leaf .both "&&", r])
  | comparison {l r : Tree} {w : String} (hw : ⟨.compareOp, w.toList⟩ ∈ signs)
      (hl : Reckoning .sumExpr l) (hr : Reckoning .sumExpr r) :
      Reckoning .compareExpr (.form .comparison [l, .leaf .compareOp w, r])
  | sum {l r : Tree} {w : String} (hw : ⟨.addOp, w.toList⟩ ∈ signs) (hl : Reckoning .sumExpr l)
      (hr : Reckoning .productExpr r) : Reckoning .sumExpr (.form .sum [l, .leaf .addOp w, r])
  | product {l r : Tree} {w : String} (hw : ⟨.mulOp, w.toList⟩ ∈ signs)
      (hl : Reckoning .productExpr l) (hr : Reckoning .unaryExpr r) :
      Reckoning .productExpr (.form .product [l, .leaf .mulOp w, r])
  | denial {t : Tree} (h : Reckoning .unaryExpr t) :
      Reckoning .unaryExpr (.form .denial [.leaf .bang "!", t])
  | negative {t : Tree} (h : Reckoning .unaryExpr t) : Reckoning .unaryExpr (.form .negative [t])
  | rounding {t : Tree} {w : String} (hw : ⟨.roundOp, w.toList⟩ ∈ signs)
      (h : Reckoning .unaryExpr t) : Reckoning .unaryExpr (.form .rounding [.leaf .roundOp w, t])
  | power {l r : Tree} (hl : Reckoning .powerExpr l) (hr : Reckoning .primary r) :
      Reckoning .powerExpr (.form .power [l, r])
  | numeral {w : String} (hw : isNumeral w.toList = true) : Reckoning .primary (.leaf .whole w)
  | rune {x : String} (hx : isFreeName x.toList = true) :
      Reckoning .primary (.form .rune [.leaf .name x])
  | group {t : Tree} (h : Reckoning .eitherExpr t) : Reckoning .primary (.form .group [t])
  | looser {n n' : Nonterminal} {t : Tree} (hn : n.looser? = some n') (h : Reckoning n t) :
      Reckoning n' t

/-! ### Tokens with blanks -/

namespace Cut

/-- Some tokens with one blank before each, and another text behind them. -/
def blanked (c : Cut) : List Lexeme → Cut
  | [] => c
  | l :: ls => .cons ⟨[' '], l⟩ (blanked c ls)

variable (c : Cut) (ls ls' : List Lexeme)

theorem blanked_append : c.blanked (ls ++ ls') = (c.blanked ls').blanked ls := by
  induction ls with
  | nil => rfl
  | cons l ls ih => rw [List.cons_append, blanked, ih, blanked]

/-- Blanked lexemes are put before those of the cut. -/
theorem lexemes_blanked : (c.blanked ls).lexemes = ls ++ c.lexemes := by
  induction ls with
  | nil => rfl
  | cons l ls ih => rw [blanked, lexemes, ih, List.cons_append]

theorem stops_blanked {ls : List Lexeme} (h : ls ≠ []) : Stops (c.blanked ls).text := by
  cases ls with
  | nil => exact absurd rfl h
  | cons l ls => exact .cons rfl

end Cut

/-! ### Reckonings are derived -/

/-- A text that can stand behind an operand. -/
def EndsOperand (v : List Char) : Prop := ∀ c ∈ v.head?, c = ' ' ∨ c = ';'

/-- `Written n t`: the tokens of `t` are derived from `n` as `t`, and can be written with one blank
before each. -/
structure Written (n : Nonterminal) (t : Tree) : Prop where
  derives : DerivesPlain n t t.lexemes
  ne_nil : t.lexemes ≠ []
  plain : ∀ c : Cut, PlainText c → EndsOperand c.text → PlainText (c.blanked t.lexemes)

namespace Written

variable {p : Production} {a b : Nonterminal} {o : Lexeme} {l r t s : Tree}
  (hp : p ∈ plainPrograms.productions)
include hp

/-- An operator between two operands. -/
theorem between (hright : p.right = [.nonterminal a, .terminal o.terminal, .nonterminal b])
    (hbuild : Reader.build p [.tree l, .tree (.leaf o.terminal (String.ofList o.text)), .tree r] =
      .tree t)
    (hlexemes : t.lexemes = l.lexemes ++ o :: r.lexemes) (ho : o ∈ signs) (hl : Written a l)
    (hr : Written b r) : Written p.left t where
  derives := by
    rw [DerivesPlain, ← hbuild, hlexemes]
    refine .closed hp ?_
    rw [hright]
    exact hl.derives.append (.token o hr.derives)
  ne_nil := by simp [hlexemes]
  plain c hc hend := by
    rw [hlexemes, Cut.blanked_append, Cut.blanked]
    refine hl.plain _ (.cons (.inr rfl) (.sign ho (c.stops_blanked hr.ne_nil)) (hr.plain c hc hend))
      ?_
    simp [Cut.text, EndsOperand]

/-- An operator before its operand. -/
theorem before (hright : p.right = [.terminal o.terminal, .nonterminal a])
    (hbuild : Reader.build p [.tree (.leaf o.terminal (String.ofList o.text)), .tree s] = .tree t)
    (hlexemes : t.lexemes = o :: s.lexemes) (ho : o ∈ signs) (hs : Written a s) :
    Written p.left t where
  derives := by
    rw [DerivesPlain, ← hbuild, hlexemes]
    refine .closed hp ?_
    rw [hright]
    exact .token o hs.derives
  ne_nil := by simp [hlexemes]
  plain c hc hend := by
    rw [hlexemes, Cut.blanked]
    exact .cons (.inr rfl) (.sign ho (c.stops_blanked hs.ne_nil)) (hs.plain c hc hend)

/-- A production that hands an operand up. -/
theorem passed (hright : p.right = [.nonterminal a]) (hbuild : Reader.build p [.tree t] = .tree t)
    (h : Written a t) : Written p.left t where
  derives := by
    rw [DerivesPlain, ← hbuild]
    refine .closed hp ?_
    rw [hright]
    exact h.derives
  ne_nil := h.ne_nil
  plain := h.plain

end Written

/-- The tokens of a node without punctuation are those of its children. -/
def Form.Bare (f : Form) : Prop := ∀ ps, Printed.punctuate f ps = ps.flatMap Printed.lexemes

/-- A bare form writes an operator between its two sides. -/
theorem Form.Bare.lexemes_between {f : Form} (hf : f.Bare) (op : Terminal) (w : String)
    (l r : Tree) :
    (Tree.form f [l, .leaf op w, r]).lexemes = l.lexemes ++ ⟨op, w.toList⟩ :: r.lexemes := by
  simp [Tree.lexemes, Tree.printed, Tree.printedAll, hf _]

namespace Written

variable {n a b : Nonterminal} {f : Form} {op : Terminal} {w : String} {l r t : Tree}
  (hf : f.Bare) (hw : ⟨op, w.toList⟩ ∈ signs)
include hf hw

/-- Two sides that are written may stand around an operator. -/
theorem keptBetween (hp : rule n f [.part a, .kept op, .part b] ∈ plainPrograms.productions)
    (hl : Written a l) (hr : Written b r) : Written n (.form f [l, .leaf op w, r]) := by
  refine .between hp rfl ?_ (hf.lexemes_between op w l r) hw hl hr
  rw [String.ofList_toList]
  rfl

/-- An operator may stand before what is written. -/
theorem keptBefore (hp : rule n f [.kept op, .part a] ∈ plainPrograms.productions)
    (h : Written a t) : Written n (.form f [.leaf op w, t]) := by
  refine .before hp rfl ?_ ?_ hw h
  · rw [String.ofList_toList]
    rfl
  · simp [Tree.lexemes, Tree.printed, Tree.printedAll, hf _]

end Written

/-- Each level passes to the next looser one. -/
theorem looser_mem {n n' : Nonterminal} (h : n.looser? = some n') :
    pass n' [.part n] ∈ plainPrograms.productions := by
  have hall : ∀ m ∈ Nonterminal.all, ∀ m' ∈ m.looser?, pass m' [.part m] ∈ Grammar.productions ∧
      plainPrograms.hasProduction (pass m' [.part m]) = true := by
    decide
  obtain ⟨hp, hhas⟩ := hall n n.mem_all n' h
  exact plain_mem hp hhas

theorem Written.numeral {w : String} (hw : isNumeral w.toList = true) :
    Written .primary (.leaf .whole w) := by
  have hlexemes : (Tree.leaf .whole w).lexemes = [⟨.whole, w.toList⟩] := rfl
  refine ⟨?_, by simp [hlexemes], fun c hc hend => ?_⟩
  · have hnumber : DerivesPlain .number (.leaf .whole (String.ofList w.toList))
        [⟨.whole, w.toList⟩] :=
      .closed (plain_mem (by decide) (by decide) : pass .number [.kept .whole] ∈ _)
        (.single ⟨.whole, w.toList⟩)
    rw [String.ofList_toList] at hnumber
    exact .closed (plain_mem (by decide) (by decide) : pass .primary [.part .number] ∈ _) hnumber
  · refine .cons (.inr rfl) (.numeral hw fun c' hc' => ?_) hc
    rcases hend c' hc' with rfl | rfl <;> decide

theorem Written.rune {x : String} (hx : isFreeName x.toList = true) :
    Written .primary (.form .rune [.leaf .name x]) := by
  have hlexemes : (Tree.form .rune [.leaf .name x]).lexemes = [⟨.name, x.toList⟩] := rfl
  refine ⟨?_, by simp [hlexemes], fun c hc hend => ?_⟩
  · have hrune : DerivesPlain .runeExpr (.form .rune [.leaf .name (String.ofList x.toList)])
        [⟨.name, x.toList⟩] :=
      .closed (plain_mem (by decide) (by decide) : rule .runeExpr .rune [.kept .name] ∈ _)
        (.single ⟨.name, x.toList⟩)
    rw [String.ofList_toList] at hrune
    exact .closed (plain_mem (by decide) (by decide) : pass .primary [.part .runeExpr] ∈ _) hrune
  · refine .cons (.inr rfl) (.name hx fun c' hc' => ?_) hc
    rcases hend c' hc' with rfl | rfl <;> rfl

theorem Written.expression {t : Tree} (h : Written .eitherExpr t) : Written .expression t :=
  .passed (plain_mem (by decide) (by decide) : pass .expression [.part .eitherExpr] ∈
    plainPrograms.productions) rfl rfl h

/-- Brackets make any expression a primary one. -/
theorem Written.group {t : Tree} (h : Written .expression t) :
    Written .primary (.form .group [t]) := by
  have hlexemes : (Tree.form .group [t]).lexemes =
      ⟨.openParen, ['(']⟩ :: (t.lexemes ++ [⟨.closeParen, [')']⟩]) := by
    simp [Tree.lexemes, Tree.printed, Tree.printedAll, Printed.punctuate, Printed.inParens, mark,
      Terminal.spelling?, Terminal.pattern, Pattern.spelling?]
  refine ⟨?_, by simp [hlexemes], fun c hc hend => ?_⟩
  · rw [hlexemes]
    exact .closed (plain_mem (by decide) (by decide) : rule .primary .group condition ∈
      plainPrograms.productions)
      (.token ⟨.openParen, ['(']⟩ (h.derives.append (.single ⟨.closeParen, [')']⟩)))
  · rw [hlexemes, Cut.blanked, Cut.blanked_append]
    refine .cons (.inr rfl) (.mark (by decide))
      (h.plain _ (.cons (.inr rfl) (.mark (by decide)) hc) ?_)
    simp [Cut.blanked, Cut.text, EndsOperand]

/-- **A reckoning is derived from its tokens.** -/
theorem Reckoning.written {n : Nonterminal} {t : Tree} (h : Reckoning n t) : Written n t := by
  induction h with
  | either hl hr ihl ihr =>
    exact .keptBetween (w := "||") (fun _ => rfl) (by decide)
      (plain_mem (by decide) (by decide)) ihl ihr
  | both hl hr ihl ihr =>
    exact .keptBetween (w := "&&") (fun _ => rfl) (by decide)
      (plain_mem (by decide) (by decide)) ihl ihr
  | comparison hw hl hr ihl ihr =>
    exact .keptBetween (fun _ => rfl) hw (plain_mem (by decide) (by decide)) ihl ihr
  | sum hw hl hr ihl ihr =>
    exact .keptBetween (fun _ => rfl) hw (plain_mem (by decide) (by decide)) ihl ihr
  | product hw hl hr ihl ihr =>
    exact .keptBetween (fun _ => rfl) hw (plain_mem (by decide) (by decide)) ihl ihr
  | denial h ih =>
    exact .keptBefore (w := "!") (fun _ => rfl) (by decide) (plain_mem (by decide) (by decide)) ih
  | negative h ih =>
    exact .before (o := mark .minus) (plain_mem (by decide) (by decide) :
      rule .unaryExpr .negative [.dropped .minus, .part .unaryExpr] ∈ _) rfl rfl rfl (by decide) ih
  | rounding hw h ih => exact .keptBefore (fun _ => rfl) hw (plain_mem (by decide) (by decide)) ih
  | power hl hr ihl ihr =>
    exact .between (o := mark .caret) (plain_mem (by decide) (by decide) :
      rule .powerExpr .power [.part .powerExpr, .dropped .caret, .part .primary] ∈ _)
      rfl rfl rfl (by decide) ihl ihr
  | numeral hw => exact .numeral hw
  | rune hx => exact .rune hx
  | group h ih => exact .group (.expression ih)
  | looser hn h ih => exact .passed (looser_mem hn) rfl rfl ih

/-! ### Reckonings are read -/

theorem PlainToken.terminal_mem {l : Lexeme} {v : List Char} (h : PlainToken l v) :
    l.terminal ∈ plainPrograms.terminals := by
  cases h with
  | sign hl hv => exact terminal_mem_of_signs hl
  | mark h => exact (marks_checked _ h).1
  | name hx hv => exact (by decide : Terminal.name ∈ plainPrograms.terminals)
  | numeral hw hv => exact (by decide : Terminal.whole ∈ plainPrograms.terminals)

/-- Plain tokens open no texts. -/
theorem PlainText.nesting_after {c : Cut} (h : PlainText c) (n : Nesting) :
    ∀ l ∈ c.lexemes, n.after l.terminal = n := by
  induction h with
  | tail => exact nofun
  | @cons gap l c hgap hl h ih =>
    refine List.forall_mem_cons.mpr ⟨?_, ih⟩
    obtain ⟨ho, hc⟩ :=
      (by decide : ∀ t ∈ plainPrograms.terminals, t.opens? = none ∧ t.closes? = none)
      l.terminal hl.terminal_mem
    exact Nesting.after_of_neutral ho hc

/-- Lexemes that stand apart by single blanks may be put before a cut. -/
theorem Cut.text_spaced_append {ls : List Lexeme} (h : ∀ l ∈ ls, Nesting.after [] l.terminal = [])
    (c : Cut) : (Cut.spaced [] ls).text ++ c.text = (c.blanked ls).text := by
  induction ls with
  | nil => rfl
  | cons l ls ih =>
    obtain ⟨hl, hls⟩ := List.forall_mem_cons.mp h
    rw [Cut.spaced, hl, Cut.blanked, Cut.text, Cut.text, ← ih hls]
    simp [Nesting.inText]

theorem Cut.text_ofLexemes_append {ls : List Lexeme} (hne : ls ≠ [])
    (h : ∀ l ∈ ls, Nesting.after [] l.terminal = []) (c : Cut) :
    ' ' :: ((Cut.ofLexemes ls).text ++ c.text) = (c.blanked ls).text := by
  rw [← Cut.text_spaced_append h]
  cases ls with
  | nil => exact absurd rfl hne
  | cons l ls =>
    rw [Cut.ofLexemes, Cut.spaced]
    rfl

def Cut.semicolon : Cut := .cons ⟨[], ⟨.semicolon, [';']⟩⟩ (.tail [])

/-- What is written is plain up to its semicolon. -/
theorem Written.plain_semicolon {n : Nonterminal} {t : Tree} (h : Written n t) :
    PlainText (Cut.semicolon.blanked t.lexemes) :=
  h.plain _ (.cons (.inl rfl) (.mark (by decide)) .tail)
    (by simp [Cut.semicolon, Cut.text, EndsOperand])

/-- The declaration of a rune with a value, cut with one blank between two tokens. -/
def declarationCut (x : String) (value : Tree) : Cut :=
  .cons ⟨[], ⟨.rune, "rune".toList⟩⟩
    (.cons ⟨[' '], ⟨.name, x.toList⟩⟩ (.cons ⟨[' '], ⟨.equals, ['=']⟩⟩
    (Cut.semicolon.blanked value.lexemes)))

section
variable {x : String} {value : Tree} (hvalue : Written .expression value)
include hvalue

/-- A declaration of a free name is a plain text. -/
theorem plain_declarationCut (hx : isFreeName x.toList = true) :
    PlainText (declarationCut x value) := by
  have hequals := PlainText.cons (.inr rfl) (.sign (by decide : ⟨.equals, ['=']⟩ ∈ signs)
    (Cut.stops_blanked _ hvalue.ne_nil)) hvalue.plain_semicolon
  have hname := PlainText.cons (.inr rfl) (.name hx (fun c hc => by cases hc; rfl)) hequals
  exact .cons (.inl rfl) (.sign (by decide) (.cons rfl)) hname

/-- A declaration of what is written is derived. -/
theorem derives_declarationCut :
    DerivesPlain .start (.form .start [declaration x value]) (declarationCut x value).lexemes := by
  have hprogram := derives_program (i := (declaration x value, _))
    (List.forall_mem_singleton.mpr (derives_declaration hvalue.derives))
  simpa [declarationCut, Cut.semicolon, Cut.lexemes, Cut.lexemes_blanked] using hprogram

/-- A declaration is written as its name and its value. -/
theorem text_declarationCut : String.ofList (declarationCut x value).text =
    "rune " ++ x ++ " = " ++ value.unparse ++ ";" := by
  have hneutral : ∀ l ∈ value.lexemes, Nesting.after [] l.terminal = [] := fun l hl =>
    hvalue.plain_semicolon.nesting_after [] l
      (by rw [Cut.lexemes_blanked]; exact List.mem_append_left _ hl)
  have htext := Cut.text_ofLexemes_append hvalue.ne_nil hneutral Cut.semicolon
  apply String.toList_injective
  simp [declarationCut, Cut.text, Tree.unparse, ← htext, show Cut.semicolon.text = [';'] from rfl]

end

/-- **Precedence and associativity.** A reckoning is read from its own text. -/
theorem Tree.read_reckoning {t : Tree} (h : Reckoning .eitherExpr t) :
    Tree.read ("rune r = " ++ t.unparse ++ ";") =
      .ok (.form .start [.form .declare [.leaf .rune "rune", .form .name [.leaf .name "r"], t]]) :=
  by
  have hvalue := h.written.expression
  have hfree : isFreeName "r".toList = true := by decide
  have hread := Tree.read_plain (plain_declarationCut hvalue hfree) (derives_declarationCut hvalue)
  rwa [text_declarationCut hvalue] at hread

/-- A sum whose last term is a product, with a sign before a power of a power. -/
theorem Tree.read_reckoning_signedPower :
    let t : Tree := .form .sum [.form .rune [.leaf .name "a"], .leaf .addOp "-",
      .form .product [.form .rune [.leaf .name "b"], .leaf .mulOp "//",
        .form .negative [.form .power
        [.form .power [.form .rune [.leaf .name "c"], .leaf .whole "2"], .form .group [.form .either
          [.leaf .whole "7", .leaf .either "||", .form .rune [.leaf .name "d"]]]]]]]
    Reckoning .eitherExpr t ∧ t.unparse = "a - b // - c ^ 2 ^ ( 7 || d )" ∧
      Tree.read ("rune r = " ++ "a - b // - c ^ 2 ^ ( 7 || d )" ++ ";") =
        .ok (.form .start
          [.form .declare [.leaf .rune "rune", .form .name [.leaf .name "r"], t]]) := by
  intro t
  have hname : ∀ x ∈ ["a", "b", "c", "d"], Reckoning .primary (.form .rune [.leaf .name x]) :=
    fun x hx => .rune ((by decide : ∀ x ∈ ["a", "b", "c", "d"], isFreeName x.toList = true) x hx)
  have hproduct {t : Tree} (h : Reckoning .primary t) : Reckoning .productExpr t :=
    .looser rfl (.looser rfl (.looser rfl h))
  have hboth {t : Tree} (h : Reckoning .primary t) : Reckoning .bothExpr t :=
    .looser rfl (.looser rfl (.looser rfl (hproduct h)))
  have hpower :=
    Reckoning.power (.power (.looser rfl (hname "c" (by simp))) (.numeral (w := "2") (by decide)))
    (.group (.either (.looser rfl (hboth (.numeral (w := "7") (by decide))))
      (hboth (hname "d" (by simp)))))
  have hsum : Reckoning .sumExpr t :=
    .sum (by decide) (.looser rfl (hproduct (hname "a" (by simp))))
    (.product (by decide) (hproduct (hname "b" (by simp))) (.negative (.looser rfl hpower)))
  have ht : Reckoning .eitherExpr t := .looser rfl (.looser rfl (.looser rfl hsum))
  have htext : t.unparse = "a - b // - c ^ 2 ^ ( 7 || d )" := by decide
  have hread := Tree.read_reckoning ht
  rw [htext] at hread
  exact ⟨ht, htext, hread⟩

end Spellbook
