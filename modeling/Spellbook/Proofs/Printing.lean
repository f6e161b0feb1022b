import Spellbook.Proofs.Building
import Spellbook.Proofs.Layout

/-!
# Printing

`Tree.lexemes` gives the tokens of a tree with the punctuation put back in, and `Tree.unparse`
writes them with one blank between two of them. A text that is read as `t` has just the tokens of
`t`, and the text of `t` is read as `t` again (`Tree.read_unparse`).
-/

namespace Spellbook

/-! ### The tokens of a tree -/

/-- The tokens of a tree, and what the punctuation around them depends on. -/
structure Printed where
  lexemes : List Lexeme
  /-- an optional part that was left out -/
  isAbsent : Bool
  /-- an instruction that no semicolon follows -/
  standsAlone : Bool

namespace Printed

def inParens (p : Printed) : List Lexeme := mark .openParen :: p.lexemes ++ [mark .closeParen]

def inBraces (p : Printed) : List Lexeme := mark .openBrace :: p.lexemes ++ [mark .closeBrace]

/-- A part that may be absent, with the sign before it. -/
def after (t : Terminal) (p : Printed) : List Lexeme :=
  if p.isAbsent then [] else mark t :: p.lexemes

def instruction (p : Printed) : List Lexeme :=
  if p.standsAlone then p.lexemes else p.lexemes ++ [mark .semicolon]

/-- Words with a condition and a block each, then perhaps a last word with a block. -/
def branches : List Printed → List Lexeme
  | word :: test :: body :: rest =>
    word.lexemes ++ test.inParens ++ body.inBraces ++ branches rest
  | [word, body] => if word.isAbsent then [] else word.lexemes ++ body.inBraces
  | _ => []

/-- The tokens of a node of the given kind, made of those of its children. -/
def punctuate : Form → List Printed → List Lexeme
  | .start, ps => ps.flatMap instruction
  | .block, ps => ps.flatMap instruction
  | .declare, [word, name, value] => word.lexemes ++ name.lexemes ++ value.after .equals
  | .declareSealed, [sealedWord, word, name, value] =>
    sealedWord.lexemes ++ word.lexemes ++ name.lexemes ++ value.after .equals
  | .assign, [name, value] => name.lexemes ++ mark .equals :: value.lexemes
  | .incantation, [word, name, parameters, body] =>
    word.lexemes ++ name.lexemes ++ parameters.lexemes ++ body.inBraces
  | .parameters, ps => ps.flatMap fun p => mark .tilde :: p.lexemes
  | .cast, [word, name, arguments] =>
    word.lexemes ++ name.lexemes ++ mark .openCall :: arguments.lexemes ++ [mark .closeCall]
  | .arguments, p :: ps => p.lexemes ++ ps.flatMap fun p => mark .comma :: p.lexemes
  | .foretell, ps => branches ps
  | .mayhaps, [word, ratio, body, otherwise, body'] =>
    word.lexemes ++ (if ratio.isAbsent then [] else ratio.inParens) ++ body.inBraces ++
      branches [otherwise, body']
  | .ratio, [left, right] => left.lexemes ++ mark .colon :: right.lexemes
  | .rangeCycle, [word, range, body] => word.lexemes ++ range.inParens ++ body.inBraces
  | .endlessCycle, [word, adWord, infinitum, body] =>
    word.lexemes ++ mark .openParen :: adWord.lexemes ++ infinitum.lexemes ++ mark .closeParen ::
      body.inBraces
  | .lestCycle, [word, lest, test, body] =>
    word.lexemes ++ mark .openParen :: lest.lexemes ++ test.lexemes ++ mark .closeParen ::
      body.inBraces
  | .eachCycle, [word, name, betwixt, whole, body] =>
    word.lexemes ++ mark .openParen :: name.lexemes ++ betwixt.lexemes ++ whole.lexemes ++
      mark .closeParen :: body.inBraces
  | .range, [name, first, last, step] =>
    name.lexemes ++ first.lexemes ++ mark .arrow :: last.lexemes ++ step.after .bar
  | .negative, [p] => mark .minus :: p.lexemes
  | .power, [base, exponent] => base.lexemes ++ mark .caret :: exponent.lexemes
  | .group, [p] => p.inParens
  | .index, [name, place] => name.lexemes ++ mark .indexMark :: place.lexemes
  | .tome, [word, contents] =>
    word.lexemes ++ mark .openBracket :: contents.lexemes ++ [mark .closeBracket]
  | .tomeContents, p :: ps => p.lexemes ++ ps.flatMap fun p => mark .comma :: p.lexemes
  | _, ps => ps.flatMap lexemes

end Printed

/-- Whether an instruction of this kind ends with its block, without a semicolon. -/
def Form.standsAlone : Form → Bool
  | incantation | foretell | mayhaps | rangeCycle | endlessCycle | lestCycle | eachCycle => true
  | _ => false

mutual

def Tree.printed : Tree → Printed
  | .node (.form f) children =>
    ⟨Printed.punctuate f (Tree.printedAll children), false, f.standsAlone⟩
  | .node (.other _) children => ⟨(Tree.printedAll children).flatMap Printed.lexemes, false, false⟩
  | .token (.terminal t) text => ⟨[⟨t, text.toList⟩], false, false⟩
  | .token (.other _) _ => ⟨[], false, false⟩
  | .absent => ⟨[], true, false⟩

def Tree.printedAll : List Tree → List Printed
  | [] => []
  | t :: ts => t.printed :: Tree.printedAll ts

end

def Tree.lexemes (t : Tree) : List Lexeme := t.printed.lexemes

@[simp] theorem Tree.printedAll_append (ts ts' : List Tree) :
    Tree.printedAll (ts ++ ts') = Tree.printedAll ts ++ Tree.printedAll ts' := by
  induction ts with
  | nil => rfl
  | cons t ts ih => rw [List.cons_append, Tree.printedAll, ih]; rfl

/-! ### What a derivation is printed as -/

def Nonterminal.standsAlone? : Nonterminal → Option Bool
  | incantation | foretell | mayhaps | cycle => some true
  | reveal | declare | declareSealed | assign | dispel | sealRune | increment | interrupt | proclaim
  | cast => some false
  | _ => none

/-- `Fits n ts ls`: the trees `ts`, made for the nonterminal `n`, are printed as the tokens `ls`. -/
def Fits : Account
  | .instruction, ts, ls => ∃ t, ts = [t] ∧ ls = t.printed.instruction
  | .instructions, ts, ls => ls = (Tree.printedAll ts).flatMap Printed.instruction
  | .parameterList, ts, ls => ls = (Tree.printedAll ts).flatMap fun p => mark .tilde :: p.lexemes
  | .furtherArguments, ts, ls => ls = (Tree.printedAll ts).flatMap fun p => mark .comma :: p.lexemes
  | .parts, ts, ls => ls = (Tree.printedAll ts).flatMap Printed.lexemes
  | .shifts, ts, ls =>
    ∀ ps, Printed.branches (Tree.printedAll ts ++ ps) = ls ++ Printed.branches ps
  | n, ts, ls =>
    ∃ t, ts = [t] ∧ ls = t.printed.lexemes ∧ t.printed.isAbsent = false ∧
      ∀ b, n.standsAlone? = some b → t.printed.standsAlone = b

section
open Grammar (rule condition braced cycleOver)

-- Each production is printed symbolically: its right side is known, its parts are variables.

attribute [local simp] Tree.printed Tree.printedAll Printed.instruction Printed.after
  Printed.inBraces Printed.inParens Printed.branches Nonterminal.standsAlone? Form.standsAlone
  Printed.punctuate

/-- What a production builds is printed as the tokens that it was built from. -/
theorem productions_printable {p : Production} (hp : p ∈ Grammar.productions) :
    p.Respects Fits := by
  revert p
  simp only [Grammar.productions, Grammar.statements, Grammar.control, Grammar.expressions,
    Grammar.lists, List.forall_mem_append, List.forall_mem_cons]
  and_intros
  all_goals first
    | exact List.forall_mem_nil _
    | refine Production.respects_of_ensures ?_
      simp only [Production.trees, Account.Ensures, Fits, rule, Grammar.pass, Grammar.list,
        condition, braced, cycleOver, List.cons_append, List.nil_append, forall_exists_index,
        and_imp]
      intros
      subst_eqs
      simp_all

end

/-! ### The text of a tree -/

namespace Cut

/-- Some tokens with one blank before each, but nothing directly inside a text. -/
def spaced : Nesting → List Lexeme → Cut
  | _, [] => .tail []
  | n, l :: ls => .cons ⟨if n.inText then [] else [' '], l⟩ (spaced (n.after l.terminal) ls)

/-- Some tokens with one blank between two of them, but nothing directly inside a text. -/
def ofLexemes : List Lexeme → Cut
  | [] => .tail []
  | l :: ls => .cons ⟨[], l⟩ (spaced (Nesting.after [] l.terminal) ls)

end Cut

def Tree.unparse (t : Tree) : String := String.ofList (Cut.ofLexemes t.lexemes).text

namespace Reader

variable {stack : Stack} {ls : List Lexeme} {c : Cut} {t : Tree}

theorem Reads.respaces_spaced (h : Reads stack c t) (hreached : Reached stack ls) :
    Respaces (Nesting.afterAll [] ls) c (.spaced (Nesting.afterAll [] ls) c.lexemes) ∧
      Agree c.text (Cut.spaced (Nesting.afterAll [] ls) c.lexemes).text := by
  induction h generalizing ls with
  | finish hskips hfeed => exact ⟨.finish (.layout .nil), .of_stops _ .nil⟩
  | @take stack stack' s c t hskips hstarts hfeed rest ih =>
    obtain ⟨hrespaces, hagree⟩ := ih (hreached.feed_taken hfeed)
    rw [Nesting.afterAll_snoc] at hrespaces hagree
    rw [Cut.lexemes, Cut.spaced, Cut.text, Cut.text]
    cases htext : (Nesting.afterAll [] ls).inText with
    | true =>
      have hgap : s.gap = [] :=
        (hreached.isText (by rw [hreached.inText_top, htext])).eq_nil_of_skips hskips
      refine ⟨.take (fun _ => hgap.symm) (fun hout => ?_) hagree hrespaces, ?_⟩
      · rw [htext] at hout
        cases hout
      · rw [hgap]
        exact hagree.append _
    | false =>
      refine ⟨.take (fun hin => ?_) (fun _ => .blank rfl .nil) hagree hrespaces, ?_⟩
      · rw [htext] at hin
        cases hin
      · exact .of_stops _ (.cons rfl)

/-- The reader goes through the tokens of a text with one blank between them. -/
theorem Reads.ofLexemes (h : Reads [] c t) : Reads [] (.ofLexemes c.lexemes) t := by
  refine h.respace .nil ?_
  cases h with
  | finish hskips hfeed => exact .finish (.layout .nil)
  | take hskips hstarts hfeed rest =>
    obtain ⟨hrespaces, hagree⟩ := rest.respaces_spaced (Reached.nil.feed_taken hfeed)
    exact .take (fun hin => nomatch hin) (fun _ => .nil) hagree hrespaces

/-- The tokens of a text that is read are those of its tree. -/
theorem Reads.lexemes_eq (h : Reads [] c t) : c.lexemes = t.lexemes := by
  obtain ⟨t', ht, hls, -⟩ := h.accounted (F := Fits) fun _ => productions_printable
  cases ht
  exact hls

end Reader

/-! ### Characters of a text -/

theorem Cut.mem_text_of_mem_lexemes {c : Cut} {l : Lexeme} {a : Char} (hl : l ∈ c.lexemes)
    (ha : a ∈ l.text) : a ∈ c.text := by
  induction c with
  | tail cs => cases hl
  | cons s c ih =>
    rw [Cut.text, List.mem_append, List.mem_append]
    rcases List.mem_cons.mp hl with rfl | hl
    · exact .inr (.inl ha)
    · exact .inr (.inr (ih hl))

theorem Cut.mem_text_spaced {n : Nesting} {ls : List Lexeme} {a : Char}
    (h : a ∈ (Cut.spaced n ls).text) : a = ' ' ∨ ∃ l ∈ ls, a ∈ l.text := by
  induction ls generalizing n with
  | nil => cases h
  | cons l ls ih =>
    rw [Cut.spaced, Cut.text, List.mem_append, List.mem_append] at h
    rcases h with h | h | h
    · split at h
      · cases h
      · exact .inl (List.mem_singleton.mp h)
    · exact .inr ⟨l, List.mem_cons_self, h⟩
    · rcases ih h with h | ⟨l', hl', h⟩
      · exact .inl h
      · exact .inr ⟨l', List.mem_cons_of_mem l hl', h⟩

theorem Cut.mem_text_ofLexemes {ls : List Lexeme} {a : Char}
    (h : a ∈ (Cut.ofLexemes ls).text) : a = ' ' ∨ ∃ l ∈ ls, a ∈ l.text := by
  cases ls with
  | nil => cases h
  | cons l ls =>
    rw [Cut.ofLexemes, Cut.text, List.nil_append, List.mem_append] at h
    rcases h with h | h
    · exact .inr ⟨l, List.mem_cons_self, h⟩
    · rcases Cut.mem_text_spaced h with h | ⟨l', hl', h⟩
      · exact .inl h
      · exact .inr ⟨l', List.mem_cons_of_mem l hl', h⟩

/-- **A tree says what it was read from.** A text that is read as `t` has just the tokens of `t`,
and the text of `t` is read as `t` again. -/
theorem Tree.read_unparse {source : String} {t : Tree} (h : Tree.read source = .ok t) :
    Tree.read t.unparse = .ok t ∧
      ∃ c, Reader.cut (plainBreaks source.toList) = some c ∧ c.text = plainBreaks source.toList ∧
        c.lexemes = t.lexemes := by
  obtain ⟨c, hcut, htext, hreads⟩ := Reader.read_eq_ok_iff.mp h
  have hlexemes := hreads.lexemes_eq
  refine ⟨?_, c, hcut, htext, hlexemes⟩
  have hplain : '\r' ∉ (Cut.ofLexemes t.lexemes).text := by
    intro hmem
    rcases Cut.mem_text_ofLexemes hmem with hblank | ⟨l, hl, hmem⟩
    · cases hblank
    · rw [← hlexemes] at hl
      exact not_mem_plainBreaks _ (htext ▸ Cut.mem_text_of_mem_lexemes hl hmem)
  rw [Tree.read, Tree.unparse, String.toList_ofList, plainBreaks_of_not_mem hplain, ← hlexemes]
  exact Reader.read_of_reads hreads.ofLexemes

theorem Tree.read_unparse_dormant :
    Tree.read "rune a;" = .ok (dormantProgram "a") ∧
    Tree.read "rune a ;" = .ok (dormantProgram "a") := by
  have hreads : Reader.Reads [] (dormantCut "a") (dormantProgram "a") :=
    reads_dormantCut (by decide)
  have hread : Tree.read "rune a;" = .ok (dormantProgram "a") := Reader.read_of_reads hreads
  have htext : (dormantProgram "a").unparse = "rune a ;" := by decide
  exact ⟨hread, htext ▸ (Tree.read_unparse hread).1⟩

end Spellbook
