import Spellbook.Proofs.Subtrees

/-!
# Expressions that are read

`Expression` says how the trees of expressions are made, without the precedence of operators: which
parts are expressions again, which are names and which are the words and operators between them. The
parts of an interpolated text count as expressions, and of what is cast or heard nothing is said.
Every tree in a program that is read has the parts of an expression if it looks like one
(`Expression.of_read`).
-/

namespace Spellbook

/-- A tree that can be read as an expression, or as a part of an interpolated text. -/
inductive Expression : Tree → Prop
  | truth (text : String) : Expression (.leaf .truth text)
  | quoted (text : String) : Expression (.leaf .quoted text)
  | whole (text : String) : Expression (.leaf .whole text)
  | decimal (text : String) : Expression (.leaf .decimal text)
  | either {l r : Tree} {op : String} (hl : Expression l) (hr : Expression r) :
      Expression (.form .either [l, .leaf .either op, r])
  | both {l r : Tree} {op : String} (hl : Expression l) (hr : Expression r) :
      Expression (.form .both [l, .leaf .both op, r])
  | comparison {l r : Tree} {op : String} (hl : Expression l) (hr : Expression r) :
      Expression (.form .comparison [l, .leaf .compareOp op, r])
  | sum {l r : Tree} {op : String} (hl : Expression l) (hr : Expression r) :
      Expression (.form .sum [l, .leaf .addOp op, r])
  | product {l r : Tree} {op : String} (hl : Expression l) (hr : Expression r) :
      Expression (.form .product [l, .leaf .mulOp op, r])
  | denial {e : Tree} {op : String} (he : Expression e) :
      Expression (.form .denial [.leaf .bang op, e])
  | negative {e : Tree} (he : Expression e) : Expression (.form .negative [e])
  | rounding {e : Tree} {op : String} (he : Expression e) :
      Expression (.form .rounding [.leaf .roundOp op, e])
  | power {l r : Tree} (hl : Expression l) (hr : Expression r) : Expression (.form .power [l, r])
  | group {e : Tree} (he : Expression e) : Expression (.form .group [e])
  | measure {e : Tree} {word : String} (he : Expression e) :
      Expression (.form .measure [.leaf .measure word, e])
  | index {x : String} {e : Tree} (he : Expression e) :
      Expression (.form .index [.form .name [.leaf .name x], e])
  | rune (x : String) : Expression (.form .rune [.leaf .name x])
  | past (x : String) (yore : Tree) : Expression (.form .past [.leaf .name x, yore])
  | transmute {e : Tree} {word arrow kind : String} (he : Expression e) :
      Expression
        (.form .transmute [.leaf .transmute word, e, .leaf .arrow arrow, .leaf .dataType kind])
  | interpolation {ps : List Tree} {mark mark' : String} (hps : ∀ p ∈ ps, Expression p) :
      Expression (.form .interpolation (.leaf .openText mark :: (ps ++ [.leaf .quote mark'])))
  | prose (text : String) : Expression (.form .part [.leaf .prose text])
  | braced {e : Tree} {mark mark' : String} (he : Expression e) :
      Expression (.form .part [.leaf .openBrace mark, e, .leaf .closeBrace mark'])
  | collection (parts : List Tree) : Expression (.form .collection parts)
  | cast (parts : List Tree) : Expression (.form .cast parts)
  | listen (parts : List Tree) : Expression (.form .listen parts)
  | promptedListen (parts : List Tree) : Expression (.form .promptedListen parts)

/-- The kinds of node that expressions are. -/
def Form.isExpression : Form → Bool
  | .either | .both | .comparison | .sum | .product | .denial | .negative | .rounding
    | .power | .group
  | .measure | .index | .rune | .past | .transmute | .interpolation | .part | .collection
  | .cast | .listen | .promptedListen => true
  | _ => false

/-- Whether a tree looks like an expression from outside: it is a literal or a node of one of these
kinds. -/
def Tree.isExpression : Tree → Bool
  | .node (.form f) _ => f.isExpression
  | .token (.terminal t) _ => t ∈ [Terminal.truth, .quoted, .whole, .decimal]
  | _ => false

/-! ## What the productions make -/

def Nonterminal.isExpression : Nonterminal → Bool
  | .expression | .eitherExpr | .bothExpr | .compareExpr | .sumExpr | .productExpr
    | .unaryExpr | .powerExpr
  | .primary | .number | .measure | .index | .collection | .runeExpr | .cast | .listen | .transmute
  | .interpolation | .part => true
  | _ => false

/-- The trees that nonterminals stand for, as far as expressions need to know. -/
def Expressed : Account
  | .name, ts, _ => ∃ x, ts = [.form .name [.leaf .name x]]
  | .yore, ts, _ => ∃ t, ts = [t]
  | .parts, ts, _ => ∀ t ∈ ts, Expression t
  | n, ts, _ => n.isExpression = true → ∃ t, ts = [t] ∧ Expression t

theorem Expressed.of_isExpression {n : Nonterminal} {t : Tree} {ls : List Lexeme}
    (h : Expressed n [t] ls) (hn : n.isExpression = true) : Expression t := by
  cases n with
  | name | yore | parts => cases hn
  | _ =>
    obtain ⟨t', ht, he⟩ := h hn
    cases ht
    exact he

theorem Expression.emptyText (mark mark' : String) :
    Expression (.form .interpolation [.leaf .openText mark, .leaf .quote mark']) := by
  rw [← List.nil_append [Tree.leaf .quote mark']]
  exact .interpolation (List.forall_mem_nil _)

section
open Grammar (rule condition braced cycleOver)

-- As in the account of roles, each production is built symbolically; its constructor is then found
-- by rewriting.

attribute [local simp] Expression.truth Expression.quoted Expression.whole Expression.decimal
  Expression.either
  Expression.both Expression.comparison Expression.sum Expression.product Expression.denial
    Expression.negative
  Expression.rounding Expression.power Expression.group Expression.measure Expression.index
    Expression.rune
  Expression.past Expression.transmute Expression.interpolation Expression.emptyText
    Expression.prose
  Expression.braced Expression.collection Expression.cast Expression.listen
    Expression.promptedListen

/-- What is checked of a production: if it stands for an expression, a name or parts of a text, it
is one of a few. -/
def Production.isOther (p : Production) : Bool :=
  !(p.left.isExpression || [Nonterminal.name, .yore, .parts].contains p.left)

theorem Production.respects_of_isOther {p : Production} (h : p.isOther = true) :
    p.Respects Expressed := by
  intro ts ls _
  rw [isOther, Bool.not_eq_true', Bool.or_eq_false_iff] at h
  obtain ⟨hexpression, hother⟩ := h
  cases hleft : p.left with
  | name | yore | parts => rw [hleft] at hother; cases hother
  | _ => intro hn; rw [← hleft, hexpression] at hn; cases hn

/-- What a production builds for an expression is one. -/
theorem productions_expressed {p : Production} (hp : p ∈ Grammar.productions) :
    p.Respects Expressed := by
  revert p
  simp only [Grammar.productions, Grammar.statements, Grammar.control, Grammar.expressions,
    Grammar.lists, List.forall_mem_append, List.forall_mem_cons]
  and_intros
  all_goals first
    | exact List.forall_mem_nil _
    | exact Production.respects_of_isOther rfl
    | refine Production.respects_of_ensures ?_
      simp only [Production.trees, Account.Ensures, Expressed, rule, Grammar.pass, Grammar.list,
        condition, Nonterminal.isExpression, forall_exists_index, and_imp, forall_const]
      intros
      subst_eqs
      simp_all <;> grind

end

/-! ## Programs that are read -/

/-- What is checked of a production: only those of expressions make nodes that look like
expressions. -/
def Production.looksOk (p : Production) : Bool :=
  match p.shape with
  | .node f => !f.isExpression || p.left.isExpression
  | _ => true

theorem productions_look : Grammar.productions.all Production.looksOk = true := by
  decide

/-- **What looks like an expression in a program that is read is made like one.** -/
theorem Expression.of_read {source : String} {program t : Tree}
    (hread : Tree.read source = .ok program) (ht : t ∈ program.subtrees)
    (h : t.isExpression = true) : Expression t := by
  refine Tree.forall_subtrees_of_read (F := Expressed) (P := fun t => t.isExpression =
    true → Expression t)
    (fun t text h => ?_) nofun (fun _ => productions_expressed) (fun p hp f ts ls hshape hslots h =>
      ?_) hread ht h
  · have hliteral : t ∈ [Terminal.truth, .quoted, .whole, .decimal] := of_decide_eq_true h
    simp only [List.mem_cons, List.not_mem_nil, or_false] at hliteral
    obtain rfl | rfl | rfl | rfl := hliteral
    · exact .truth text
    · exact .quoted text
    · exact .whole text
    · exact .decimal text
  · have hf : f.isExpression = true := h
    have hleft : p.left.isExpression = true := by
      simpa [Production.looksOk, hshape, hf] using List.all_eq_true.mp productions_look p hp
    have hexpressed := productions_expressed hp ts ls hslots
    rw [Production.trees, hshape] at hexpressed
    exact hexpressed.of_isExpression hleft

end Spellbook
