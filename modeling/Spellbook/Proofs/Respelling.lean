import Spellbook.Proofs.Printing

/-!
# Tokens spelled otherwise

The automaton looks at the terminals of tokens, not at their texts, so what the reader does with a
stack does not depend on the texts in it (`Reader.feed_retext`). A text that is read can therefore
be given other tokens of the same terminals, with other gaps between them, as long as each is still
cut off where it stands; it is then read as the same tree with the other tokens in it
(`Reads.respell`). This gives the readings of a whole family of texts from the reading of one.
-/

namespace Spellbook

/-- What texts become, by terminal. -/
abbrev Spelling := Terminal → List Char → List Char

/-! ## Trees, pieces and stacks -/

mutual

def Tree.retext (g : Spelling) : Tree → Tree
  | .node l ts => .node l (Tree.retextAll g ts)
  | .token (.terminal t) text => .leaf t (String.ofList (g t text.toList))
  | .token (.other name) text => .token (.other name) text
  | .absent => .absent

/-- The trees with their tokens spelled otherwise. -/
def Tree.retextAll (g : Spelling) : List Tree → List Tree
  | [] => []
  | t :: ts => t.retext g :: Tree.retextAll g ts

end

@[simp] theorem Tree.retext_form (g : Spelling) (f : Form) (ts : List Tree) :
    (Tree.form f ts).retext g = .form f (Tree.retextAll g ts) := rfl

@[simp] theorem Tree.retext_absent (g : Spelling) : Tree.absent.retext g = .absent := rfl

namespace Reader

variable (g : Spelling)

/-- The piece with its tokens spelled otherwise. -/
def Piece.retext : Piece → Piece
  | .tree t => .tree (t.retext g)
  | .list ts => .list (Tree.retextAll g ts)

/-- The stack with its tokens spelled otherwise. -/
def Stack.retext (stack : Stack) : Stack := stack.map fun (state, piece) => (state, piece.retext g)

/-- The outcome with all tokens spelled otherwise. -/
def Outcome.retext : Outcome → Outcome
  | .taken stack => .taken (stack.retext g)
  | .complete t => .complete (t.retext g)
  | .refused => .refused

theorem retextAll_eq_map (ts : List Tree) : Tree.retextAll g ts = ts.map (Tree.retext g) := by
  induction ts with
  | nil => rfl
  | cons t ts ih => rw [Tree.retextAll, ih, List.map_cons]

theorem trees_retext (p : Piece) : (p.retext g).trees = p.trees.map (Tree.retext g) := by
  cases p with
  | tree t => rfl
  | list ts => exact retextAll_eq_map g ts

/-- Pieces are collected before or after they are respelled. -/
theorem collect_retext (slots : List Slot) (pieces : List Piece) :
    collect slots (pieces.map (Piece.retext g)) = (collect slots pieces).map (Tree.retext g) := by
  induction slots generalizing pieces with
  | nil => cases pieces <;> rfl
  | cons slot slots ih =>
    cases slot with
    | gap => rw [collect, ih, collect, List.map_cons, Tree.retext]
    | dropped t =>
      cases pieces with
      | nil => rfl
      | cons p pieces => rw [List.map_cons, collect, ih, collect]
    | kept t =>
      cases pieces with
      | nil => rfl
      | cons p pieces => rw [List.map_cons, collect, ih, collect, trees_retext, List.map_append]
    | part n =>
      cases pieces with
      | nil => rfl
      | cons p pieces => rw [List.map_cons, collect, ih, collect, trees_retext, List.map_append]

/-- A production builds before or after its pieces are respelled. -/
theorem build_retext (p : Production) (pieces : List Piece) :
    build p (pieces.map (Piece.retext g)) = (build p pieces).retext g := by
  rw [build, build, collect_retext]
  generalize collect p.slots pieces = children
  cases p.shape with
  | node f => exact congrArg (fun ts => Piece.tree (.form f ts)) (retextAll_eq_map g children).symm
  | list => exact congrArg Piece.list (retextAll_eq_map g children).symm
  | only =>
    rcases children with _ | ⟨t, _ | ⟨t', ts⟩⟩
    · rfl
    · rfl
    · exact congrArg Piece.list (retextAll_eq_map g (t :: t' :: ts)).symm

variable {g} {stack : Stack}

@[simp] theorem top_retext : top (stack.retext g) = top stack := by
  cases stack <;> rfl

/-- A respelled stack has the same lexer. -/
@[simp] theorem lexicon_retext : lexicon (stack.retext g) = lexicon stack := by
  rw [lexicon, top_retext, lexicon]

@[simp] theorem patience_retext : patience (stack.retext g) = patience stack := by
  rw [patience, Stack.retext, List.length_map, patience]

/-- A stack is reduced before or after it is respelled. -/
theorem reduce_retext (k : Nat) :
    reduce k (stack.retext g) = (reduce k stack).map (Stack.retext g) := by
  rw [reduce, reduce]
  cases productions[k]? with
  | none => rfl
  | some p =>
    have hbelow : (stack.retext g).drop p.right.length =
        Stack.retext g (stack.drop p.right.length) :=
      List.map_drop.symm
    have hpieces : ((stack.retext g).take p.right.length).reverse.map Prod.snd =
        ((stack.take p.right.length).reverse.map Prod.snd).map (Piece.retext g) := by
      simp [Stack.retext, List.map_take, Function.comp_def]
    dsimp only
    rw [hbelow, hpieces, build_retext, top_retext, Option.map_map]
    rfl

/-- **The automaton does not look at texts.** -/
theorem feed_retext (t : Terminal) (text : List Char) (fuel : Nat) :
    feed t (g t text) fuel (stack.retext g) = (feed t text fuel stack).retext g := by
  induction fuel generalizing stack with
  | zero => rfl
  | succ fuel ih =>
    rw [feed, feed, top_retext]
    cases haction : action? (top stack) t with
    | none => rfl
    | some a =>
      cases a with
      | shift state =>
        have hleaf : (Tree.leaf t (String.ofList text)).retext g =
            .leaf t (String.ofList (g t text)) := by
          rw [Tree.retext, String.toList_ofList]
        show Outcome.taken ((state, .tree (.leaf t (String.ofList (g t text)))) :: stack.retext g) =
          .taken ((state, .tree ((Tree.leaf t (String.ofList text)).retext g)) :: stack.retext g)
        rw [hleaf]
      | reduce k =>
        rw [respond, respond, reduce_retext]
        cases reduce k stack with
        | none => rfl
        | some stack' => exact ih
      | accept =>
        rcases stack with _ | ⟨⟨state, piece⟩, stack⟩
        · rfl
        · cases piece <;> rfl

end Reader

/-! ## Readings -/

def Lexeme.respell (g : Spelling) (l : Lexeme) : Lexeme := ⟨l.terminal, g l.terminal l.text⟩

/-- `Respells g n c c'`: after the enclosures `n`, the cut `c'` has the tokens of `c` as `g` spells
them. A lexer that cuts off a token of `c` where it stands also cuts off the token of `c'`, and
finds nothing but layout before it. -/
inductive Respells (g : Spelling) : Nesting → Cut → Cut → Prop
  | finish {n : Nesting} {tail tail' : List Char} (htail : Trailing tail') :
  Respells g n (.tail tail) (.tail tail')
  | take {n : Nesting} {s : Segment} {gap' : List Char} {c c' : Cut}
      (hgap : if n.inText then gap' = [] else Layout gap')
      (hstarts : ∀ L : Lexicon, (if n.inText then L.IsText else L.IsCode) →
        L.StartsWith (s.lexeme.text ++ c.text) s.lexeme c.text →
          L.StartsWith ((s.lexeme.respell g).text ++ c'.text) (s.lexeme.respell g) c'.text)
      (hrest : Respells g (n.after s.lexeme.terminal) c c') :
      Respells g n (.cons s c) (.cons ⟨gap', s.lexeme.respell g⟩ c')

namespace Reader

variable {g : Spelling} {stack : Stack} {ls : List Lexeme} {c c' : Cut} {t : Tree}

/-- **A text can be given other tokens of the same terminals**, and is then read as the tree with
these tokens. -/
theorem Reads.respell (hg : g .textEnd [] = []) (h : Reads stack c t) (hreached : Reached stack ls)
    (hc : Respells g (Nesting.afterAll [] ls) c c') : Reads (stack.retext g) c' (t.retext g) := by
  induction h generalizing ls c' with
  | @finish stack tail t hskips hfeed =>
    cases hc with
    | finish htail =>
      have hcode := hreached.isCode (hreached.not_inText_of_complete hfeed)
      refine .finish ?_ ?_
      · rw [lexicon_retext]
        exact hcode.skips_trailing htail
      · have hnew : feed .textEnd (g .textEnd []) (patience stack) (stack.retext g) = _ :=
          feed_retext .textEnd [] (patience stack)
        rw [hg, hfeed] at hnew
        rw [patience_retext, hnew, Outcome.retext]
  | @take stack stack' s c t hskips hstarts hfeed rest ih =>
    cases hc with
    | take hgap hnew hrest =>
      rename_i gap c'
      have hreached' := hreached.feed_taken hfeed
      rw [← Nesting.afterAll_snoc] at hrest
      rw [← hreached.inText_top] at hgap hnew
      have hfeed' : feed s.lexeme.terminal (g s.lexeme.terminal s.lexeme.text) (patience stack)
          (stack.retext g) = _ :=
        feed_retext s.lexeme.terminal s.lexeme.text (patience stack)
      rw [hfeed, Outcome.retext, ← patience_retext (g := g)] at hfeed'
      cases htext : Automaton.inText (top stack) with
      | false =>
        rw [htext] at hgap hnew
        have hcode := hreached.isCode htext
        have hstarts' := hnew _ hcode hstarts
        refine .take ?_ (by rwa [lexicon_retext]) hfeed' (ih hreached' hrest)
        rw [lexicon_retext, Cut.text]
        exact hcode.skips_layout hgap (hcode.not_blank_of_startsWith hstarts')
      | true =>
        rw [htext] at hgap hnew
        obtain rfl : gap = [] := hgap
        have hstarts' := hnew _ (hreached.isText htext) hstarts
        refine .take ?_ (by rwa [lexicon_retext]) hfeed' (ih hreached' hrest)
        rw [lexicon_retext, Cut.text]
        exact .done

/-- A reading gives the readings of all texts with tokens of the same terminals. -/
theorem read_respell (hg : g .textEnd [] = []) (h : Reads [] c t) (hc : Respells g [] c c') :
    read c'.text = .ok (t.retext g) :=
  read_of_reads (h.respell hg .nil hc)

end Reader

end Spellbook
