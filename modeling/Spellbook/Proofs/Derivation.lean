import Spellbook.Grammar.Reader
import Spellbook.Proofs.Table

/-!
# Derivations

`Derives grammar xs pieces ls`: the symbols `xs` derive the tokens `ls` by productions of `grammar`,
and `pieces` are what a reader makes of them, one for each symbol.

What lies on the stack of the reader is always a derivation of the tokens taken so far (`Reached`).
A token that is taken extends it (`Reached.feed_taken`), and a text is complete only when the start
of the grammar derives all of its tokens (`Reached.feed_complete`).

Every production closes the texts and braces that it opens, so the tokens alone say whether the
reader stands directly inside an interpolated text (`Reached.inText_top`).
-/

namespace Spellbook

/-- A token without its place. -/
structure Lexeme where
  terminal : Terminal
  text : List Char
  deriving DecidableEq, Repr

/-! ### Nesting -/

/-- The enclosures that are open, the innermost first. -/
abbrev Nesting := List Enclosure

namespace Nesting

/-- Whether the innermost enclosure is a text. -/
def inText (n : Nesting) : Bool := n.head? == some .text

/-- What is open after one more token. -/
def after (n : Nesting) (t : Terminal) : Nesting :=
  match t.opens?, t.closes? with
  | some e, _ => e :: n
  | none, some _ => n.tail
  | none, none => n

/-- What is open after some tokens. -/
def afterAll (n : Nesting) (ls : List Lexeme) : Nesting :=
  ls.foldl (fun n l => n.after l.terminal) n

/-- What is open after some symbols, of which a nonterminal leaves nothing open. -/
def afterSymbols (n : Nesting) : List Symbol → Nesting
  | [] => n
  | .terminal t :: xs => (n.after t).afterSymbols xs
  | .nonterminal _ :: xs => n.afterSymbols xs

@[simp] theorem afterAll_nil (n : Nesting) : n.afterAll [] = n := rfl

@[simp] theorem afterAll_cons (n : Nesting) (l : Lexeme) (ls : List Lexeme) :
    n.afterAll (l :: ls) = (n.after l.terminal).afterAll ls := rfl

/-- The nesting after two rows of lexemes is that of the second after the first. -/
@[simp] theorem afterAll_append (n : Nesting) (ls ls' : List Lexeme) :
    n.afterAll (ls ++ ls') = (n.afterAll ls).afterAll ls' := List.foldl_append

theorem afterAll_snoc (n : Nesting) (ls : List Lexeme) (l : Lexeme) :
    n.afterAll (ls ++ [l]) = (n.afterAll ls).after l.terminal := afterAll_append ..

@[simp] theorem afterSymbols_append (n : Nesting) (xs ys : List Symbol) :
    n.afterSymbols (xs ++ ys) = (n.afterSymbols xs).afterSymbols ys := by
  induction xs generalizing n with
  | nil => rfl
  | cons x xs ih => cases x <;> exact ih _

/-- An opening terminal adds its enclosure. -/
theorem after_of_opens {n : Nesting} {t : Terminal} {e : Enclosure} (h : t.opens? = some e) :
    n.after t = e :: n := by
  rw [after, h]

/-- A closing terminal drops the innermost enclosure. -/
theorem after_of_closes {n : Nesting} {t : Terminal} {e : Enclosure} (h : t.closes? = some e) :
    n.after t = n.tail := by
  rw [after, Terminal.opens_of_closes h, h]

theorem after_of_neutral {n : Nesting} {t : Terminal} (ho : t.opens? = none)
    (hc : t.closes? = none) : n.after t = n := by
  rw [after, ho, hc]

end Nesting

/-- Whether some symbols close what they open, and `opened` before them. -/
def balanced (opened : Nesting) : List Symbol → Bool
  | [] => opened.isEmpty
  | .nonterminal _ :: xs => balanced opened xs
  | .terminal t :: xs =>
    match t.opens?, t.closes?, opened with
    | some e, _, _ => balanced (e :: opened) xs
    | none, none, _ => balanced opened xs
    | none, some _, _ :: opened => balanced opened xs
    | none, some _, [] => false

/-- Balanced symbols leave the nesting as it was. -/
theorem afterSymbols_of_balanced {opened : Nesting} {xs : List Symbol}
    (h : balanced opened xs = true) (n : Nesting) : Nesting.afterSymbols (opened ++ n) xs = n := by
  induction xs generalizing opened with
  | nil =>
    rw [List.isEmpty_iff.mp h]
    rfl
  | cons x xs ih =>
    cases x with
    | nonterminal y => exact ih h
    | terminal t =>
      unfold balanced at h
      rw [Nesting.afterSymbols]
      split at h
      · next e ho =>
        rw [Nesting.after_of_opens ho]
        exact ih h
      · next ho hc =>
        rw [Nesting.after_of_neutral ho hc]
        exact ih h
      · next hc =>
        rw [Nesting.after_of_closes hc]
        exact ih h
      · cases h

/-- Every production of the grammar is balanced. -/
theorem productions_balanced : ∀ p ∈ Grammar.productions, balanced [] p.right = true := by
  decide

namespace Reader

/-! ### Derivations -/

/-- `Derives grammar xs pieces ls`: the symbols `xs` derive the tokens `ls`, and `pieces` are made
of them. -/
inductive Derives (grammar : List Production) :
    List Symbol → List Piece → List Lexeme → Prop
  | nil : Derives grammar [] [] []
  | token {xs : List Symbol} {pieces : List Piece} {ls : List Lexeme} (l : Lexeme)
      (rest : Derives grammar xs pieces ls) :
      Derives grammar (.terminal l.terminal :: xs)
        (.tree (.leaf l.terminal (String.ofList l.text)) :: pieces) (l :: ls)
  | close {xs : List Symbol} {parts pieces : List Piece} {ls ls' : List Lexeme} {p : Production}
      (hp : p ∈ grammar) (inside : Derives grammar p.right parts ls)
      (rest : Derives grammar xs pieces ls') :
      Derives grammar (.nonterminal p.left :: xs) (build p parts :: pieces) (ls ++ ls')

namespace Derives

variable {grammar : List Production} {xs ys : List Symbol} {pieces pieces' : List Piece}
  {ls ls' : List Lexeme}

theorem length_eq (h : Derives grammar xs pieces ls) : pieces.length = xs.length := by
  induction h with
  | nil => rfl
  | token l rest ih => simp [ih]
  | close hp inside rest _ ih => simp [ih]

/-- Derivations are put next to each other. -/
theorem append (h : Derives grammar xs pieces ls) (h' : Derives grammar ys pieces' ls') :
    Derives grammar (xs ++ ys) (pieces ++ pieces') (ls ++ ls') := by
  induction h with
  | nil => exact h'
  | token l rest ih => exact .token l ih
  | close hp inside rest _ ih =>
    rw [List.append_assoc]
    exact .close hp inside ih

/-- A token by itself. -/
theorem single (l : Lexeme) :
    Derives grammar [.terminal l.terminal] [.tree (.leaf l.terminal (String.ofList l.text))] [l] :=
  .token l .nil

/-- A production by itself. -/
theorem closed {p : Production} (hp : p ∈ grammar) (h : Derives grammar p.right pieces ls) :
    Derives grammar [.nonterminal p.left] [build p pieces] ls := by
  have hclose := Derives.close hp h .nil
  rwa [List.append_nil] at hclose

/-- A derivation of two lists of symbols is one of each. -/
theorem split (h : Derives grammar (xs ++ ys) pieces ls) :
    ∃ ls₁ ls₂, ls = ls₁ ++ ls₂ ∧ Derives grammar xs (pieces.take xs.length) ls₁ ∧
      Derives grammar ys (pieces.drop xs.length) ls₂ := by
  induction xs generalizing pieces ls with
  | nil => exact ⟨[], ls, rfl, .nil, h⟩
  | cons x xs ih =>
    cases h with
    | token l rest =>
      obtain ⟨ls₁, ls₂, rfl, h₁, h₂⟩ := ih rest
      exact ⟨l :: ls₁, ls₂, rfl, .token l h₁, h₂⟩
    | close hp inside rest =>
      obtain ⟨ls₁, ls₂, rfl, h₁, h₂⟩ := ih rest
      exact ⟨_ ++ ls₁, ls₂, (List.append_assoc ..).symm, .close hp inside h₁, h₂⟩

/-- A derivation leaves open what its symbols leave open. -/
theorem afterAll_eq (h : Derives Grammar.productions xs pieces ls) (n : Nesting) :
    n.afterAll ls = n.afterSymbols xs := by
  induction h generalizing n with
  | nil => rfl
  | token l rest ih => exact ih _
  | @close xs parts pieces ls ls' p hp inside rest ihin ih =>
    have hnothing := afterSymbols_of_balanced (productions_balanced p hp) n
    rw [Nesting.afterAll_append, ihin, show n.afterSymbols p.right = n from hnothing, ih]
    rfl

end Derives

/-! ### The stack -/

/-- `Linked stack xs`: each state of the stack was reached from the one below with its symbol; `xs`
are the symbols, the last one first. -/
inductive Linked : Stack → List Symbol → Prop
  | nil : Linked [] []
  | cons {stack : Stack} {xs : List Symbol} {x : Symbol} {state : Nat} {piece : Piece}
      (below : Linked stack xs) (hm : move? (top stack) x = some state) :
      Linked ((state, piece) :: stack) (x :: xs)

namespace Linked

variable {stack : Stack} {xs : List Symbol}

theorem length_eq (h : Linked stack xs) : stack.length = xs.length := by
  induction h with
  | nil => rfl
  | cons below hm ih => simp [ih]

theorem top_lt (h : Linked stack xs) : top stack < Automaton.size := by
  induction h with
  | nil => exact Automaton.size_pos
  | cons below hm ih => exact Automaton.move_lt ih hm

/-- The past of the top state is what lies on the stack. -/
theorem past_top (h : Linked stack xs) : Automaton.past (top stack) <+: xs.map Symbol.code := by
  induction h with
  | nil => exact Automaton.past_zero ▸ List.nil_prefix
  | cons below hm ih =>
    exact (Automaton.past_move below.top_lt hm).trans (List.cons_prefix_cons.mpr ⟨rfl, ih⟩)

/-- A stack without its top pieces is still linked. -/
theorem drop (h : Linked stack xs) (n : Nat) : Linked (stack.drop n) (xs.drop n) := by
  induction h generalizing n with
  | nil => simpa using Linked.nil
  | cons below hm ih =>
    cases n with
    | zero => exact .cons below hm
    | succ n => exact ih n

/-- Only the empty stack has the first state on top. -/
theorem eq_nil_of_top (h : Linked stack xs) (htop : top stack = 0) : stack = [] := by
  cases h with
  | nil => rfl
  | cons below hm => exact absurd htop (Automaton.move_ne_zero hm)

/-- What closes an enclosure stands over what opened it, with at most one nonterminal between. -/
theorem opener_below {e : Enclosure} (h : Linked stack xs)
    (hopen : Automaton.opensBefore (top stack) e = true) :
    (∃ ys, xs = .terminal e.opener :: ys) ∨
      ∃ n ys, xs = .nonterminal n :: .terminal e.opener :: ys := by
  have hpast := h.past_top
  rw [Automaton.opensBefore] at hopen
  split at hopen
  case h_2 => cases hopen
  next x rest hrest =>
  rw [hrest] at hpast
  cases xs with
  | nil => simp at hpast
  | cons y ys =>
    rw [List.map_cons, List.cons_prefix_cons] at hpast
    obtain ⟨rfl, hpast⟩ := hpast
    rcases Bool.or_eq_true_iff.mp hopen with hy | hy
    · have hy : y = .terminal e.opener := Symbol.code_injective (Nat.eq_of_beq_eq_true hy)
      exact .inl ⟨ys, by rw [hy]⟩
    · rw [Bool.and_eq_true] at hy
      obtain ⟨hlarge, hhead⟩ := hy
      cases y with
      | terminal t => exact absurd (Nat.le_of_ble_eq_true hlarge) (Nat.not_le.mpr t.code_lt)
      | nonterminal n =>
        cases rest with
        | nil => cases hhead
        | cons z rest =>
          cases ys with
          | nil => simp at hpast
          | cons y ys =>
            rw [List.map_cons, List.cons_prefix_cons] at hpast
            have hz : z = e.opener.code := by simpa using hhead
            have hy : y = .terminal e.opener := Symbol.code_injective (hpast.1.symm.trans hz)
            exact .inr ⟨n, ys, by rw [hy]⟩

/-- The state on top stands directly inside a text just if the innermost open enclosure is one. -/
theorem inText_top {stack : Stack} {xs : List Symbol} (h : Linked stack xs) :
    Automaton.inText (top stack) = (Nesting.afterSymbols [] xs.reverse).inText := by
  -- a closing terminal is answered by the part of the stack under what it closes
  induction hlen : xs.length using Nat.strongRecOn generalizing stack xs with
  | _ k ih =>
  subst hlen
  cases h with
  | nil => exact Automaton.inText_zero
  | @cons stack xs x state piece below hm =>
  rw [List.reverse_cons, Nesting.afterSymbols_append]
  show Automaton.inText state = _
  cases x with
  | nonterminal n =>
    rw [Automaton.inText_goto below.top_lt hm, ih _ (Nat.lt_succ_self _) below rfl]
    rfl
  | terminal t =>
  cases ho : t.opens? with
  | some e =>
    rw [Automaton.inText_of_opens below.top_lt hm ho, Nesting.afterSymbols,
      Nesting.after_of_opens ho]
    cases e <;> rfl
  | none =>
  cases hc : t.closes? with
  | none =>
    rw [Automaton.inText_of_neutral below.top_lt hm ho hc, ih _ (Nat.lt_succ_self _) below rfl,
      Nesting.afterSymbols, Nesting.after_of_neutral ho hc]
    rfl
  | some e =>
    rw [Nesting.afterSymbols, Nesting.after_of_closes hc]
    rcases below.opener_below (Automaton.opensBefore_of_closes below.top_lt hm hc) with
      ⟨ys, rfl⟩ | ⟨n, ys, rfl⟩
    · obtain rfl := Terminal.eq_closer hc
      cases below with
      | cons outer hopen =>
        rw [Automaton.inText_back outer.top_lt hopen hm,
          ih ys.length (by simp only [List.length_cons]; omega) outer rfl]
        simp only [List.reverse_cons, Nesting.afterSymbols_append, Nesting.afterSymbols,
          Nesting.after_of_opens (Enclosure.opens_opener e), List.tail_cons]
    · obtain rfl := Terminal.eq_closer hc
      cases below with
      | cons inner hn =>
        cases inner with
        | cons outer hopen =>
          rw [Automaton.inText_back_over outer.top_lt hopen hn hm,
            ih ys.length (by simp only [List.length_cons]; omega) outer rfl]
          simp only [List.reverse_cons, Nesting.afterSymbols_append, Nesting.afterSymbols,
            Nesting.after_of_opens (Enclosure.opens_opener e), List.tail_cons]

end Linked

/-- A reduction takes the pieces of a production off the stack and puts what they build on it. -/
theorem reduce_eq_some {k : Nat} {stack stack' : Stack} (h : reduce k stack = some stack') :
    ∃ p state, Grammar.productions[k]? = some p ∧
      goto? (top (stack.drop p.right.length)) p.left = some state ∧
      stack' = (state, build p ((stack.map Prod.snd).take p.right.length).reverse) ::
        stack.drop p.right.length := by
  rw [reduce, productions, List.getElem?_toArray] at h
  cases hp : Grammar.productions[k]? with
  | none => rw [hp] at h; cases h
  | some p =>
    rw [hp] at h
    obtain ⟨state, hgoto, rfl⟩ := Option.map_eq_some_iff.mp h
    refine ⟨p, state, rfl, hgoto, ?_⟩
    rw [← List.map_take, List.map_reverse]

/-- The right side of a production that is closed lies on top of the stack. If it is empty, the
token that closed it is taken next. -/
theorem Linked.reduce {stack stack' : Stack} {xs : List Symbol} {t : Terminal} {k : Nat}
    (h : Linked stack xs) (ha : action? (top stack) t = some (.reduce k))
    (hr : Reader.reduce k stack = some stack') :
    ∃ p ys state, Grammar.productions[k]? = some p ∧ xs = p.right.reverse ++ ys ∧
      stack' = (state, build p ((stack.map Prod.snd).take p.right.length).reverse) ::
        stack.drop p.right.length ∧
      Linked stack' (.nonterminal p.left :: ys) ∧
      (p.right = [] → ∃ n, move? state (.terminal t) = some n) := by
  obtain ⟨p, state, hp, hgoto, rfl⟩ := reduce_eq_some hr
  obtain ⟨p', hp', hpast, hempty⟩ := Automaton.reduce_past h.top_lt ha
  obtain rfl : p' = p := Option.some.inj (hp'.symm.trans hp)
  have hright : p'.right.reverse <+: xs := by
    have hcodes := hpast.trans h.past_top
    rw [← List.map_reverse] at hcodes
    exact (List.prefix_map_iff_of_injective fun _ _ => Symbol.code_injective).mp hcodes
  obtain ⟨ys, rfl⟩ := hright
  have hbelow := h.drop p'.right.length
  rw [List.drop_left' (List.length_reverse ..)] at hbelow
  refine ⟨p', ys, state, hp, rfl, rfl, .cons hbelow hgoto, fun hnil => ?_⟩
  obtain ⟨s, n, hs, hn⟩ := hempty hnil
  rw [hnil, List.length_nil, List.drop_zero] at hgoto
  obtain rfl : s = state := Option.some.inj (hs.symm.trans hgoto)
  exact ⟨n, hn⟩

/-! ### Tokens -/

/-- The stack is a derivation of the tokens `ls`. -/
def Reached (stack : Stack) (ls : List Lexeme) : Prop :=
  ∃ xs, Linked stack xs ∧ Derives Grammar.productions xs.reverse (stack.map Prod.snd).reverse ls

/-- A token `l` was rightly taken after the tokens `ls`, or rightly completed them. -/
def Outcome.Extends (ls : List Lexeme) (l : Lexeme) : Outcome → Prop
  | .taken stack => Reached stack (ls ++ [l])
  | .complete tree =>
    l.terminal = .textEnd ∧ Derives Grammar.productions [.nonterminal .start] [.tree tree] ls
  | .refused => True

section
variable {t : Terminal} {text : List Char} {fuel : Nat} {stack : Stack}

/-- A token is shifted where the table says so. -/
theorem feed_shift {state : Nat} (h : action? (top stack) t = some (.shift state)) :
    feed t text (fuel + 1) stack =
      .taken ((state, .tree (.leaf t (String.ofList text))) :: stack) := by
  rw [feed, h, respond]

/-- A token makes a reduction where the table says so, and is fed again. -/
theorem feed_reduce {k : Nat} {stack' : Stack} (h : action? (top stack) t = some (.reduce k))
    (hr : reduce k stack = some stack') :
    feed t text (fuel + 1) stack = feed t text fuel stack' := by
  rw [feed, h, respond, hr, Option.elim_some]

theorem feed_accept (h : action? (top stack) t = some .accept) :
    feed t text (fuel + 1) stack = finish stack := by
  rw [feed, h, respond]

end

namespace Reached

variable {stack stack' : Stack} {ls : List Lexeme} {t : Terminal}

theorem nil : Reached [] [] := ⟨[], .nil, .nil⟩

theorem top_lt (h : Reached stack ls) : top stack < Automaton.size := by
  obtain ⟨xs, hlinked, -⟩ := h
  exact hlinked.top_lt

/-- **The tokens say where the reader stands.** -/
theorem inText_top (h : Reached stack ls) :
    Automaton.inText (top stack) = (Nesting.afterAll [] ls).inText := by
  obtain ⟨xs, hlinked, hderives⟩ := h
  rw [hlinked.inText_top, hderives.afterAll_eq]

/-- A shift reaches a stack for one more lexeme. -/
theorem shift (h : Reached stack ls) (l : Lexeme) {state : Nat}
    (hm : move? (top stack) (.terminal l.terminal) = some state) :
    Reached ((state, .tree (.leaf l.terminal (String.ofList l.text))) :: stack) (ls ++ [l]) := by
  obtain ⟨xs, hlinked, hderives⟩ := h
  refine ⟨.terminal l.terminal :: xs, .cons hlinked hm, ?_⟩
  rw [List.reverse_cons, List.map_cons, List.reverse_cons]
  exact hderives.append (.single l)

/-- A reduction reaches a stack for the same lexemes. -/
theorem reduce {k : Nat} (h : Reached stack ls) (ha : action? (top stack) t = some (.reduce k))
    (hr : Reader.reduce k stack = some stack') : Reached stack' ls := by
  obtain ⟨xs, hlinked, hderives⟩ := h
  obtain ⟨p, ys, state, hp, rfl, rfl, hlinked', -⟩ := hlinked.reduce ha hr
  rw [List.reverse_append, List.reverse_reverse] at hderives
  obtain ⟨ls₁, ls₂, rfl, h₁, h₂⟩ := hderives.split
  refine ⟨.nonterminal p.left :: ys, hlinked', ?_⟩
  have hlen : (stack.map Prod.snd).length = p.right.length + ys.length := by
    rw [List.length_map, hlinked.length_eq, List.length_append, List.length_reverse]
  have hys : ys.reverse.length = (stack.map Prod.snd).length - p.right.length := by
    rw [hlen, List.length_reverse, Nat.add_sub_cancel_left]
  rw [hys, ← List.reverse_drop] at h₁
  rw [hys, ← List.reverse_take] at h₂
  rw [List.reverse_cons, List.map_cons, List.reverse_cons, List.map_drop]
  exact h₁.append (.closed (List.mem_of_getElem? hp) h₂)

/-- The text is complete when nothing but the start lies on the stack. -/
theorem accept (h : Reached stack ls) (ha : action? (top stack) t = some .accept) :
    ∃ state piece, t = .textEnd ∧ stack = [(state, piece)] ∧
      Derives Grammar.productions [.nonterminal .start] [piece] ls := by
  obtain ⟨xs, hlinked, hderives⟩ := h
  obtain ⟨ht, hpast⟩ := Automaton.accept_past hlinked.top_lt ha
  have hprefix := hlinked.past_top
  rw [hpast] at hprefix
  cases hlinked with
  | nil => simp at hprefix
  | @cons stack xs x state piece below hm =>
    rw [List.map_cons, List.cons_prefix_cons] at hprefix
    obtain rfl : .nonterminal .start = x := Symbol.code_injective hprefix.1
    have hstack := below.eq_nil_of_top (Automaton.eq_zero_of_goto_start below.top_lt hm)
    subst hstack
    cases below
    exact ⟨state, piece, ht, rfl, hderives⟩

/-- What a token does to the derivation on the stack. -/
theorem feed (h : Reached stack ls) (text : List Char) (fuel : Nat) :
    (Reader.feed t text fuel stack).Extends ls ⟨t, text⟩ := by
  induction fuel generalizing stack with
  | zero => trivial
  | succ fuel ih =>
    cases ha : action? (top stack) t with
    | none =>
      rw [Reader.feed, ha]
      trivial
    | some a =>
      cases a with
      | shift state =>
        rw [feed_shift ha]
        exact h.shift ⟨t, text⟩ (Automaton.move_of_shift h.top_lt ha)
      | reduce k =>
        cases hr : Reader.reduce k stack with
        | none =>
          rw [Reader.feed, ha, respond, hr]
          trivial
        | some stack' =>
          rw [feed_reduce ha hr]
          exact ih (h.reduce ha hr)
      | accept =>
        rw [feed_accept ha]
        obtain ⟨state, piece, ht, rfl, hderives⟩ := h.accept ha
        cases piece with
        | tree tree => exact ⟨ht, hderives⟩
        | list ts => trivial

/-- A token that is taken reaches a stack for one more lexeme, by induction on the fuel. -/
theorem feed_taken {text : List Char} {fuel : Nat} (h : Reached stack ls)
    (hf : Reader.feed t text fuel stack = .taken stack') : Reached stack' (ls ++ [⟨t, text⟩]) := by
  have hfeed := h.feed (t := t) text fuel
  rwa [hf] at hfeed

/-- A text is complete only at its end, where the start symbol derives its lexemes. -/
theorem feed_complete {text : List Char} {fuel : Nat} {tree : Tree} (h : Reached stack ls)
    (hf : Reader.feed t text fuel stack = .complete tree) :
    t = .textEnd ∧ Derives Grammar.productions [.nonterminal .start] [.tree tree] ls := by
  have hfeed := h.feed (t := t) text fuel
  rwa [hf] at hfeed

end Reached
end Reader
end Spellbook
