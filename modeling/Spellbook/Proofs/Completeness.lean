import Spellbook.Proofs.Reading

/-!
# Derivations are read

The converse of `Reached`: what a part of the grammar derives, the reader takes. A `Fragment` says
which symbols belong to the part, and for each nonterminal which tokens can start it and which can
follow it. What is needed of the tables is checked of each state that the symbols of the fragment
lead to (`Fragment.Checked`). Then each derivation of the fragment is taken token by token
(`Fragment.Checked.takes`), and a text whose tokens come apart is read (`Fragment.Checked.reads`).

A token closes a bounded number of productions: each makes the stack shorter or has a left side of
higher rank (`feed_of_closes`).
-/

namespace Spellbook

/-! ### Closing productions -/

/-- How many productions of one symbol can lie under a nonterminal. -/
def Nonterminal.rank : Nonterminal → Nat
  | collection | parameters | parts => 2
  | primary => 3
  | powerExpr => 4
  | unaryExpr => 5
  | productExpr => 6
  | sumExpr => 7
  | compareExpr => 8
  | bothExpr => 9
  | eitherExpr => 10
  | expression => 11
  | arguments | tomeContents | instruction => 12
  | instructions => 13
  | start | block => 14
  | _ => 1

def Symbol.rank : Symbol → Nat
  | terminal _ => 0
  | nonterminal n => n.rank

theorem Symbol.rank_lt (x : Symbol) : x.rank < 64 := by
  cases x with
  | terminal t => exact Nat.zero_lt_succ 63
  | nonterminal n => cases n <;> decide

/-- A production of one symbol goes up in rank. -/
theorem rank_of_single : ∀ p ∈ Grammar.productions, ∀ x, p.right = [x] →
    x.rank < p.left.rank := by
  have hchecked : ∀ p ∈ Grammar.productions, p.right.length = 1 →
      ∀ x ∈ p.right, x.rank < p.left.rank := by
    decide
  intro p hp x hx
  exact hchecked p hp (by rw [hx]; rfl) x (by rw [hx]; exact List.mem_singleton_self x)

namespace Reader

/-- `Closes t n stack stack'`: on the token `t` the reader closes `n` productions. -/
inductive Closes (t : Terminal) : Nat → Stack → Stack → Prop
  | refl (stack : Stack) : Closes t 0 stack stack
  | step {n k : Nat} {stack stack₁ stack₂ : Stack} (ha : action? (top stack) t = some (.reduce k))
      (hr : reduce k stack = some stack₁) (rest : Closes t n stack₁ stack₂) :
      Closes t (n + 1) stack stack₂

namespace Closes

variable {t : Terminal} {n : Nat} {stack stack₁ : Stack}

/-- Feeding a token first makes the reductions that it closes. -/
theorem feed_eq (h : Closes t n stack stack₁) (text : List Char) (fuel : Nat) :
    feed t text (fuel + n) stack = feed t text fuel stack₁ := by
  induction h with
  | refl => rfl
  | step ha hr rest ih => rw [← Nat.add_assoc, feed_reduce ha hr, ih]

end Closes

/-- More than the number of productions that can be closed on a stack of these symbols. -/
def potential : List Symbol → Nat
  | [] => 0
  | x :: xs => 64 * (xs.length + 1) + (63 - x.rank)

/-- The potential of a stack is bounded by its length. -/
theorem potential_le (xs : List Symbol) : potential xs ≤ 64 * (xs.length + 1) := by
  cases xs with
  | nil => exact Nat.zero_le _
  | cons x xs => simp only [potential, List.length_cons]; omega

/-- Closing a production that is not empty lowers the potential. -/
theorem potential_lt {p : Production} (hp : p ∈ Grammar.productions) (hne : p.right ≠ [])
    (ys : List Symbol) :
    potential (.nonterminal p.left :: ys) < potential (p.right.reverse ++ ys) := by
  obtain ⟨front, x, hright⟩ := (List.eq_nil_or_concat p.right).resolve_left hne
  have hreverse : p.right.reverse ++ ys = x :: (front.reverse ++ ys) := by
    rw [hright, List.concat_eq_append, List.reverse_append]
    rfl
  have hx := x.rank_lt
  have hleft : p.left.rank < 64 := Symbol.rank_lt (.nonterminal p.left)
  rw [hreverse]
  show 64 * (ys.length + 1) + (63 - p.left.rank) <
    64 * ((front.reverse ++ ys).length + 1) + (63 - x.rank)
  rw [List.length_append, List.length_reverse]
  cases front with
  | nil =>
    have hrank := rank_of_single p hp x hright
    rw [List.length_nil]
    omega
  | cons y front =>
    rw [List.length_cons]
    omega

/-- A token closes no more productions than the stack has room for. -/
theorem Closes.le_potential {t : Terminal} {n : Nat} {stack stack' : Stack} {xs : List Symbol}
    (h : Closes t n stack stack') (hlinked : Linked stack xs) : n ≤ potential xs + 1 := by
  induction h generalizing xs with
  | refl => exact Nat.zero_le _
  | @step n k stack stack₁ stack₂ ha hr rest ih =>
    obtain ⟨p, ys, state, hp, rfl, rfl, hlinked', hempty⟩ := hlinked.reduce ha hr
    by_cases hnil : p.right = []
    · -- the token is taken next, so nothing more is closed
      obtain ⟨m, hm⟩ := hempty hnil
      cases rest with
      | refl => exact Nat.le_add_left ..
      | step ha' =>
        rw [show top ((state, _) :: _) = state from rfl, Automaton.action_of_move hm] at ha'
        cases ha'
    · have hlt := potential_lt (List.mem_of_getElem? hp) hnil ys
      have hle := ih hlinked'
      omega

/-- A token that closes productions is answered as on the stack that it leaves. -/
theorem feed_of_closes {t : Terminal} {n : Nat} {stack stack' : Stack} {xs : List Symbol}
    (h : Closes t n stack stack') (hlinked : Linked stack xs) (text : List Char) :
    ∃ fuel, feed t text (patience stack) stack = feed t text (fuel + 1) stack' := by
  have hle := h.le_potential hlinked
  have hroom := potential_le xs
  rw [← hlinked.length_eq] at hroom
  refine ⟨patience stack - n - 1, ?_⟩
  have hpatience : patience stack = patience stack - n - 1 + 1 + n := by
    rw [patience]
    omega
  rw [hpatience, h.feed_eq]
  congr 1
  omega

end Reader

/-! ### Fragments -/

/-- A part of the grammar: its symbols, and for each nonterminal the tokens that can start it, those
that can follow it, and the nonterminals that are not awaited where it is. -/
structure Fragment where
  terminals : List Terminal
  nonterminals : List Nonterminal
  first : Nonterminal → List Terminal
  follow : Nonterminal → List Terminal
  apartFrom : Nonterminal → List Nonterminal

namespace Fragment

open Automaton (Action size field inText)

variable (f : Fragment)

def symbols : List Symbol := f.terminals.map .terminal ++ f.nonterminals.map .nonterminal

/-- Whether a production belongs to a fragment. -/
def hasProduction (p : Production) : Bool :=
  f.nonterminals.contains p.left && p.right.all f.symbols.contains

def numbered : List (Production × Nat) :=
  Grammar.productions.zipIdx.filter fun (p, _) => f.hasProduction p

def productions : List Production := f.numbered.map Prod.fst

def starts : Symbol → List Terminal
  | .terminal t => [t]
  | .nonterminal n => f.first n

/-- Each nonterminal of a right side can be followed by what comes after it; the tokens `after` come
after the right side. -/
def followsOk (after : List Terminal) : List Symbol → Bool
  | [] => true
  | .terminal _ :: xs => followsOk after xs
  | [.nonterminal n] => after.all (f.follow n).contains
  | .nonterminal n :: x :: xs => (f.starts x).all (f.follow n).contains && followsOk after (x :: xs)

def productionOk (p : Production) : Bool :=
  (p.right.head?.any fun x => (f.starts x).all (f.first p.left).contains) &&
    f.followsOk (f.follow p.left) p.right

def awaits (state : Nat) (n : Nonterminal) : Bool :=
  (goto? state n).isSome && (f.apartFrom n).all fun n' => (goto? state n').isNone

/-- Where some symbols lead, if the nonterminals are awaited. -/
def walk (state : Nat) : List Symbol → Option Nat
  | [] => some state
  | .terminal t :: xs => (move? state (.terminal t)).bind fun state' => walk state' xs
  | .nonterminal n :: xs =>
    bif f.awaits state n then (goto? state n).bind fun state' => walk state' xs else none

/-- The states that the symbols of a fragment lead to from some states, together with those in
`seen`, as the bits of a number. -/
def spread : Nat → Nat → List Nat → Nat
  | 0, seen, _ => seen
  | _, seen, [] => seen
  | fuel + 1, seen, state :: states =>
    let (seen, states) := (f.symbols.filterMap (move? state)).foldl
      (fun (seen, states) n =>
        bif Nat.beq (field 1 seen n) 0 then (Nat.lor seen (Nat.shiftLeft 1 n), n :: states)
        else (seen, states))
      (seen, states)
    spread fuel seen states

/-- The states that the symbols of a fragment lead to from the start, as the bits of a number. -/
def region : Nat := f.spread size 1 [0]

/-- Whether a state belongs to a fragment. -/
def inRegion (state : Nat) : Bool := !Nat.beq (field 1 f.region state) 0

/-- Whether the production `k` is closed. -/
def isReduce (k : Nat) : Option Action → Bool
  | some (.reduce k') => Nat.beq k' k
  | _ => false

def isAccept : Option Action → Bool
  | some .accept => true
  | _ => false

/-- What is checked of a state: the symbols of the fragment do not lead out of the region, and if
the left side of a production is awaited, then its right side leads to where it is closed. -/
def stateOk (state : Nat) : Bool :=
  (f.symbols.all fun x => (move? state x).all f.inRegion) && !inText state &&
    f.numbered.all fun (p, k) => !f.awaits state p.left ||
      (f.walk state p.right).any fun last => (f.follow p.left).all fun t =>
        isReduce k (action? last t)

def Checked : Prop :=
  (f.inRegion 0 && (f.walk 0 [.nonterminal .start]).any (isAccept <| action? · .textEnd) &&
    (f.follow .start).contains .textEnd && f.productions.all f.productionOk &&
    (List.range size).all fun state => !f.inRegion state || f.stateOk state) = true

instance : Decidable f.Checked := inferInstanceAs (Decidable (_ = true))

variable {f}

/-! ### What was checked -/

theorem eq_of_isReduce {k : Nat} {a : Option Action} (h : isReduce k a = true) :
    a = some (.reduce k) := by
  match a, h with
  | some (.reduce k'), h => rw [Nat.eq_of_beq_eq_true h]

theorem eq_of_isAccept {a : Option Action} (h : isAccept a = true) : a = some .accept := by
  match a, h with
  | some .accept, _ => rfl

namespace Checked

variable {state n k : Nat} {p : Production} {x : Symbol} (hf : f.Checked)
include hf

/-- The checks of a fragment, one by one. -/
theorem unpack :
    (((f.inRegion 0 = true ∧
      (f.walk 0 [.nonterminal .start]).any (isAccept <| action? · .textEnd) = true) ∧
      (f.follow .start).contains .textEnd = true) ∧ f.productions.all f.productionOk = true) ∧
      ((List.range size).all fun state => !f.inRegion state || f.stateOk state) = true := by
  simpa only [Checked, Bool.and_eq_true] using hf

theorem inRegion_zero : f.inRegion 0 = true := hf.unpack.1.1.1.1

theorem stateOk (hs : state < size) (hr : f.inRegion state = true) : f.stateOk state = true := by
  have hall := List.all_eq_true.mp hf.unpack.2 state (List.mem_range.mpr hs)
  rwa [hr, Bool.not_true, Bool.false_or] at hall

theorem productionOk (hp : p ∈ f.productions) : f.productionOk p = true :=
  List.all_eq_true.mp hf.unpack.1.2 p hp

section
variable (hs : state < size) (hr : f.inRegion state = true)
include hs hr

/-- A move on a symbol of the fragment stays in the region. -/
theorem inRegion_move (hx : x ∈ f.symbols) (hm : move? state x = some n) :
    f.inRegion n = true := by
  have hok := hf.stateOk hs hr
  simp only [Fragment.stateOk, Bool.and_eq_true] at hok
  have hstep := List.all_eq_true.mp hok.1.1 x hx
  rwa [hm, Option.all_some] at hstep

theorem not_inText : inText state = false := by
  have hok := hf.stateOk hs hr
  simp only [Fragment.stateOk, Bool.and_eq_true, Bool.not_eq_true'] at hok
  exact hok.1.2

/-- The right side of a production whose left side is awaited leads to where it is closed. -/
theorem walk_of_awaits (hp : (p, k) ∈ f.numbered) (hawaits : f.awaits state p.left = true) :
    ∃ last, f.walk state p.right = some last ∧
      ∀ t ∈ f.follow p.left, action? last t = some (.reduce k) := by
  have hok := hf.stateOk hs hr
  simp only [Fragment.stateOk, Bool.and_eq_true] at hok
  have hclosed := List.all_eq_true.mp hok.2 (p, k) hp
  rw [hawaits, Bool.not_true, Bool.false_or] at hclosed
  obtain ⟨last, hwalk, hall⟩ := (Option.any_eq_true _ _).mp hclosed
  refine ⟨last, hwalk, fun t ht => ?_⟩
  exact eq_of_isReduce (List.all_eq_true.mp hall t ht)

end

/-- A whole program is complete. -/
theorem accept_of_goto (hgoto : goto? 0 .start = some n) : action? n .textEnd = some .accept := by
  obtain ⟨last, hwalk, haccept⟩ := (Option.any_eq_true _ _).mp hf.unpack.1.1.1.2
  rw [walk] at hwalk
  cases hawaits : f.awaits 0 .start with
  | false => rw [hawaits] at hwalk; cases hwalk
  | true =>
    rw [hawaits, cond_true, hgoto, Option.bind_some, walk, Option.some.injEq] at hwalk
    rw [hwalk]
    exact eq_of_isAccept haccept

end Checked

/-! ### Derivations -/

section
variable {p : Production} {xs : List Symbol} {pieces : List Reader.Piece} {ls : List Lexeme}

/-- A numbered production has that number in the grammar. -/
theorem numbered_spec {k : Nat} (h : (p, k) ∈ f.numbered) :
    Grammar.productions[k]? = some p ∧ f.hasProduction p = true := by
  obtain ⟨hmem, hhas⟩ := List.mem_filter.mp h
  exact ⟨List.mem_zipIdx_iff_getElem?.mp hmem, hhas⟩

theorem exists_number (h : p ∈ f.productions) : ∃ k, (p, k) ∈ f.numbered := by
  obtain ⟨⟨p', k⟩, hmem, rfl⟩ := List.mem_map.mp h
  exact ⟨k, hmem⟩

theorem left_mem (h : p ∈ f.productions) : .nonterminal p.left ∈ f.symbols := by
  obtain ⟨k, hk⟩ := exists_number h
  have hhas := (numbered_spec hk).2
  rw [hasProduction, Bool.and_eq_true] at hhas
  exact List.mem_append_right _ (List.mem_map_of_mem (List.contains_iff_mem.mp hhas.1))

/-- What the fragment derives from a nonterminal shows that it is one of its symbols. -/
theorem mem_of_derives {n : Nonterminal} {pieces : List Reader.Piece}
    (h : Reader.Derives f.productions (.nonterminal n :: xs) pieces ls) :
    .nonterminal n ∈ f.symbols := by
  cases h with
  | close hp inside rest => exact left_mem hp

theorem right_mem (h : p ∈ f.productions) : ∀ x ∈ p.right, x ∈ f.symbols := by
  obtain ⟨k, hk⟩ := exists_number h
  have hhas := (numbered_spec hk).2
  rw [hasProduction, Bool.and_eq_true] at hhas
  exact fun x hx => List.contains_iff_mem.mp (List.all_eq_true.mp hhas.2 x hx)

/-- A derivation starts with a token that can start its first symbol. -/
theorem Checked.first_of_derives (hf : f.Checked) {x : Symbol}
    (h : Reader.Derives f.productions (x :: xs) pieces ls) :
    ∃ l ls', ls = l :: ls' ∧ l.terminal ∈ f.starts x := by
  generalize hwhole : x :: xs = whole at h
  induction h generalizing x xs with
  | nil => cases hwhole
  | token l rest ih =>
    cases hwhole
    exact ⟨l, _, rfl, List.mem_singleton_self _⟩
  | @close _ parts pieces ls ls' p hp inside rest ihin ih =>
    cases hwhole
    have hok := hf.productionOk hp
    rw [Fragment.productionOk, Bool.and_eq_true] at hok
    obtain ⟨y, hy, hstarts⟩ := (Option.any_eq_true _ _).mp hok.1
    cases hright : p.right with
    | nil => rw [hright] at hy; cases hy
    | cons z zs =>
      rw [hright] at hy
      cases hy
      obtain ⟨l, ls'', rfl, hl⟩ := ihin hright.symm
      exact ⟨l, ls'' ++ ls', rfl, List.contains_iff_mem.mp (List.all_eq_true.mp hstarts _ hl)⟩

end
end Fragment

namespace Reader

/-! ### Pushing -/

/-- `Pushed stack xs pieces stack'`: the symbols `xs` lead from `stack` to `stack'`. -/
inductive Pushed : Stack → List Symbol → List Piece → Stack → Prop
  | nil {stack : Stack} : Pushed stack [] [] stack
  | cons {stack stack' : Stack} {x : Symbol} {xs : List Symbol} {piece : Piece}
      {pieces : List Piece} {n : Nat} (hm : move? (top stack) x = some n)
      (h : Pushed ((n, piece) :: stack) xs pieces stack') :
      Pushed stack (x :: xs) (piece :: pieces) stack'

/-- Pieces that were pushed lie on top of the stack, the last one first. -/
theorem Pushed.eq_append {stack stack' : Stack} {xs : List Symbol} {pieces : List Piece}
    (h : Pushed stack xs pieces stack') :
    ∃ front, stack' = front ++ stack ∧ front.map Prod.snd = pieces.reverse := by
  induction h with
  | nil => exact ⟨[], rfl, rfl⟩
  | @cons stack stack' x xs piece pieces n hm h ih =>
    obtain ⟨front, rfl, hfront⟩ := ih
    refine ⟨front ++ [(n, piece)], by simp, ?_⟩
    rw [List.map_append, hfront, List.reverse_cons]
    rfl

/-- The pieces of a walk can be pushed. -/
theorem Pushed.exists_of_walk {f : Fragment} {stack : Stack} {xs : List Symbol}
    {pieces : List Piece} {last : Nat} (h : f.walk (top stack) xs = some last)
    (hlen : pieces.length = xs.length) :
    ∃ stack', Pushed stack xs pieces stack' ∧ top stack' = last := by
  induction xs generalizing stack pieces with
  | nil =>
    obtain rfl := List.length_eq_zero_iff.mp hlen
    exact ⟨stack, .nil, Option.some.inj h⟩
  | cons x xs ih =>
    obtain ⟨piece, pieces, rfl⟩ := List.exists_cons_of_length_eq_add_one hlen
    obtain ⟨n, hm, hwalk⟩ : ∃ n, move? (top stack) x = some n ∧ f.walk n xs = some last := by
      cases x with
      | terminal t =>
        rw [Fragment.walk] at h
        exact Option.bind_eq_some_iff.mp h
      | nonterminal n =>
        rw [Fragment.walk] at h
        cases hawaits : f.awaits (top stack) n with
        | true =>
          rw [hawaits, cond_true] at h
          exact Option.bind_eq_some_iff.mp h
        | false =>
          rw [hawaits, cond_false] at h
          cases h
    obtain ⟨stack', hpushed, htop⟩ := @ih ((n, piece) :: stack) pieces hwalk (Nat.succ.inj hlen)
    exact ⟨stack', .cons hm hpushed, htop⟩

/-- A right side that was pushed can be closed. -/
theorem Pushed.reduce {stack stack' : Stack} {pieces : List Piece} {p : Production} {k n : Nat}
    (hp : Grammar.productions[k]? = some p) (h : Pushed stack p.right pieces stack')
    (hlen : pieces.length = p.right.length) (hgoto : goto? (top stack) p.left = some n) :
    Reader.reduce k stack' = some ((n, build p pieces) :: stack) := by
  obtain ⟨front, rfl, hfront⟩ := h.eq_append
  have hfrontlen : front.length = p.right.length := by
    have hcount := congrArg List.length hfront
    rwa [List.length_map, List.length_reverse, hlen] at hcount
  simp only [Reader.reduce, Reader.productions, List.getElem?_toArray, hp]
  rw [List.drop_left' hfrontlen, List.take_left' hfrontlen, List.map_reverse, hfront,
    List.reverse_reverse, hgoto]
  rfl

end Reader

namespace Fragment

open Reader
open Automaton (size)

variable (f : Fragment)

/-! ### Tokens of a fragment -/

/-- On the token `t` the reader closes productions of the fragment. -/
inductive Closes (t : Terminal) : Stack → Stack → Prop
  | refl (stack : Stack) : Closes t stack stack
  | step {p : Production} {k : Nat} {stack stack₁ stack₂ : Stack} (hp : (p, k) ∈ f.numbered)
      (ht : t ∈ f.follow p.left) (ha : action? (top stack) t = some (.reduce k))
      (hr : Reader.reduce k stack = some stack₁) (rest : Closes t stack₁ stack₂) :
      Closes t stack stack₂

/-- `f.Takes stack ls t stack'`: the reader takes the tokens `ls`, and then closes productions on
the token `t`. -/
inductive Takes : Stack → List Lexeme → Terminal → Stack → Prop
  | close {stack stack' : Stack} {t : Terminal} (hr : f.inRegion (top stack) = true)
      (h : f.Closes t stack stack') : Takes stack [] t stack'
  | take {stack stack₁ stack' : Stack} {l : Lexeme} {ls : List Lexeme} {t : Terminal} {n : Nat}
      (hr : f.inRegion (top stack) = true) (h : f.Closes l.terminal stack stack₁)
      (hm : move? (top stack₁) (.terminal l.terminal) = some n)
      (rest : Takes ((n, .tree (.leaf l.terminal (String.ofList l.text))) :: stack₁) ls t stack') :
      Takes stack (l :: ls) t stack'

variable {f} {stack stack₁ stack₂ : Stack} {t t' : Terminal} {ls ls' : List Lexeme}

/-- Closing reductions may follow each other. -/
theorem Closes.trans (h : f.Closes t stack stack₁) (h' : f.Closes t stack₁ stack₂) :
    f.Closes t stack stack₂ := by
  induction h with
  | refl => exact h'
  | step hp ht ha hr rest ih => exact .step hp ht ha hr (ih h')

/-- The reductions that close before a token are a number of steps. -/
theorem Closes.count (h : f.Closes t stack stack₁) : ∃ n, Reader.Closes t n stack stack₁ := by
  induction h with
  | refl => exact ⟨0, .refl _⟩
  | step hp ht ha hr rest ih =>
    obtain ⟨n, hn⟩ := ih
    exact ⟨n + 1, .step ha hr hn⟩

/-- What takes the lexemes may close further before the same token. -/
theorem Takes.closes (h : f.Takes stack ls t stack₁) (h' : f.Closes t stack₁ stack₂) :
    f.Takes stack ls t stack₂ := by
  induction h with
  | close hr h => exact .close hr (h.trans h')
  | take hr h hm rest ih => exact .take hr h hm (ih h')

/-- The token that closes what was taken is the next one. -/
theorem Takes.append (h : f.Takes stack ls t stack₁) (h' : f.Takes stack₁ ls' t' stack₂)
    (ht : (ls'.head?.map Lexeme.terminal).getD t' = t) : f.Takes stack (ls ++ ls') t' stack₂ := by
  induction h with
  | take hr h hm rest ih => exact .take hr h hm (ih h' ht)
  | close hr h =>
    cases h' with
    | close _ h' =>
      cases ht
      exact .close hr (h.trans h')
    | take _ h' hm rest =>
      cases ht
      exact .take hr (h.trans h') hm rest

theorem followsOk_mono {after after' : List Terminal} {xs : List Symbol}
    (h : f.followsOk after xs = true) (hsub : ∀ t ∈ after', t ∈ after) :
    f.followsOk after' xs = true := by
  fun_induction followsOk f after xs with
  | case1 => rfl
  | case2 t xs ih => exact ih h
  | case3 n =>
    refine List.all_eq_true.mpr fun t ht => ?_
    exact List.all_eq_true.mp h t (hsub t ht)
  | case4 n x xs ih =>
    rw [Bool.and_eq_true] at h
    rw [followsOk, h.1, Bool.true_and]
    exact ih h.2

/-- The token after a nonterminal can follow it. -/
theorem Checked.mem_follow (hf : f.Checked) {n : Nonterminal} {xs : List Symbol}
    {pieces : List Piece} (hfollows : f.followsOk [t] (.nonterminal n :: xs) = true)
    (h : Derives f.productions xs pieces ls) :
    (ls.head?.map Lexeme.terminal).getD t ∈ f.follow n := by
  cases xs with
  | nil =>
    cases h
    exact List.contains_iff_mem.mp (List.all_eq_true.mp hfollows t (List.mem_singleton_self t))
  | cons x xs =>
    obtain ⟨l, ls', rfl, hl⟩ := hf.first_of_derives h
    rw [followsOk, Bool.and_eq_true] at hfollows
    exact List.contains_iff_mem.mp (List.all_eq_true.mp hfollows.1 _ hl)

/-- The followers are right for the symbols behind the first. -/
theorem followsOk_tail {x : Symbol} {xs : List Symbol} {after : List Terminal}
    (h : f.followsOk after (x :: xs) = true) : f.followsOk after xs = true := by
  cases x with
  | terminal t => exact h
  | nonterminal n =>
    cases xs with
    | nil => rfl
    | cons y ys =>
      rw [followsOk, Bool.and_eq_true] at h
      exact h.2

/-- A state that walks over a nonterminal awaits it. -/
theorem awaits_of_walk {n : Nonterminal} {xs : List Symbol} {state last : Nat}
    (h : f.walk state (.nonterminal n :: xs) = some last) : f.awaits state n = true := by
  rw [walk] at h
  cases hawaits : f.awaits state n with
  | true => rfl
  | false =>
    rw [hawaits, cond_false] at h
    cases h

/-- A walk goes on from the state that its first symbol moves to. -/
theorem walk_tail {x : Symbol} {xs : List Symbol} {state next last : Nat}
    (h : f.walk state (x :: xs) = some last) (hm : move? state x = some next) :
    f.walk next xs = some last := by
  cases x with
  | terminal t => rwa [walk, hm, Option.bind_some] at h
  | nonterminal n =>
    have hgoto : goto? state n = some next := hm
    rwa [walk, awaits_of_walk h, cond_true, hgoto, Option.bind_some] at h

/-- **What a fragment derives is taken.** -/
theorem Checked.takes (hf : f.Checked) {xs ys : List Symbol} {pieces : List Piece} {last : Nat}
    (h : Derives f.productions xs pieces ls) (hsymbols : ∀ x ∈ xs, x ∈ f.symbols)
    (hlinked : Linked stack ys) (hr : f.inRegion (top stack) = true)
    (hwalk : f.walk (top stack) xs = some last) (hfollows : f.followsOk [t] xs = true)
    (hpushed : Pushed stack xs pieces stack₁) : f.Takes stack ls t stack₁ := by
  induction h generalizing stack stack₁ ys last t with
  | nil =>
    cases hpushed
    exact .close hr (.refl _)
  | token l rest ih =>
    cases hpushed with
    | cons hm hpushed =>
      obtain ⟨hl, hsymbols⟩ := List.forall_mem_cons.mp hsymbols
      exact .take hr (.refl _) hm
        (ih hsymbols (.cons hlinked hm) (hf.inRegion_move hlinked.top_lt hr hl hm)
          (walk_tail hwalk hm) (followsOk_tail hfollows) hpushed)
  | @close xs parts pieces ls ls' p hp inside rest ihin ih =>
    cases hpushed with
    | @cons _ _ _ _ _ _ n hm hpushed =>
      obtain ⟨hleft, hsymbols⟩ := List.forall_mem_cons.mp hsymbols
      obtain ⟨k, hk⟩ := exists_number hp
      have hnext := hf.mem_follow hfollows rest
      -- the right side leads to where the next token closes the production
      obtain ⟨last', hwalk', hcloses⟩ :=
        hf.walk_of_awaits hlinked.top_lt hr hk (awaits_of_walk hwalk)
      obtain ⟨stack', hpushed', htop⟩ := Pushed.exists_of_walk hwalk' inside.length_eq
      have hok := hf.productionOk hp
      rw [Fragment.productionOk, Bool.and_eq_true] at hok
      have hfollows' := followsOk_mono hok.2 (fun t ht => List.mem_singleton.mp ht ▸ hnext)
      have hinside := ihin (right_mem hp) hlinked hr hwalk' hfollows' hpushed'
      have hreduce := hpushed'.reduce (numbered_spec hk).1 inside.length_eq hm
      have hclosed := hinside.closes
        (.step hk hnext (by rw [htop]; exact hcloses _ hnext) hreduce (.refl _))
      have hrest := ih hsymbols (.cons hlinked hm) (hf.inRegion_move hlinked.top_lt hr hleft hm)
        (walk_tail hwalk hm) (followsOk_tail hfollows) hpushed
      exact hclosed.append hrest rfl

/-! ### Texts of a fragment -/

/-- Whether the reader can meet a token in a state: it is taken there, or it closes a production of
the fragment that it can follow. -/
def expects (f : Fragment) (state : Nat) (t : Terminal) : Bool :=
  f.inRegion state && ((move? state (.terminal t)).isSome ||
    f.numbered.any fun (p, k) => (f.follow p.left).contains t && isReduce k (action? state t))

/-- A terminal that can be shifted after the closing reductions is expected before them. -/
theorem Closes.expects {n : Nat} (h : f.Closes t stack stack₁) (hr : f.inRegion (top stack) = true)
    (hm : move? (top stack₁) (.terminal t) = some n) : f.expects (top stack) t = true := by
  rw [Fragment.expects, hr, Bool.true_and, Bool.or_eq_true]
  cases h with
  | refl => exact .inl (by rw [hm]; rfl)
  | @step p k _ _ _ hp ht ha =>
    refine .inr (List.any_eq_true.mpr ⟨(p, k), hp, ?_⟩)
    rw [Bool.and_eq_true, ha]
    exact ⟨List.contains_iff_mem.mpr ht, Nat.beq_refl k⟩

/-- A token is fed by the closing reductions and a shift, within the patience of the stack. -/
theorem Closes.feed_shift {n : Nat} (h : f.Closes t stack stack₁) {xs : List Symbol}
    (hlinked : Linked stack xs) (hm : move? (top stack₁) (.terminal t) = some n)
    (text : List Char) :
    feed t text (patience stack) stack =
      .taken ((n, .tree (.leaf t (String.ofList text))) :: stack₁) := by
  obtain ⟨count, hcount⟩ := h.count
  obtain ⟨fuel, hfeed⟩ := feed_of_closes hcount hlinked text
  rw [hfeed, Reader.feed_shift (Automaton.action_of_move hm)]

/-- The end of the text is fed by the closing reductions and the acceptance. -/
theorem Closes.feed_accept {s : Nat} {tree : Tree} {xs : List Symbol}
    (h : f.Closes .textEnd stack [(s, .tree tree)]) (hlinked : Linked stack xs)
    (ha : action? s .textEnd = some .accept) :
    feed .textEnd [] (patience stack) stack = .complete tree := by
  obtain ⟨count, hcount⟩ := h.count
  obtain ⟨fuel, hfeed⟩ := feed_of_closes hcount hlinked []
  have htop : action? (top [(s, .tree tree)]) .textEnd = some .accept := ha
  rw [hfeed, Reader.feed_accept htop, finish]

/-- `Apart good c`: layouts stand between the tokens of a cut, and behind each token comes a text
that is `good` for it. -/
inductive Apart (good : Lexeme → List Char → Prop) : Cut → Prop
  | tail {cs : List Char} (h : Trailing cs) : Apart good (.tail cs)
  | cons {s : Segment} {c : Cut} (hgap : Layout s.gap) (hgood : good s.lexeme c.text)
      (h : Apart good c) : Apart good (.cons s c)

/-- Behind a token comes a text from which a lexer tells it apart in each state that expects it. -/
def Separates (f : Fragment) (l : Lexeme) (cs : List Char) : Prop :=
  ∀ state < size, f.expects state l.terminal = true →
    (Lexicon.ofState state).StartsWith (l.text ++ cs) l cs

/-- A token that is taken is the next one of a text whose tokens come apart. -/
theorem Closes.startsWith {l : Lexeme} {gap rest : List Char} {xs : List Symbol} {n : Nat}
    (hf : f.Checked) (h : f.Closes l.terminal stack stack₁) (hlinked : Linked stack xs)
    (hr : f.inRegion (top stack) = true) (hm : move? (top stack₁) (.terminal l.terminal) = some n)
    (hgap : Layout gap) (hgood : f.Separates l rest) :
    (lexicon stack).Skips (gap ++ (l.text ++ rest)) gap (l.text ++ rest) ∧
      (lexicon stack).StartsWith (l.text ++ rest) l rest := by
  have hcode := Lexicon.isCode_ofState hlinked.top_lt (hf.not_inText hlinked.top_lt hr)
  have hstarts := hgood (top stack) hlinked.top_lt (h.expects hr hm)
  exact ⟨hcode.skips_layout hgap (hcode.not_blank_of_startsWith hstarts), hstarts⟩

/-- Lexemes that are taken up to the end are read if they stand apart. -/
theorem Takes.reads {c : Cut} {s : Nat} {tree : Tree} (hf : f.Checked)
    (h : f.Takes stack c.lexemes .textEnd [(s, .tree tree)]) (hreached : Reached stack ls)
    (hapart : Apart f.Separates c) (ha : action? s .textEnd = some .accept) :
    Reads stack c tree := by
  induction hapart generalizing stack ls with
  | tail htail =>
    obtain ⟨xs, hlinked, -⟩ := hreached
    cases h with
    | close hr h =>
      have hcode := Lexicon.isCode_ofState hlinked.top_lt (hf.not_inText hlinked.top_lt hr)
      exact .finish (hcode.skips_trailing htail) (h.feed_accept hlinked ha)
  | @cons seg c hgap hgood hapart ih =>
    obtain ⟨xs, hlinked, -⟩ := id hreached
    cases h with
    | take hr h hm rest =>
      have hfeed := h.feed_shift hlinked hm seg.lexeme.text
      obtain ⟨hskips, hstarts⟩ := h.startsWith hf hlinked hr hm hgap hgood
      exact .take hskips hstarts hfeed (ih rest (hreached.feed_taken hfeed))

/-- The tokens that the start of the grammar is derived from are taken. -/
theorem Checked.takes_start (hf : f.Checked) {tree : Tree}
    (h : Derives f.productions [.nonterminal .start] [.tree tree] ls) :
    ∃ s, f.Takes [] ls .textEnd [(s, .tree tree)] ∧ action? s .textEnd = some .accept := by
  obtain ⟨last, hwalk, hlast⟩ := (Option.any_eq_true _ _).mp hf.unpack.1.1.1.2
  obtain ⟨stack, hpushed, -⟩ : ∃ stack, Pushed [] _ _ stack ∧ top stack = last :=
    Pushed.exists_of_walk hwalk h.length_eq
  have htakes := hf.takes h (by simpa using mem_of_derives h) .nil hf.inRegion_zero hwalk
    (by simpa [followsOk] using hf.unpack.1.1.2) hpushed
  cases hpushed with
  | @cons _ _ _ _ _ _ n hm hnil =>
    cases hnil
    exact ⟨n, htakes, hf.accept_of_goto hm⟩

/-- **A text of a fragment is read as what its tokens are derived as.** -/
theorem Checked.reads (hf : f.Checked) {c : Cut} {tree : Tree}
    (h : Derives f.productions [.nonterminal .start] [.tree tree] c.lexemes)
    (hapart : Apart f.Separates c) : Reads [] c tree := by
  obtain ⟨s, htakes, haccept⟩ := hf.takes_start h
  exact htakes.reads hf .nil hapart haccept

/-! ### The first tokens of a text -/

/-- `Leads good rest c`: as `Apart`, but any text `rest` stands behind the last token. -/
inductive Leads (good : Lexeme → List Char → Prop) (rest : List Char) : Cut → Prop
  | tail : Leads good rest (.tail rest)
  | cons {s : Segment} {c : Cut} (hgap : Layout s.gap) (hgood : good s.lexeme c.text)
      (h : Leads good rest c) : Leads good rest (.cons s c)

/-- Lexemes that lead to a trailing gap stand apart. -/
theorem Leads.apart {good : Lexeme → List Char → Prop} {rest : List Char} {c : Cut}
    (h : Leads good rest c) (hrest : Trailing rest) : Apart good c := by
  induction h with
  | tail => exact .tail hrest
  | cons hgap hgood h ih => exact .cons hgap hgood ih

/-- **The reader takes the first tokens of a text whatever comes behind them**, if some tokens
can. -/
theorem Takes.readFrom {c : Cut} {rest : List Char} (hf : f.Checked)
    (h : f.Takes stack (c.lexemes ++ ls') t stack₂) (hreached : Reached stack ls)
    (hleads : Leads f.Separates rest c) (fuel : Nat) (place last : Place) :
    ∃ stack₁ place' last', f.Takes stack₁ ls' t stack₂ ∧ Reached stack₁ (ls ++ c.lexemes) ∧
      Reader.readFrom (fuel + c.lexemes.length) stack c.text place last =
        Reader.readFrom fuel stack₁ rest place' last' := by
  induction hleads generalizing stack ls place last with
  | tail => exact ⟨stack, place, last, h, by simpa [Cut.lexemes] using hreached, rfl⟩
  | @cons seg c hgap hgood hleads ih =>
    obtain ⟨xs, hlinked, -⟩ := id hreached
    cases h with
    | take hr h hm rest =>
      have hfeed := h.feed_shift hlinked hm seg.lexeme.text
      obtain ⟨hskips, hstarts⟩ := h.startsWith hf hlinked hr hm hgap hgood
      obtain ⟨place', last', hread⟩ :=
        readFrom_of_taken hreached hskips hstarts hfeed (fuel + c.lexemes.length) place last
      obtain ⟨stack₁, place₁, last₁, htakes, hreached₁, hread₁⟩ :=
        ih rest (hreached.feed_taken hfeed) place' last'
      refine ⟨stack₁, place₁, last₁, htakes, by simpa [Cut.lexemes] using hreached₁, ?_⟩
      rw [← hread₁, ← hread]
      rfl

end Fragment
end Spellbook
