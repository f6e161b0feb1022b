import Spellbook.Grammar.Automaton

/-!
# What the tables keep

The tables of the automaton are numbers that come out of a long computation. What the proofs about
reading need of them is a property of every single state (`Automaton.stateOk`), which is checked on
the finished tables once (`Automaton.stateOk_of_lt`) and then handed out fact by fact:

* under each state lies what its items have read (`past_move`, `reduce_past`, `accept_past`);
* whether a state stands directly inside an interpolated text is known from what led to it
  (`inText_of_opens`, `inText_of_neutral`, `inText_back`), and such a state reads prose, an opening
  brace or the closing quote only (`action_inText`).
-/

namespace Spellbook

/-! ### Numbers of symbols -/

namespace Terminal

/-- The terminal with the given number. -/
theorem all_code (t : Terminal) : all[t.code]? = some t := by
  cases t <;> rfl

/-- Different terminals have different codes. -/
theorem code_injective {t t' : Terminal} (h : t.code = t'.code) : t = t' := by
  have ht := all_code t
  rw [h, all_code t'] at ht
  exact (Option.some.inj ht).symm

theorem code_lt (t : Terminal) : t.code < all.length := by
  cases t <;> decide

end Terminal

namespace Nonterminal

theorem all_code (n : Nonterminal) : all[n.code]? = some n := by
  cases n <;> rfl

/-- Different nonterminals have different codes. -/
theorem code_injective {n n' : Nonterminal} (h : n.code = n'.code) : n = n' := by
  have hn := all_code n
  rw [h, all_code n'] at hn
  exact (Option.some.inj hn).symm

end Nonterminal

namespace Symbol

/-- Different symbols have different codes. -/
theorem code_injective {x y : Symbol} (h : x.code = y.code) : x = y := by
  cases x with
  | terminal t =>
    cases y with
    | terminal t' => rw [Terminal.code_injective h]
    | nonterminal n => have := t.code_lt; simp only [code] at h; omega
  | nonterminal n =>
    cases y with
    | terminal t => have := t.code_lt; simp only [code] at h; omega
    | nonterminal n' =>
      rw [Nonterminal.code_injective (Nat.add_left_cancel h)]

def all : List Symbol := Terminal.all.map .terminal ++ Nonterminal.all.map .nonterminal

theorem mem_all (x : Symbol) : x ∈ all := by
  cases x with
  | terminal t => exact List.mem_append_left _ (List.mem_map_of_mem t.mem_all)
  | nonterminal n => exact List.mem_append_right _ (List.mem_map_of_mem n.mem_all)

end Symbol

/-! ### Enclosures -/

/-- What one terminal opens and another closes. -/
inductive Enclosure where
  /-- an interpolated text between its quotes -/
  | text
  /-- the braces of a block, or those of an expression in an interpolated text -/
  | braces
  deriving DecidableEq, Repr

namespace Enclosure

def opener : Enclosure → Terminal
  | text => .openText
  | braces => .openBrace

def closer : Enclosure → Terminal
  | text => .quote
  | braces => .closeBrace

end Enclosure

def Terminal.opens? : Terminal → Option Enclosure
  | .openText => some .text
  | .openBrace => some .braces
  | _ => none

def Terminal.closes? : Terminal → Option Enclosure
  | .quote => some .text
  | .closeBrace => some .braces
  | _ => none

/-- The opener of an enclosure opens it. -/
theorem Enclosure.opens_opener (e : Enclosure) : e.opener.opens? = some e := by
  cases e <;> rfl

/-- Each enclosure has one closer. -/
theorem Terminal.eq_closer {t : Terminal} {e : Enclosure} (h : t.closes? = some e) :
    t = e.closer := by
  cases t <;> cases h <;> rfl

/-- No terminal both opens and closes. -/
theorem Terminal.opens_of_closes {t : Terminal} {e : Enclosure} (h : t.closes? = some e) :
    t.opens? = none := by
  cases t <;> cases h <;> rfl

namespace Automaton

/-! ### What lies under a state -/

/-- What each item of a right side has read, as a register of symbols with the last one first;
`past` is what the first item has read. No symbol is held as zero. -/
def itemPasts (past : Nat) : List Symbol → List Nat
  | [] => [past]
  | s :: rest => past :: itemPasts (s.code + 1 + 256 * past) rest

/-- What the items of each kernel have read; the items agree as far as they go. -/
@[irreducible] def pasts : Nat :=
  let ofItems := register 128 (rules.flatMap fun r => itemPasts 0 r.right)
  register 128 (states.map fun s => s.kernel.foldl (fun p i => Nat.max p (field 128 ofItems i)) 0)

/-- The symbols of a register, as numbers. -/
def symbolsOf : Nat → Nat → List Nat
  | 0, _ => []
  | _, 0 => []
  | fuel + 1, n + 1 => Nat.mod n 256 :: symbolsOf fuel (Nat.div (n + 1) 256)

/-- The numbers of the symbols that surely led to a state, the last one first. -/
def past (state : Nat) : List Nat := symbolsOf 16 (field 128 pasts state)

/-! ### The checks -/

/-- Whether a state stands directly inside an interpolated text, where prose is read. -/
def inText (state : Nat) : Bool := (action? state .prose).isSome

/-- In a state that can read the terminal that closes `e`, the one that opens it was read last or
has only one nonterminal after it. -/
def opensBefore (state : Nat) (e : Enclosure) : Bool :=
  match past state with
  | x :: xs => Nat.beq x e.opener.code || (Nat.ble terminals x && xs.head? == some e.opener.code)
  | [] => false

/-- What a step with the terminal `t` means for texts. -/
def textStepOk (state target : Nat) (t : Terminal) : Bool :=
  match t.opens?, t.closes? with
  | some e, _ => inText target == (e == .text)
  | none, some e => opensBefore state e
  | none, none => inText target == inText state

/-- What is checked of a step from `state` to `target` with the symbol `x`. -/
def stepOk (state : Nat) (x : Symbol) (target : Nat) : Bool :=
  Nat.blt target size && (past target).isPrefixOf (x.code :: past state) &&
    match x with
    | .terminal t => textStepOk state target t
    | .nonterminal n => inText target == inText state && (n != .start || Nat.beq state 0)

/-- After an enclosure with nothing in it, or with what one nonterminal can stand for, a state is
what it was before. -/
def enclosureOk (state : Nat) (e : Enclosure) : Bool :=
  let back (s : Nat) : Bool :=
    (move? s (.terminal e.closer)).all fun outer => inText outer == inText state
  (move? state (.terminal e.opener)).all fun inner =>
    back inner && Nonterminal.all.all fun n => (goto? inner n).all back

/-- Only what can be read directly inside a text is read there, and the end of an interpolated text
is never awaited together with a text in quotes. -/
def textOk (state : Nat) : Bool :=
  (!inText state || Terminal.all.all fun t =>
    (action? state t).isNone || t == .prose || t == .openBrace || t == .quote) &&
  ((action? state .quoted).isNone || (action? state .quote).isNone)

/-- The first `n` entries of a row of rules that can be closed; each still has the later ones above
it. -/
def closingEntries : Nat → Nat → List Nat
  | 0, _ => []
  | n + 1, row => row :: closingEntries n (Nat.shiftRight row closingBits)

/-- Whether an entry allows to close its rule with a token. -/
def allows (e : Nat) (t : Terminal) : Bool := !Nat.beq (field 1 e (8 + t.code)) 0

/-- A rule is closed only on what it says. The goal is reached only at the end of the text, and a
rule of nothing is closed only if the token goes on after it. -/
def closingOk (state e : Nat) : Bool :=
  Nat.beq (Nat.mod (Nat.shiftRight e 8) (Nat.pow 2 terminals)) 0 ||
  match Nat.mod e 256 with
  | 0 => past state == [Symbol.code (.nonterminal .start)] &&
      Terminal.all.all fun t => !allows e t || t == .textEnd
  | k + 1 =>
    Grammar.productions[k]?.any fun p =>
      ((p.right.map Symbol.code).reverse).isPrefixOf (past state) &&
        (!p.right.isEmpty || Terminal.all.all fun t => !allows e t ||
          ((goto? state p.left).bind (move? · (.terminal t))).isSome)

def stateOk (state : Nat) : Bool :=
  (Symbol.all.all fun x => (move? state x).all (stepOk state x)) &&
     (closingEntries closingRoom (closingRow state)).all (closingOk state) &&
    enclosureOk state .text && enclosureOk state .braces && textOk state

/-- **The tables pass the checks.** -/
theorem tables_checked : (List.range size).all stateOk = true ∧ past 0 = [] ∧ inText 0 = false ∧
    0 < size := by
  decide +kernel

variable {state target : Nat} {x : Symbol} {t : Terminal}

/-- Every state passes its check. -/
theorem stateOk_of_lt (h : state < size) : stateOk state = true :=
  List.all_eq_true.mp tables_checked.1 state (List.mem_range.mpr h)

theorem past_zero : past 0 = [] := tables_checked.2.1

theorem inText_zero : inText 0 = false := tables_checked.2.2.1

theorem size_pos : 0 < size := tables_checked.2.2.2

/-! ### Steps -/

/-- No move leads back to the first state. -/
theorem toState?_ne_zero {n : Nat} (h : toState? n = some target) : target ≠ 0 := by
  cases n with
  | zero => cases h
  | succ n =>
    cases h
    exact Nat.succ_ne_zero n

/-- Nothing leads back to the start. -/
theorem move_ne_zero (h : move? state x = some target) : target ≠ 0 := toState?_ne_zero h

section
variable (hs : state < size) (hm : move? state x = some target)
include hs hm

/-- Every move passes its check. -/
theorem stepOk_of_move : stepOk state x target = true := by
  have hok := stateOk_of_lt hs
  simp only [stateOk, Bool.and_eq_true] at hok
  have hstep := List.all_eq_true.mp hok.1.1.1.1 x x.mem_all
  rw [hm, Option.all_some] at hstep
  exact hstep

/-- A move leads to a state of the table. -/
theorem move_lt : target < size := by
  have hok := stepOk_of_move hs hm
  simp only [stepOk, Bool.and_eq_true] at hok
  exact Nat.blt_eq.mp hok.1.1

/-- Under a state lies what led to it. -/
theorem past_move : past target <+: x.code :: past state := by
  have hok := stepOk_of_move hs hm
  simp only [stepOk, Bool.and_eq_true] at hok
  exact List.isPrefixOf_iff_prefix.mp hok.1.2

end

theorem textStepOk_of_move (hs : state < size) (hm : move? state (.terminal t) = some target) :
    textStepOk state target t = true := by
  have hok := stepOk_of_move hs hm
  simp only [stepOk, Bool.and_eq_true] at hok
  exact hok.2

section
variable {n : Nonterminal} (hs : state < size) (hm : goto? state n = some target)
include hs hm

/-- A move on a nonterminal stays inside or outside of a text, and only the first state moves on the
start symbol. -/
theorem goto_checked : inText target = inText state ∧ (n = .start → state = 0) := by
  have hok := stepOk_of_move hs hm
  simp only [stepOk, Bool.and_eq_true, Bool.or_eq_true] at hok
  refine ⟨eq_of_beq hok.2.1, fun hn => ?_⟩
  rcases hok.2.2 with hne | hzero
  · exact absurd hn (bne_iff_ne.mp hne)
  · exact Nat.eq_of_beq_eq_true hzero

/-- A finished part does not change whether one stands directly inside a text. -/
theorem inText_goto : inText target = inText state := (goto_checked hs hm).1

end

/-- A program is read from the start only. -/
theorem eq_zero_of_goto_start (hs : state < size) (hm : goto? state .start = some target) :
    state = 0 :=
  (goto_checked hs hm).2 rfl

/-! ### Texts -/

section
variable {e : Enclosure} (hs : state < size)
include hs

/-- An opening terminal leads into a text exactly if it opens one. -/
theorem inText_of_opens (hm : move? state (.terminal t) = some target) (ho : t.opens? = some e) :
    inText target = (e == .text) := by
  have hok := textStepOk_of_move hs hm
  rw [textStepOk, ho] at hok
  exact eq_of_beq hok

/-- A closing terminal is shifted only where its enclosure was opened. -/
theorem opensBefore_of_closes (hm : move? state (.terminal t) = some target)
    (hc : t.closes? = some e) : opensBefore state e = true := by
  have hok := textStepOk_of_move hs hm
  rw [textStepOk, Terminal.opens_of_closes hc, hc] at hok
  exact hok

/-- A terminal that neither opens nor closes stays inside or outside of a text. -/
theorem inText_of_neutral (hm : move? state (.terminal t) = some target) (ho : t.opens? = none)
    (hc : t.closes? = none) : inText target = inText state := by
  have hok := textStepOk_of_move hs hm
  rw [textStepOk, ho, hc] at hok
  exact eq_of_beq hok

theorem enclosureOk_of_lt : enclosureOk state e = true := by
  have hok := stateOk_of_lt hs
  simp only [stateOk, Bool.and_eq_true] at hok
  cases e with
  | text => exact hok.1.1.2
  | braces => exact hok.1.2

variable {inner outer : Nat} (hopen : move? state (.terminal e.opener) = some inner)
include hopen

/-- After an empty enclosure a state is what it was before. -/
theorem inText_back (hclose : move? inner (.terminal e.closer) = some outer) :
    inText outer = inText state := by
  have hok := enclosureOk_of_lt (e := e) hs
  rw [enclosureOk, hopen, Option.all_some, Bool.and_eq_true] at hok
  have hback : (move? inner (.terminal e.closer)).all (inText · == inText state) = true := hok.1
  rw [hclose, Option.all_some] at hback
  exact eq_of_beq hback

/-- After an enclosure a state is what it was before. -/
theorem inText_back_over {n : Nonterminal} {last : Nat} (hpart : goto? inner n = some last)
    (hclose : move? last (.terminal e.closer) = some outer) : inText outer = inText state := by
  have hok := enclosureOk_of_lt (e := e) hs
  rw [enclosureOk, hopen, Option.all_some, Bool.and_eq_true] at hok
  have hback := List.all_eq_true.mp hok.2 n n.mem_all
  rw [hpart, Option.all_some, hclose, Option.all_some] at hback
  exact eq_of_beq hback

end

/-- Directly inside a text only prose, an opening brace and the closing quote are read. -/
theorem action_inText (hs : state < size) (htext : inText state = true) {a : Action}
    (ha : action? state t = some a) : t = .prose ∨ t = .openBrace ∨ t = .quote := by
  have hok := stateOk_of_lt hs
  simp only [stateOk, textOk, Bool.and_eq_true] at hok
  have hread := hok.2.1
  rw [htext, Bool.not_true, Bool.false_or] at hread
  have ht := List.all_eq_true.mp hread t t.mem_all
  rw [ha] at ht
  simpa [or_assoc] using ht

/-- The end of an interpolated text and a text in quotes are never awaited together. -/
theorem not_quoted_of_quote (hs : state < size) {a b : Action} (ha : action? state .quoted = some a)
    (hb : action? state .quote = some b) : False := by
  have hok := stateOk_of_lt hs
  simp only [stateOk, textOk, Bool.and_eq_true] at hok
  rw [ha, hb] at hok
  exact absurd hok.2.2 (by simp)

/-! ### Closing rules -/

/-- An action that is found is one of the closing entries of the row. -/
theorem findClosing_eq_some {token n row : Nat} {a : Action}
    (h : findClosing token n row = some a) :
    ∃ e ∈ closingEntries n row, field 1 e (8 + token) ≠ 0 ∧ a = closing (Nat.mod e 256) := by
  induction n generalizing row with
  | zero => cases h
  | succ n ih =>
    simp only [findClosing] at h
    cases hbit : Nat.beq (field 1 row (8 + token)) 0 with
    | true =>
      rw [hbit] at h
      obtain ⟨e, he, hfield, ha⟩ := ih h
      exact ⟨e, List.mem_cons_of_mem _ he, hfield, ha⟩
    | false =>
      rw [hbit] at h
      exact ⟨row, List.mem_cons_self, Nat.ne_of_beq_eq_false hbit, (Option.some.inj h).symm⟩

/-- An entry without tokens allows nothing. -/
theorem field_of_no_tokens {e : Nat}
    (h : Nat.mod (Nat.shiftRight e 8) (Nat.pow 2 terminals) = 0) (t : Terminal) :
    field 1 e (8 + t.code) = 0 := by
  have hbit : (e >>> 8 % 2 ^ terminals).testBit t.code = false := by
    rw [show e >>> 8 % 2 ^ terminals = 0 from h, Nat.zero_testBit]
  rw [Nat.testBit_mod_two_pow, decide_eq_true (show t.code < terminals from t.code_lt),
    Bool.true_and, Nat.testBit_shiftRight] at hbit
  show e >>> (1 * (8 + t.code)) % 2 ^ 1 = 0
  rw [Nat.one_mul, Nat.pow_one]
  simpa [Nat.testBit, Nat.and_comm] using hbit

/-- A state goes on with a token, or an entry of its row allows what it does. -/
theorem action_cases (hs : state < size) {a : Action} (ha : action? state t = some a) :
    (∃ n, move? state (.terminal t) = some n ∧ a = .shift n) ∨
      ∃ e, allows e t = true ∧ a = closing (Nat.mod e 256) ∧ closingOk state e = true := by
  rw [action?, Option.or_eq_some_iff] at ha
  rcases ha with ha | ⟨-, ha⟩
  · obtain ⟨n, hn, rfl⟩ := Option.map_eq_some_iff.mp ha
    exact .inl ⟨n, hn, rfl⟩
  · obtain ⟨e, he, hfield, rfl⟩ := findClosing_eq_some ha
    have hok := stateOk_of_lt hs
    simp only [stateOk, Bool.and_eq_true] at hok
    refine .inr ⟨e, ?_, rfl, List.all_eq_true.mp hok.1.1.1.2 e he⟩
    cases hbit : Nat.beq (field 1 e (8 + t.code)) 0 with
    | true => exact absurd (Nat.eq_of_beq_eq_true hbit) hfield
    | false => rw [allows, hbit, Bool.not_false]

/-- A shift of the table is a move. -/
theorem move_of_shift (hs : state < size) {n : Nat} (ha : action? state t = some (.shift n)) :
    move? state (.terminal t) = some n := by
  rcases action_cases hs ha with ⟨m, hm, heq⟩ | ⟨e, -, heq, -⟩
  · cases heq
    exact hm
  · cases hrule : Nat.mod e 256 <;> rw [hrule] at heq <;> cases heq

/-- A move on a terminal is a shift. -/
theorem action_of_move {n : Nat} (h : move? state (.terminal t) = some n) :
    action? state t = some (.shift n) := by
  rw [action?, h, Option.map_some, Option.some_or]

/-- What is checked of an entry that allows something. -/
theorem closingOk_of_allows {e : Nat} (he : allows e t = true) (hok : closingOk state e = true) :
    (match Nat.mod e 256 with
      | 0 => past state == [Symbol.code (.nonterminal .start)] &&
          Terminal.all.all fun t => !allows e t || t == .textEnd
      | k + 1 => Grammar.productions[k]?.any fun p =>
          ((p.right.map Symbol.code).reverse).isPrefixOf (past state) &&
            (!p.right.isEmpty || Terminal.all.all fun t => !allows e t ||
              ((goto? state p.left).bind (move? · (.terminal t))).isSome)) = true := by
  rcases Bool.or_eq_true_iff.mp hok with hnone | hok
  · rw [allows, field_of_no_tokens (Nat.eq_of_beq_eq_true hnone) t] at he
    cases he
  · exact hok

/-- A production is closed on its right side. -/
theorem reduce_past (hs : state < size) {k : Nat} (ha : action? state t = some (.reduce k)) :
    ∃ p, Grammar.productions[k]? = some p ∧ (p.right.map Symbol.code).reverse <+: past state ∧
      (p.right = [] → ∃ s n, goto? state p.left = some s ∧ move? s (.terminal t) = some n) := by
  rcases action_cases hs ha with ⟨m, -, heq⟩ | ⟨e, he, heq, hok⟩
  · cases heq
  · have hrule := closingOk_of_allows he hok
    cases hmod : Nat.mod e 256 with
    | zero => rw [hmod] at heq; cases heq
    | succ k' =>
      rw [hmod] at heq hrule
      cases heq
      obtain ⟨p, hp, hrule⟩ := (Option.any_eq_true _ _).mp hrule
      simp only [Bool.and_eq_true, Bool.or_eq_true] at hrule
      refine ⟨p, hp, List.isPrefixOf_iff_prefix.mp hrule.1, fun hnil => ?_⟩
      rcases hrule.2 with hne | hall
      · rw [hnil] at hne
        cases hne
      · have ht := List.all_eq_true.mp hall t t.mem_all
        rw [he, Bool.not_true, Bool.false_or] at ht
        obtain ⟨n, hn⟩ := Option.isSome_iff_exists.mp ht
        obtain ⟨s, hs, hn⟩ := Option.bind_eq_some_iff.mp hn
        exact ⟨s, n, hs, hn⟩

/-- The text is complete only at its end, with the whole program read. -/
theorem accept_past (hs : state < size) (ha : action? state t = some .accept) :
    t = .textEnd ∧ past state = [Symbol.code (.nonterminal .start)] := by
  rcases action_cases hs ha with ⟨m, -, heq⟩ | ⟨e, he, heq, hok⟩
  · cases heq
  · have hrule := closingOk_of_allows he hok
    cases hmod : Nat.mod e 256 with
    | succ k => rw [hmod] at heq; cases heq
    | zero =>
      rw [hmod] at hrule
      simp only [Bool.and_eq_true] at hrule
      have ht := List.all_eq_true.mp hrule.2 t t.mem_all
      rw [he, Bool.not_true, Bool.false_or] at ht
      exact ⟨eq_of_beq ht, eq_of_beq hrule.1⟩

end Automaton
end Spellbook
