import Spellbook.Grammar.Production

/-!
# The automaton of the grammar

The deterministic automaton that reads the grammar with one token of lookahead. Its states are the
sets of items reachable from the start; the lookaheads of an item are joined over all ways to reach
its state. Where a state could both go on with a token and close a production, it goes on.

Everything is computed by recursion on lists and numbers, and in such a way that the kernel can do
it too: a set is a number whose bits say what belongs to it, and a table is a `register`, a number
that holds the entries of the table beside each other. What is known of the finished tables is
checked on them (`Spellbook.Proofs.Table`); no proof opens a definition of this module.
-/

namespace Spellbook

/-- The number of a symbol: the terminals come first. -/
def Symbol.code : Symbol → Nat
  | .terminal t => t.code
  | .nonterminal n => Terminal.all.length + n.code

namespace Automaton

/-! ### Registers -/

/-- The `i`-th entry of a register whose entries have `w` bits. -/
def field (w register i : Nat) : Nat :=
  Nat.mod (Nat.shiftRight register (Nat.mul w i)) (Nat.pow 2 w)

/-- The register that holds `v` as its `i`-th entry and nothing else. -/
def entry (w v i : Nat) : Nat := Nat.shiftLeft v (Nat.mul w i)

def register (w : Nat) : List Nat → Nat
  | [] => 0
  | v :: vs => Nat.lor v (Nat.shiftLeft (register w vs) w)

def setOf : List Nat → Nat
  | [] => 0
  | i :: is => Nat.lor (Nat.pow 2 i) (setOf is)

/-- Applies a function until nothing changes, at most `fuel` times. -/
def settle (f : Nat → Nat) : Nat → Nat → Nat
  | 0, a => a
  | fuel + 1, a => bif Nat.beq (f a) a then a else settle f fuel (f a)

/-! ### Rules and items

An item is a place in a rule. The items are numbered through all rules, the end of each rule
included, so that the item after the next symbol has the next number. -/

def terminals : Nat := Terminal.all.length

/-- The number of nonterminals; it also numbers the goal of the whole text. -/
def goal : Nat := Nonterminal.all.length

/-- A production as the automaton sees it: the number of its left side, and its right side. -/
structure Rule where
  left : Nat
  right : List Symbol
  deriving DecidableEq, Repr

/-- The rules of the automaton: the goal is a program, and then come the productions in order. -/
def rules : List Rule :=
  ⟨goal, [.nonterminal .start]⟩ ::
    Grammar.productions.map fun p => ⟨p.left.code, p.right⟩

def itemCount : Nat := rules.foldl (fun n r => n + r.right.length + 1) 0

/-- Stands for the symbol that an item at the end of its rule waits for. -/
def ending : Nat := 255

/-- The symbols that the items wait for. -/
def awaited : Nat := register 8 (rules.flatMap fun r => r.right.map Symbol.code ++ [ending])

/-- The number of the symbol that an item waits for. -/
def next (i : Nat) : Nat := field 8 awaited i

/-- Whether a number of a symbol is that of a nonterminal. -/
def isNonterminal (s : Nat) : Bool := Nat.ble terminals s && Nat.blt s ending

/-- For each item an entry that depends on its rule. -/
def perRule (f : Rule → Nat → Nat) : Nat :=
  register 8 (rules.zipIdx.flatMap fun (r, k) => List.replicate (r.right.length + 1) (f r k))

/-- The rules of the items. -/
def owners : Nat := perRule fun _ k => k

/-- The left sides of the items' rules. -/
def lefts : Nat := perRule fun r _ => r.left

/-- The left sides and the first items of some rules, where `i` is the first item of all. -/
def startsFrom (i : Nat) : List Rule → List (Nat × Nat)
  | [] => []
  | r :: rs => (r.left, i) :: startsFrom (i + r.right.length + 1) rs

/-- The left sides and the first items of the rules. -/
def starts : List (Nat × Nat) := startsFrom 0 rules

/-! ### First tokens -/

/-- The number of bits of a set of terminals that can also say that nothing may come. -/
def width : Nat := terminals + 1

/-- The bit that says of a set of first tokens that nothing at all may come. -/
def nothing : Nat := Nat.pow 2 terminals

/-- The tokens of `tail`, and those of `look` too if nothing at all may come in `tail`. -/
def join (tail look : Nat) : Nat :=
  bif Nat.beq (Nat.land tail nothing) 0 then tail else Nat.lor (Nat.xor tail nothing) look

/-- The first tokens of a list of symbols, given those of the nonterminals. -/
def firstOf (firsts : Nat) : List Symbol → Nat
  | [] => nothing
  | .terminal t :: _ => Nat.pow 2 t.code
  | .nonterminal n :: rest => join (field width firsts n.code) (firstOf firsts rest)

/-- Adds what each rule says about the first tokens of its left side. -/
def growFirsts (firsts : Nat) : Nat :=
  rules.foldl (fun fs r => Nat.lor fs (entry width (firstOf fs r.right) r.left)) firsts

/-- The first tokens of the nonterminals. -/
def firsts : Nat := settle growFirsts 100 0

/-- The first tokens of a list of symbols and of its tails, down to the empty one. -/
def tailFirsts : List Symbol → List Nat
  | [] => [nothing]
  | s :: rest => firstOf firsts (s :: rest) :: tailFirsts rest

/-- The first tokens of what each item waits for and of all that comes after it in the rule. -/
def tails : Nat := register width (rules.flatMap fun r => tailFirsts r.right)

/-! ### Openings

A state that is about to read a nonterminal is also about to read what the rules of that
nonterminal start with, and so on. -/

/-- The left sides of the rules that start with a nonterminal, with that nonterminal and the first
tokens of the rest of the rule. -/
def corners : List (Nat × Nat × Nat) := rules.filterMap fun r =>
  match r.right with
  | .nonterminal n :: rest => some (r.left, n.code, firstOf firsts rest)
  | _ => none

/-- Passes what may follow the left side of each rule on to the nonterminal it starts with. -/
def growOpening (opening : Nat) : Nat :=
  corners.foldl (fun o (left, n, tail) =>
    bif Nat.beq (field width o left) 0 then o
    else Nat.lor o (entry width (join tail (field width o left)) n)) opening

/-- For each nonterminal, the tokens that may follow it where it is opened by `n`; the bit `nothing`
stands for what follows `n` itself. Nonterminals that `n` does not open have the empty set. -/
def opening (n : Nat) : Nat := settle growOpening 100 (entry width nothing n)

/-- The number of bits of an opening. -/
def openingWidth : Nat := width * (goal + 1)

def openings : Nat := register openingWidth ((List.range goal).map opening)

/-- The first items of the rules that `n` opens. -/
def openedBy (n : Nat) : List Nat := starts.filterMap fun (left, i) =>
  bif Nat.beq (field width (opening n) left) 0 then none else some i

/-! ### States -/

/-- The items a state was entered with, in order. -/
abbrev Kernel := List Nat

/-- Items by the symbol that they wait for. -/
abbrev Groups := List (Nat × List Nat)

def insertItem (i : Nat) : List Nat → List Nat
  | [] => [i]
  | j :: js =>
    bif Nat.blt i j then i :: j :: js
    else bif Nat.beq i j then j :: js
    else j :: insertItem i js

/-- Adds an item that waits for the symbol `s`. -/
def addItem (s i : Nat) : Groups → Groups
  | [] => [(s, [i])]
  | g :: gs => bif Nat.beq g.1 s then (s, insertItem i g.2) :: gs else g :: addItem s i gs

/-- Adds items, but not those that wait for nothing. -/
def addItems (gs : Groups) : List Nat → Groups
  | [] => gs
  | i :: is =>
    bif Nat.beq (next i) ending then addItems gs is else addItems (addItem (next i) i gs) is

/-- The first items that each nonterminal opens, by the symbol that they wait for. -/
def opened : List Groups := (List.range goal).map fun n => addItems [] (openedBy n)

/-- The first items that a kernel opens. Most kernels wait for one nonterminal only, so those of the
first are taken as they are. -/
def openedIn : Kernel → Groups
  | [] => []
  | i :: is =>
    bif isNonterminal (next i) then
      is.foldl (fun gs j => bif isNonterminal (next j) && !Nat.beq (next j) (next i)
        then addItems gs (openedBy (next j - terminals)) else gs)
          (opened.getD (next i - terminals) [])
    else openedIn is

/-- A step from a state to the next: a symbol, the items that wait for it, and the number of the
state in which they have gone on. -/
structure Move where
  symbol : Nat
  items : List Nat
  target : Nat
  deriving Repr

/-- A state: its kernel, and the steps from it. -/
structure State where
  kernel : Kernel
  moves : List Move
  deriving Repr

/-- The states found so far, each numbered by the order in which it was found and known by the set
of the items of its kernel. The states are listed under the remainders of these sets. -/
structure Roll where
  /-- the sets, by the number of the state -/
  sets : Nat
  /-- the number of states -/
  size : Nat
  /-- one more than the newest state under each remainder -/
  newest : Nat
  /-- one more than the next older state under the same remainder -/
  older : Nat

namespace Roll

def lists : Nat := 1021

/-- Looks for a set under its remainder, from the state `n - 1` on; one more than its number. -/
def findFrom (r : Roll) (set : Nat) : Nat → Nat → Nat
  | 0, _ => 0
  | _, 0 => 0
  | fuel + 1, n + 1 =>
    bif Nat.beq (field itemCount r.sets n) set then n + 1
    else r.findFrom set fuel (field 16 r.older n)

/-- One more than the number of the state with this set, or zero. -/
def find (r : Roll) (set : Nat) : Nat :=
  r.findFrom set r.size (field 16 r.newest (Nat.mod set lists))

def add (r : Roll) (set : Nat) : Roll :=
  let list := Nat.mod set lists
  let before := field 16 r.newest list
  { sets := Nat.lor r.sets (entry itemCount set r.size)
    size := r.size + 1
    newest := Nat.lor (Nat.xor r.newest (entry 16 before list)) (entry 16 (r.size + 1) list)
    older := Nat.lor r.older (entry 16 before r.size) }

end Roll

/-- Numbers the states that the groups lead to. Gives the roll, the moves and the new kernels, the
latter two in reverse. -/
def number (r : Roll) : Groups → List Move → List Kernel → Roll × List Move × List Kernel
  | [], moves, fresh => (r, moves, fresh)
  | (s, items) :: gs, moves, fresh =>
    let kernel := items.map Nat.succ
    let set := setOf kernel
    match r.find set with
    | 0 => number (r.add set) gs (⟨s, items, r.size⟩ :: moves) (kernel :: fresh)
    | n + 1 => number r gs (⟨s, items, n⟩ :: moves) fresh

/-- Looks at the kernels of `todo` in order until all states have been looked at; the states come in
reverse. -/
def explore : Nat → Roll → List Kernel → List State → List State
  | 0, _, _, states => states
  | _, _, [], states => states
  | fuel + 1, r, kernel :: todo, states =>
    match number r (addItems (openedIn kernel) kernel) [] [] with
    | (r, moves, fresh) => explore fuel r (todo ++ fresh.reverse) (⟨kernel, moves⟩ :: states)

def states : List State :=
  (explore 1000 (Roll.add ⟨0, 0, 0, 0⟩ (setOf [0])) [[0]] []).reverse

/-! ### Lookaheads

Each item of each kernel has a slot for its lookaheads. The slots of a state lie together. -/

/-- The first slots of some states, where `slot` is the first of all. -/
def slotsFrom (slot : Nat) : List State → List Nat
  | [] => []
  | s :: ss => slot :: slotsFrom (slot + s.kernel.length) ss

/-- The first slots of the states. -/
def slots : Nat := register 16 (slotsFrom 0 states)

/-- The slot of an item of a kernel whose first slot is `slot`. -/
def slotOf? (i : Nat) : Kernel → Nat → Option Nat
  | [], _ => none
  | j :: js, slot => bif Nat.beq i j then some slot else slotOf? i js (slot + 1)

/-- Where the lookaheads of an item come from: a slot, and the tokens that may come before those of
the slot. -/
structure Source where
  slot : Nat
  tail : Nat
  deriving Repr

/-- The sources of a first item with the left side `left` in a state whose first slot is `slot`. -/
def openingSources (left : Nat) : Kernel → Nat → List Source
  | [], _ => []
  | i :: is, slot =>
    let sources := openingSources left is (slot + 1)
    bif isNonterminal (next i) then
      let look := field width (field openingWidth openings (next i - terminals)) left
      bif Nat.beq look 0 then sources else ⟨slot, join look (field width tails (i + 1))⟩ :: sources
    else sources

/-- The sources of an item in a state whose first slot is `slot`. -/
def sources (kernel : Kernel) (slot i : Nat) : List Source :=
  match slotOf? i kernel slot with
  | some own => [⟨own, nothing⟩]
  | none => openingSources (field 8 lefts i) kernel slot

/-- A slot that takes the lookaheads of a source. -/
structure Flow where
  source : Source
  target : Nat
  deriving Repr

/-- The flows to the slots from `target` on, which belong to the items after `items`. -/
def flowsTo (kernel : Kernel) (slot : Nat) : List Nat → Nat → List Flow
  | [], _ => []
  | i :: is, target =>
    (sources kernel slot i).map (fun s => ⟨s, target⟩) ++ flowsTo kernel slot is (target + 1)

/-- The flows out of the states, of which `n` is the first. -/
def flowsFrom (n : Nat) : List State → List Flow
  | [] => []
  | s :: ss =>
    s.moves.flatMap
      (fun m => flowsTo s.kernel (field 16 slots n) m.items (field 16 slots m.target)) ++
      flowsFrom (n + 1) ss

def flows : List Flow := flowsFrom 0 states

def Source.look (looks : Nat) (s : Source) : Nat := join s.tail (field width looks s.slot)

def flow (fs : List Flow) (looks : Nat) : Nat :=
  fs.foldl (fun looks f => Nat.lor looks (entry width (f.source.look looks) f.target)) looks

/-- The flows that depend on the lookaheads of their source. -/
def passing : List Flow := flows.filter fun f => !Nat.beq (Nat.land f.source.tail nothing) 0

/-- The lookaheads of the slots. The goal is followed by the end of the text. -/
def lookaheads : Nat :=
  settle (flow passing) 100 (flow flows (Nat.pow 2 Terminal.textEnd.code))

/-! ### The tables -/

/-- What a state does with a token. -/
inductive Action where
  /-- takes the token and goes to a state -/
  | shift (state : Nat)
  /-- closes a production, by its place in the grammar -/
  | reduce (production : Nat)
  /-- the text is complete -/
  | accept
  deriving DecidableEq, Repr

def closing : Nat → Action
  | 0 => .accept
  | k + 1 => .reduce k

/-- The number of states. -/
@[irreducible] def size : Nat := states.length

/-- The number of bits of the entries of `moves`. -/
def stateBits : Nat := 10

/-- For each state the states that the symbols lead to. Nothing leads to the start, which has the
number `0`. -/
@[irreducible] def moves : Nat :=
  register (stateBits * (terminals + goal)) (states.map fun s =>
    s.moves.foldl (fun row m => Nat.lor row (entry stateBits m.target m.symbol)) 0)

def moveRow (state : Nat) : Nat := field (stateBits * (terminals + goal)) moves state

/-- The items that end a rule of nothing. -/
def emptyStarts : List Nat := (starts.map Prod.snd).filter fun i => Nat.beq (next i) ending

/-- The rules that can be closed in a state whose first slot is `slot`, and the tokens that allow
it. -/
def closingList (s : State) (slot : Nat) : List (Nat × Nat) :=
  (s.kernel.filter (fun i => Nat.beq (next i) ending) ++ emptyStarts).filterMap fun i =>
    match (sources s.kernel slot i).foldl (fun look src => Nat.lor look (src.look lookaheads))
      0 with
    | 0 => none
    | look => some (field 8 owners i, look)

/-- The rules that can be closed in the states, of which `n` is the first. -/
def closingsFrom (n : Nat) : List State → List (List (Nat × Nat))
  | [] => []
  | s :: ss => closingList s (field 16 slots n) :: closingsFrom (n + 1) ss

/-- The most rules that can be closed in one state. -/
@[irreducible] def closingRoom : Nat :=
  (closingsFrom 0 states).foldl (fun n cs => max n cs.length) 0

/-- The number of bits of a rule and the tokens that allow to close it. -/
def closingBits : Nat := 8 + width

/-- For each state, the rules that can be closed there, each with the tokens that allow it. -/
@[irreducible] def closings : Nat :=
  register (closingBits * closingRoom) ((closingsFrom 0 states).map fun cs =>
    register closingBits (cs.map fun (k, look) => Nat.lor k (Nat.shiftLeft look 8)))

/-- The rules that can be closed in a state, each with the tokens that allow it. -/
def closingRow (state : Nat) : Nat := field (closingBits * closingRoom) closings state

/-- Looks for a rule that the token allows to close, among the first `n` entries of a row. -/
def findClosing (token : Nat) : Nat → Nat → Option Action
  | 0, _ => none
  | n + 1, row =>
    bif Nat.beq (field 1 row (8 + token)) 0 then findClosing token n
      (Nat.shiftRight row closingBits)
    else some (closing (Nat.mod row 256))

/-- The state that an entry of `moves` stands for. -/
def toState? : Nat → Option Nat
  | 0 => none
  | n + 1 => some (n + 1)

end Automaton

def move? (state : Nat) (s : Symbol) : Option Nat :=
  Automaton.toState? (Automaton.field Automaton.stateBits (Automaton.moveRow state) s.code)

/-- What the automaton does with a token in a state. It prefers to go on. -/
def action? (state : Nat) (t : Terminal) : Option Automaton.Action :=
  ((move? state (.terminal t)).map .shift).or
    (Automaton.findClosing t.code Automaton.closingRoom (Automaton.closingRow state))

def goto? (state : Nat) (n : Nonterminal) : Option Nat := move? state (.nonterminal n)

/-- The terminals with which the automaton can go on in a state, in the order of trial. -/
def possible (state : Nat) : List Terminal :=
  Terminal.trialOrder.filter fun t => (action? state t).isSome

end Spellbook
