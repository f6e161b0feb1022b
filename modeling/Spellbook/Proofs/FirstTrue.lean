import Spellbook.Proofs.GivenText
import Spellbook.Proofs.Subtrees
import Spellbook.Proofs.Truth

/-!
# The branch that is taken

A choice is written as branches, each a condition and a block, and perhaps a block for `resolve`. In
the tree they are one flat list of parts, and where there is no `resolve` two parts are absent.
Every choice in a program that is read has such parts (`Choice.exists_of_read`).

`Asked` follows a choice condition by condition, each asked in the machine that the one before left,
up to the one that decides: it is true, or it comes to no truth at all. A choice does what the
deciding condition says, whatever is written behind it (`first_true_branch`).
-/

namespace Spellbook

/-- A branch of a choice: a condition, and the instructions of a block. -/
structure Branch where
  condition : Tree
  body : List Tree

/-- The parts of branches. The first begins with the given word and those behind it with `shift`. -/
def branchParts (word : Tree) : List Branch → List Tree
  | [] => []
  | b :: bs => word :: b.condition :: .form .block b.body :: branchParts (.leaf .shift "shift") bs

theorem branchParts_append (bs bs' : List Branch) : branchParts (.leaf .shift "shift") (bs ++ bs') =
    branchParts (.leaf .shift "shift") bs ++ branchParts (.leaf .shift "shift") bs' := by
  induction bs with
  | nil => rfl
  | cons b bs ih =>
    rw [List.cons_append, branchParts, branchParts, ih]
    rfl

/-- The branches of a choice: that of `foretell`, those of `shift`, and the instructions for
`resolve`, if there are any. -/
structure Choice where
  first : Branch
  shifts : List Branch
  resolve? : Option (List Tree)

namespace Choice

def asking (c : Choice) : List Branch := c.first :: c.shifts

/-- The parts at the end of a choice. -/
def lastParts : Option (List Tree) → List Tree
  | some body => [.leaf .resolve "resolve", .form .block body]
  | none => [.absent, .absent]

def tree (c : Choice) : Tree :=
  .form .foretell (branchParts (.leaf .foretell "foretell") c.asking ++ lastParts c.resolve?)

end Choice

/-! ### Choices that are read -/

/-- The nonterminals that stand for one tree each. -/
def Nonterminal.isSingle : Nonterminal → Bool
  | instructions | parameterList | furtherArguments | parts | shifts => false
  | _ => true

/-- The trees that nonterminals stand for, as far as choices need to know. -/
def Laid : Account := fun n ts _ =>
  (n.isSingle = true → ∃ t, ts = [t]) ∧ (n = .block → ∃ body, ts = [.form .block body]) ∧
    (n = .shifts → ∃ bs, ts = branchParts (.leaf .shift "shift") bs)

/-- What is checked of a production that makes no shifts: it makes a node, hands one tree up, or
makes a list. -/
def Production.isLaidOut (p : Production) : Bool :=
  p.left != .shifts &&
    match p.shape, p.slots with
    | .node f, _ => p.left != .block || f == .block
    | .only, [.part n] | .only, [.part n, .dropped _] => n.isSingle && p.left != .block
    | .only, [.kept _] => p.left != .block
    | .list, _ => !p.left.isSingle && p.left != .block
    | _, _ => false

/-- Every production but those of the shifts lays its parts out plainly, checked together. -/
theorem productions_laidOut : ∀ p ∈ Grammar.productions, p.left = .shifts ∨ p.isLaidOut = true := by
  decide

theorem Laid.of_single {n : Nonterminal} {ts : List Tree} {ls : List Lexeme} (hts : ∃ t, ts = [t])
    (hblock : n ≠ .block) (hshifts : n ≠ .shifts) : Laid n ts ls :=
  ⟨fun _ => hts, fun h => absurd h hblock, fun h => absurd h hshifts⟩

theorem Production.laid_of_isLaidOut {p : Production} (h : p.isLaidOut = true) :
    p.Respects Laid := by
  obtain ⟨n, slots, shape⟩ := p
  intro ts ls hslots
  simp only [isLaidOut, Bool.and_eq_true, bne_iff_ne] at h
  obtain ⟨hshifts, h⟩ := h
  split at h
  · rename_i f
    simp only [Bool.or_eq_true, bne_iff_ne, beq_iff_eq] at h
    obtain hblock | rfl := h
    · exact .of_single ⟨_, rfl⟩ hblock hshifts
    · exact ⟨fun _ => ⟨_, rfl⟩, fun _ => ⟨ts, rfl⟩, fun h => absurd h hshifts⟩
  · rename_i n'
    simp only [Bool.and_eq_true, bne_iff_ne] at h
    obtain ⟨ts₁, _, _, _, rfl, -, hpart, rfl, -⟩ := hslots
    rw [List.append_nil]
    exact .of_single (hpart.1 h.1) h.2 hshifts
  · rename_i n' t
    simp only [Bool.and_eq_true, bne_iff_ne] at h
    obtain ⟨ts₁, _, _, _, rfl, -, hpart, _, -, rfl, -⟩ := hslots
    rw [List.append_nil]
    exact .of_single (hpart.1 h.1) h.2 hshifts
  · obtain ⟨text, _, _, -, rfl, -, rfl, -⟩ := hslots
    exact .of_single ⟨_, rfl⟩ (bne_iff_ne.mp h) hshifts
  · simp only [Bool.and_eq_true, Bool.not_eq_true', bne_iff_ne] at h
    exact ⟨fun hsingle => absurd hsingle (by rw [h.1]; exact Bool.false_ne_true), fun hb =>
      absurd hb h.2, fun hs => absurd hs hshifts⟩
  · cases h

/-- A token with only one spelling is spelled so. -/
theorem Lexeme.Spelled.text_eq {t : Terminal} {text w : String}
    (h : Lexeme.Spelled ⟨t, text.toList⟩) (hw : t.spelling? = some w.toList) : text = w :=
  String.toList_injective (h _ hw)

section
open Grammar (condition braced)

variable {slots : List Slot} {ts : List Tree} {ls : List Lexeme}

/-- A braced body is a block. -/
theorem Laid.braced_slots (h : Laid.Slots (braced ++ slots) ts ls) :
    ∃ body ts' ls', ts = .form .block body :: ts' ∧ Laid.Slots slots ts' ls' := by
  obtain ⟨_, -, ts₁, ts₂, _, _, rfl, -, hblock, ls', -, hrest⟩ := h
  obtain ⟨body, rfl⟩ := hblock.2.1 rfl
  exact ⟨body, ts₂, ls', rfl, hrest⟩

/-- The slots of a branch are taken by its parts. -/
theorem Laid.branch_slots {word : Terminal} {w : String} (hw : word.spelling? = some w.toList)
    (h : Laid.Slots (.kept word :: (condition ++ (braced ++ slots))) ts ls) :
    ∃ (b : Branch) (ts' : List Tree) (ls' : List Lexeme),
      ts = .leaf word w :: b.condition :: .form .block b.body :: ts' ∧
      Laid.Slots slots ts' ls' := by
  obtain ⟨text, _, _, hspelled, rfl, -, _, -, _, _, _, _, rfl, -, hcondition, _, -, hbraced⟩ := h
  obtain ⟨c, rfl⟩ := hcondition.1 rfl
  obtain ⟨body, ts', ls', rfl, hrest⟩ := braced_slots hbraced
  rw [hspelled.text_eq hw]
  exact ⟨⟨c, body⟩, ts', ls', rfl, hrest⟩

/-- The last branch is a body without a condition. -/
theorem Laid.resolve_slots (h : Laid.Slots (.kept .resolve :: braced) ts ls) :
    ∃ body, ts = Choice.lastParts (some body) := by
  obtain ⟨text, _, _, hspelled, rfl, -, hbraced⟩ := h
  rw [← List.append_nil braced] at hbraced
  obtain ⟨body, _, _, rfl, rfl, -⟩ := braced_slots hbraced
  rw [hspelled.text_eq rfl]
  exact ⟨body, rfl⟩

theorem shifts_laid {p : Production} (hp : p ∈ Grammar.productions) (hleft : p.left = .shifts) :
    p.Respects Laid := by
  have hshifts : p ∈ Grammar.productions.filter (·.left == .shifts) :=
    List.mem_filter.mpr ⟨hp, beq_iff_eq.mpr hleft⟩
  have hlist : Grammar.productions.filter (·.left == .shifts) =
      [Grammar.list .shifts (.kept .shift :: (condition ++ (braced ++ []))),
        Grammar.list .shifts (.part .shifts :: .kept .shift :: (condition ++ (braced ++ [])))] := by
    decide
  rw [hlist] at hshifts
  simp only [List.mem_cons, List.not_mem_nil, or_false] at hshifts
  intro ts ls h
  refine ⟨fun hsingle => ?_, fun hblock => ?_, fun _ => ?_⟩
  · rw [hleft] at hsingle
    cases hsingle
  · rw [hleft] at hblock
    cases hblock
  · obtain rfl | rfl := hshifts
    · obtain ⟨b, _, _, rfl, rfl, -⟩ := Laid.branch_slots (w := "shift") rfl h
      exact ⟨[b], rfl⟩
    -- The branches are read from the left: the last one stands behind the nonterminal for those
    -- before it.
    · obtain ⟨_, _, _, _, rfl, -, hbefore, hlast⟩ := h
      obtain ⟨b, _, _, rfl, rfl, -⟩ := Laid.branch_slots (w := "shift") rfl hlast
      obtain ⟨bs, rfl⟩ := hbefore.2.2 rfl
      exact ⟨bs ++ [b], (branchParts_append bs [b]).symm⟩

/-- Every production lays out the branches that it has. -/
theorem productions_laid {p : Production} (hp : p ∈ Grammar.productions) : p.Respects Laid := by
  obtain hleft | hlaid := productions_laidOut p hp
  · exact shifts_laid hp hleft
  · exact p.laid_of_isLaidOut hlaid

end

/-- **Every choice in a program that is read has its branches.** -/
theorem Choice.exists_of_read {source : String} {program : Tree} {parts : List Tree}
    (hread : Tree.read source = .ok program) (ht : Tree.form .foretell parts ∈ program.subtrees) :
    ∃ c : Choice, Tree.form .foretell parts = c.tree := by
  have hfour : Grammar.productions.filter (·.shape == .node .foretell) =
      [[.part .shifts, .kept .resolve] ++ Grammar.braced, [.part .shifts, .gap, .gap],
        .kept .resolve :: Grammar.braced, [.gap, .gap]].map fun rest =>
          Grammar.rule .foretell .foretell
          (.kept .foretell :: (Grammar.condition ++ (Grammar.braced ++ rest))) := by
    decide
  refine Tree.parts_of_read (P := fun parts => ∃ c : Choice, Tree.form .foretell parts = c.tree)
    (fun _ => productions_laid) (fun p hp ts ls h => ?_) hread ht
  rw [hfour] at hp
  simp only [List.map_cons, List.map_nil, List.mem_cons, List.not_mem_nil, or_false] at hp
  obtain rfl | rfl | rfl | rfl := hp
  · obtain ⟨b, _, _, rfl, _, _, _, _, rfl, -, hshifts, hresolve⟩ :=
      Laid.branch_slots (w := "foretell") rfl h
    obtain ⟨bs, rfl⟩ := hshifts.2.2 rfl
    obtain ⟨body, rfl⟩ := Laid.resolve_slots hresolve
    exact ⟨⟨b, bs, some body⟩, rfl⟩
  · obtain ⟨b, _, _, rfl, _, _, _, _, rfl, -, hshifts, _, rfl, _, rfl, rfl, -⟩ :=
      Laid.branch_slots (w := "foretell") rfl h
    obtain ⟨bs, rfl⟩ := hshifts.2.2 rfl
    exact ⟨⟨b, bs, none⟩, rfl⟩
  · obtain ⟨b, _, _, rfl, hresolve⟩ := Laid.branch_slots (w := "foretell") rfl h
    obtain ⟨body, rfl⟩ := Laid.resolve_slots hresolve
    exact ⟨⟨b, [], some body⟩, rfl⟩
  · obtain ⟨b, _, _, rfl, _, rfl, _, rfl, rfl, -⟩ := Laid.branch_slots (w := "foretell") rfl h
    exact ⟨⟨b, [], none⟩, rfl⟩

/-! ### Asking the conditions -/

/-- What the conditions of a choice come to. -/
inductive Decision where
  | taken (body : List Tree)
  | passed
  | ended (e : Ending Datum)

/-- Conditions that are asked one after the other, each in the machine that the one before left. All
are false but the last, which may give a decision: it is true, or it comes to no truth. -/
inductive Asked (n : Nat) : List Branch → Machine → Decision → Machine → Prop
  | none {m : Machine} : Asked n [] m .passed m
  | isFalse {b : Branch} {bs : List Branch} {d : Datum} {v : Decision} {m m₁ m₂ : Machine}
      (hc : b.condition.meaning n m = (.done d, m₁)) (hd : d.truth = .ok false)
        (hbs : Asked n bs m₁ v m₂) :
      Asked n (b :: bs) m v m₂
  | isTrue {b : Branch} {d : Datum} {m m₁ : Machine} (hc : b.condition.meaning n m = (.done d, m₁))
      (hd : d.truth = .ok true) : Asked n [b] m (.taken b.body) m₁
  | hasNoTruth {b : Branch} {d : Datum} {f : Fault} {m m₁ : Machine}
      (hc : b.condition.meaning n m = (.done d, m₁))
      (hd : d.truth = .error f) : Asked n [b] m (.ended (.failed f)) m₁
  | hasNoValue {b : Branch} {e : Ending Datum} {m m₁ : Machine}
      (hc : b.condition.meaning n m = (e, m₁))
      (he : e.outcome ≠ .done) : Asked n [b] m (.ended e) m₁

/-- Some first conditions of a choice give a decision, or all of them are passed. -/
theorem Asked.exists (n : Nat) (bs : List Branch) (m : Machine) :
    ∃ asked rest v m', bs = asked ++ rest ∧ Asked n asked m v m' ∧ (v = .passed → rest = []) := by
  induction bs generalizing m with
  | nil => exact ⟨[], [], .passed, m, rfl, .none, fun _ => rfl⟩
  | cons b bs ih =>
    rcases hc : b.condition.meaning n m with ⟨e, m₁⟩
    cases e with
    | done d =>
      rcases hd : d.truth with f | isTrue
      · exact ⟨[b], bs, _, m₁, rfl, .hasNoTruth hc hd, nofun⟩
      · cases isTrue with
        | true => exact ⟨[b], bs, _, m₁, rfl, .isTrue hc hd, nofun⟩
        | false =>
          obtain ⟨asked, rest, v, m₂, rfl, hasked, hrest⟩ := ih m₁
          exact ⟨b :: asked, rest, v, m₂, rfl, .isFalse hc hd hasked, hrest⟩
    | proclaimed _ | shattered | persisted | failed _ | exhausted =>
      exact ⟨[b], bs, _, m₁, rfl, .hasNoValue hc nofun, nofun⟩

/-- What a choice does after a decision, if the given spell is what it does when all its conditions
are passed. -/
def Decision.spell (n : Nat) (last : Spell Datum) : Decision → Spell Datum
  | taken body => (Tree.form .block body).meaning n
  | passed => last
  | ended e => Spell.finish e

/-- A body that is run gives nothing. -/
theorem runEach_bind_nothing (run : Run) (ts : List Tree) (m : Machine) :
    (runEach run ts >>= fun _ => pure .nothing) m = runEach run ts m := by
  induction ts generalizing m with
  | nil => rfl
  | cons t ts ih =>
    rw [runEach, Spell.bind_assoc]
    exact Spell.bind_congr fun _ m' _ => ih m'

/-- What the branches do is what was decided when they were asked in turn. -/
theorem Asked.branches_eq {n : Nat} {asked : List Branch} {v : Decision} {m m' : Machine}
    (h : Asked (n + 1) asked m v m') {word : Tree} (hword : word ∈ conditionWords)
    {rest : List Branch} (hrest : v = .passed → rest = []) (last : List Tree) :
    branches (Tree.meaning (n + 1)) (branchParts word (asked ++ rest) ++ last) m =
      v.spell (n + 1) (branches (Tree.meaning (n + 1)) last) m' := by
  induction h generalizing word with
  | none =>
    rw [hrest rfl]
    rfl
  | isFalse hc hd _ ih =>
    refine (branches_word hword).trans ?_
    rw [Spell.bind_of_done hc, hd]
    exact ih (List.mem_cons_of_mem _ List.mem_cons_self) hrest
  | isTrue hc hd =>
    refine (branches_word hword).trans ?_
    rw [Spell.bind_of_done hc, hd]
    exact runEach_bind_nothing _ _ _
  | hasNoTruth hc hd =>
    refine (branches_word hword).trans ?_
    rw [Spell.bind_of_done hc, hd]
    rfl
  | @hasNoValue b e m m₁ hc he =>
    refine (branches_word hword).trans ?_
    rw [Spell.bind_apply, Spell.bind, hc]
    cases e with
    | done d => exact absurd rfl he
    | proclaimed _ | shattered | persisted | failed _ | exhausted => rfl

/-- A foretelling does what was decided when its branches were asked in turn. -/
theorem Asked.meaning_tree {n : Nat} {asked : List Branch} {v : Decision} {m m' : Machine}
    (h : Asked (n + 1) asked m v m') {c : Choice} {rest : List Branch}
    (hc : c.asking = asked ++ rest) (hrest : v = .passed → rest = []) :
    c.tree.meaning (n + 2) m = v.spell (n + 1)
    (branches (Tree.meaning (n + 1)) (Choice.lastParts c.resolve?)) m' := by
  rw [Choice.tree, hc]
  exact h.branches_eq List.mem_cons_self hrest _

/-- What is at the end of a choice. -/
theorem branches_lastParts (n : Nat) (resolve? : Option (List Tree)) (m : Machine) :
    branches (Tree.meaning (n + 1)) (Choice.lastParts resolve?) m =
      match resolve? with
      | some body => (Tree.form .block body).meaning (n + 1) m
      | none => (.done .nothing, m) := by
  cases resolve? with
  | none => rfl
  | some body => exact runEach_bind_nothing _ _ _

/-- **The first true branch is taken.** Every choice of a program that is read has branches. Its
conditions are asked in order, and those that are asked decide what it does: the block of the first
that is true is run, or a condition that comes to no truth is the choice's ending, and any choice
that begins with the same branches does the same. If all conditions are false, the block for
`resolve` is run, or nothing is if there is none. -/
theorem first_true_branch {source : String} {program : Tree} {parts : List Tree}
    (hread : Tree.read source = .ok program) (ht : Tree.form .foretell parts ∈ program.subtrees)
    (n : Nat) (m : Machine) :
    ∃ (c : Choice) (asked rest : List Branch) (v : Decision)
    (m' : Machine), Tree.form .foretell parts = c.tree ∧
      c.asking = asked ++ rest ∧ Asked (n + 1) asked m v m' ∧
      match v with
      | .taken body => ∀ c' : Choice, asked <+: c'.asking →
          c'.tree.meaning (n + 2) m = (Tree.form .block body).meaning (n + 1) m'
      | .ended e => ∀ c' : Choice, asked <+: c'.asking → c'.tree.meaning (n + 2) m = (e, m')
      | .passed => rest = [] ∧ c.tree.meaning (n + 2) m =
          match c.resolve? with
          | some body => (Tree.form .block body).meaning (n + 1) m'
          | none => (.done .nothing, m') := by
  obtain ⟨c, hc⟩ := Choice.exists_of_read hread ht
  -- Which conditions are asked is seen from this choice. Any other with these branches first is
  -- decided by them too, unless all are passed: then it matters what comes behind them.
  obtain ⟨asked, rest, v, m', hasking, hasked, hrest⟩ := Asked.exists (n + 1) c.asking m
  refine ⟨c, asked, rest, v, m', hc, hasking, hasked, ?_⟩
  cases v with
  | taken body =>
    rintro c' ⟨rest', hrest'⟩
    exact hasked.meaning_tree hrest'.symm nofun
  | ended e =>
    rintro c' ⟨rest', hrest'⟩
    exact hasked.meaning_tree hrest'.symm nofun
  | passed =>
    refine ⟨hrest rfl, ?_⟩
    rw [hasked.meaning_tree hasking hrest]
    exact branches_lastParts n c.resolve? m'

theorem leavingChoice_mem_subtrees :
    leavingChoice ∈ (Tree.form .start [leavingDeclaration]).subtrees := by
  simp [leavingDeclaration, leavingBody, Tree.form, Tree.subtrees, Tree.subtreesAll,
    Tree.self_mem_subtrees]

/-- The choice of a program whose second condition is true. -/
theorem first_true_branch_shifted : Tree.read
      "incantation f\x7bforetell (Falsehood)\x7b\x7dshift (Truthsung)\x7bproclaim;\x7dresolve\x7b\x7d\x7d" =
        .ok (.form .start [leavingDeclaration]) ∧
    leavingChoice ∈ (Tree.form .start [leavingDeclaration]).subtrees ∧
    ∃ (c : Choice) (asked rest : List Branch) (v : Decision)
    (m' : Machine), leavingChoice = c.tree ∧
      c.asking = asked ++ rest ∧ Asked 1 asked {} v m' ∧
      match v with
      | .taken body => ∀ c' : Choice, asked <+: c'.asking →
          c'.tree.meaning 2 {} = (Tree.form .block body).meaning 1 m'
      | .ended e => ∀ c' : Choice, asked <+: c'.asking → c'.tree.meaning 2 {} = (e, m')
      | .passed => rest = [] ∧ c.tree.meaning 2 {} =
          match c.resolve? with
          | some body => (Tree.form .block body).meaning 1 m'
          | none => (.done .nothing, m') :=
  ⟨read_leavingDeclaration, leavingChoice_mem_subtrees,
    first_true_branch read_leavingDeclaration leavingChoice_mem_subtrees 0 {}⟩

end Spellbook
