import Spellbook.Proofs.Shapes
import Spellbook.Proofs.Simulation

/-!
# The trees in a tree

What holds of tokens, and of every node that a production makes, holds of every tree in a tree that
is read, however deep (`Tree.forall_subtrees_of_read`). So no such tree is a misfit
(`Tree.role_ne_misfit_of_read`): the productions give every node parts that fit, and a seat that
admits anything is taken by a token, or by a part that another production has made.

Which names a style allows matters only for the names in a tree (`Tree.role_congr`).
-/

namespace Spellbook

namespace Tree

mutual

def subtrees : Tree → List Tree
  | .node l ts => .node l ts :: subtreesAll ts
  | .token m text => [.token m text]
  | .absent => [.absent]

def subtreesAll : List Tree → List Tree
  | [] => []
  | t :: ts => t.subtrees ++ subtreesAll ts

end

theorem mem_subtreesAll {t : Tree} {ts : List Tree} :
    t ∈ subtreesAll ts ↔ ∃ u ∈ ts, t ∈ u.subtrees := by
  induction ts with
  | nil => simp [subtreesAll]
  | cons u ts ih => simp [subtreesAll, ih]

theorem self_mem_subtrees (t : Tree) : t ∈ t.subtrees := by
  cases t <;> simp [subtrees]

mutual

/-- The parts of a node that is in a tree are in the tree. -/
theorem part_mem_subtrees {l : Label} {ts : List Tree} {t u : Tree} (ht : t ∈ ts)
    (h : .node l ts ∈ u.subtrees) :
    t ∈ u.subtrees := by
  match u with
  | .node l' ts' =>
    rw [subtrees, List.mem_cons] at h
    obtain heq | h := h
    · obtain ⟨-, rfl⟩ := Tree.node.inj heq
      exact List.mem_cons_of_mem _ (mem_subtreesAll.mpr ⟨t, ht, self_mem_subtrees t⟩)
    · exact List.mem_cons_of_mem _ (part_mem_subtreesAll ht h)
  | .token _ _ => cases List.mem_singleton.mp h
  | .absent => cases List.mem_singleton.mp h

/-- A part of a subtree is a subtree. -/
theorem part_mem_subtreesAll {l : Label} {ts us : List Tree} {t : Tree} (ht : t ∈ ts)
    (h : .node l ts ∈ subtreesAll us) : t ∈ subtreesAll us := by
  match us with
  | [] => cases h
  | u :: us =>
    rw [subtreesAll, List.mem_append] at h ⊢
    exact h.imp (part_mem_subtrees ht) (part_mem_subtreesAll ht)

end

mutual

def names : Tree → List String
  | .node _ ts => namesAll ts
  | .token m text => if m = .terminal .name then [text] else []
  | .absent => []

def namesAll : List Tree → List String
  | [] => []
  | t :: ts => t.names ++ namesAll ts

end

end Tree

/-! ## Styles -/

section
variable {σ τ : Style} (hstrict : σ.strict = τ.strict)
include hstrict

theorem Seat.admits_congr (s : Seat) (ρ : Role) : s.admits σ ρ = s.admits τ ρ := by
  cases s with
  | proclaimed => rw [admits, admits, hstrict]
  | _ => rfl

theorem Seat.admitAll_congr (seats : List Seat) (ρs : List Role) :
    admitAll σ seats ρs = admitAll τ seats ρs := by
  induction seats generalizing ρs with
  | nil => cases ρs <;> rfl
  | cons s seats ih =>
    cases ρs with
    | nil => rfl
    | cons ρ ρs => rw [admitAll, admitAll, admits_congr hstrict, ih]

/-- Styles that are strict alike have the same forms fit. -/
theorem Form.fits_congr (f : Form) (ρs : List Role) : f.fits σ ρs = f.fits τ ρs := by
  cases f with
  | part =>
    rcases ρs with _ | ⟨ρ, _ | ⟨ρ', ρs⟩⟩
    · rfl
    · rfl
    · exact Seat.admitAll_congr hstrict [.plain, .plain, .plain] _
  | collection | tome | tomeContents => exact congrArg not hstrict
  | _ => first | rfl | exact Seat.admitAll_congr hstrict _ _

end

mutual

/-- The role of a tree depends on which of its own names are allowed. -/
theorem Tree.role_congr {σ τ : Style} (hstrict : σ.strict = τ.strict) {t : Tree}
    (h : ∀ x ∈ t.names, σ.allows x = τ.allows x) : t.role σ = t.role τ := by
  cases t with
  | absent => rfl
  | token mark text =>
    cases mark with
    | other name => rfl
    | terminal t =>
      rw [Tree.role, Tree.role, Terminal.role, Terminal.role]
      split
      · rfl
      · rename_i huse
        cases Terminal.eq_name_of_use huse
        rw [h text (by simp [Tree.names])]
      · rfl
      · rfl
      · rfl
  | node label ts =>
    cases label with
    | other name => rfl
    | form f => rw [Tree.role, Tree.role, Tree.roles_congr hstrict h, Form.fits_congr hstrict]

/-- Styles that allow the same of the names of some trees give them the same roles. -/
theorem Tree.roles_congr {σ τ : Style} (hstrict : σ.strict = τ.strict) {ts : List Tree}
    (h : ∀ x ∈ Tree.namesAll ts, σ.allows x = τ.allows x) : Tree.roles σ ts = Tree.roles τ ts := by
  cases ts with
  | nil => rfl
  | cons t ts =>
    rw [Tree.namesAll, List.forall_mem_append] at h
    rw [Tree.roles, Tree.roles, Tree.role_congr hstrict h.1, Tree.roles_congr hstrict h.2]

end

/-! ## Trees that are read -/

/-- What an account says of the trees that nonterminals stand for, and something of every tree in
them. -/
def Account.Throughout (F : Account) (P : Tree → Prop) : Account :=
  fun n ts ls => F n ts ls ∧ ∀ t ∈ ts, ∀ u ∈ t.subtrees, P u

section
variable {F : Account} {P : Tree → Prop} (hleaf : ∀ t text, P (.leaf t text)) (habsent : P .absent)
include hleaf habsent

theorem Account.Throughout.of_slots {slots : List Slot} {ts : List Tree} {ls : List Lexeme}
    (h : (F.Throughout P).Slots slots ts ls) :
    F.Slots slots ts ls ∧ ∀ t ∈ ts, ∀ u ∈ t.subtrees, P u := by
  induction slots generalizing ts ls with
  | nil =>
    obtain ⟨rfl, rfl⟩ := h
    exact ⟨⟨rfl, rfl⟩, nofun⟩
  | cons slot slots ih =>
    cases slot with
    | gap =>
      obtain ⟨ts, rfl, h⟩ := h
      exact ⟨⟨ts, rfl, (ih h).1⟩,
        List.forall_mem_cons.mpr ⟨List.forall_mem_singleton.mpr habsent, (ih h).2⟩⟩
    | dropped t =>
      obtain ⟨ls, rfl, h⟩ := h
      exact ⟨⟨ls, rfl, (ih h).1⟩, (ih h).2⟩
    | kept t =>
      obtain ⟨text, ts, ls, htext, rfl, rfl, h⟩ := h
      exact ⟨⟨text, ts, ls, htext, rfl, rfl, (ih h).1⟩,
        List.forall_mem_cons.mpr ⟨List.forall_mem_singleton.mpr (hleaf t text), (ih h).2⟩⟩
    | part n =>
      obtain ⟨ts₁, ts₂, ls₁, ls₂, rfl, rfl, hpart, h⟩ := h
      exact ⟨⟨ts₁, ts₂, ls₁, ls₂, rfl, rfl, hpart.1, (ih h).1⟩,
        List.forall_mem_append.mpr ⟨hpart.2, (ih h).2⟩⟩

/-- A production respects a property of all subtrees if it does for the node that it makes. -/
theorem Production.respects_throughout {p : Production} (hp : p.Respects F)
    (hnode : ∀ f ts ls, p.shape = .node f → F.Slots p.slots ts ls → P (.form f ts)) :
    p.Respects (F.Throughout P) := by
  intro ts ls h
  obtain ⟨hslots, hts⟩ := Account.Throughout.of_slots hleaf habsent h
  refine ⟨hp ts ls hslots, ?_⟩
  rw [Production.trees]
  cases hshape : p.shape with
  | list | only => exact hts
  | node f =>
    refine List.forall_mem_singleton.mpr fun u hu => ?_
    rcases List.mem_cons.mp hu with rfl | hu
    · exact hnode f ts ls hshape hslots
    · obtain ⟨t, ht, hu⟩ := Tree.mem_subtreesAll.mp hu
      exact hts t ht u hu

/-- **What is true of the tokens and of every node that a production makes is true of all trees in a
program that is read.** -/
theorem Tree.forall_subtrees_of_read (hF : ∀ p ∈ Grammar.productions, p.Respects F)
    (hnode : ∀ p ∈ Grammar.productions, ∀ f ts ls, p.shape = .node f → F.Slots p.slots ts ls →
      P (.form f ts))
    {source : String} {program t : Tree} (hread : Tree.read source = .ok program)
    (ht : t ∈ program.subtrees) :
    P t := by
  obtain ⟨c, -, -, hreads⟩ := Reader.read_eq_ok_iff.mp hread
  have hall := hreads.accounted (F := F.Throughout P) fun p hp =>
    Production.respects_throughout hleaf habsent (hF p hp) (hnode p hp)
  exact hall.2 program (List.mem_singleton_self program) t ht

end

/-- The parts of a node in a program that is read are as one of the productions that make such nodes
gives them. -/
theorem Tree.parts_of_read {F : Account} (hF : ∀ p ∈ Grammar.productions, p.Respects F) {f : Form}
    {P : List Tree → Prop}
    (hnode : ∀ p ∈ Grammar.productions.filter (·.shape == .node f), ∀ ts ls, F.Slots p.slots ts ls →
      P ts)
    {source : String} {program : Tree} {ts : List Tree} (hread : Tree.read source = .ok program)
    (ht : Tree.form f ts ∈ program.subtrees) : P ts := by
  refine Tree.forall_subtrees_of_read (P := fun t => ∀ ts, t = .form f ts →
    P ts) (fun _ _ _ => nofun) (fun _ => nofun)
    hF (fun p hp f' ts' ls hshape h ts hts => ?_) hread ht ts rfl
  cases hts
  exact hnode p (List.mem_filter.mpr ⟨hp, beq_iff_eq.mpr hshape⟩) ts' ls h

theorem Tree.role_leaf_ne_misfit (t : Terminal) (text : String) :
    (Tree.leaf t text).role .lax ≠ .misfit := by
  show t.role .lax text ≠ .misfit
  rw [Terminal.role]
  split <;> try split
  all_goals simp_all

/-- The nonterminals whose trees may have any role. -/
def Nonterminal.isLoose : Nonterminal → Bool
  | yore | tome | tomeContents => true
  | _ => false

/-- What is checked of a production: where any role would do, the form has none to miss. -/
def Production.looseOk (p : Production) : Bool :=
  match p.shape with
  | .node f => !p.left.isLoose || [Form.yore, .tome, .tomeContents].contains f
  | _ => true

theorem productions_loose : Grammar.productions.all Production.looseOk = true := by
  decide

/-- What the grammar derives from any but a loose nonterminal fits. -/
theorem Shaped.role_ne_misfit {n : Nonterminal} {t : Tree} {ls : List Lexeme} (h : Shaped n [t] ls)
    (hn : n.isLoose = false) : t.role .lax ≠ .misfit := by
  intro hmisfit
  cases n with
  | yore | tome | tomeContents => cases hn
  | instructions | parameterList | furtherArguments | parts =>
    have hrole := h t (List.mem_singleton_self t)
    rw [hmisfit] at hrole
    cases hrole
  | shifts =>
    -- a branch has three parts
    cases h []
  | _ =>
    obtain ⟨t', ht, hrole⟩ := h
    cases ht
    rw [hmisfit] at hrole
    cases hrole

/-- A node that a production makes is no misfit. -/
theorem role_ne_misfit_of_production {p : Production} (hp : p ∈ Grammar.productions) (f : Form)
    (ts : List Tree) (ls : List Lexeme) (hshape : p.shape = .node f)
    (hslots : Shaped.Slots p.slots ts ls) :
    (Tree.form f ts).role .lax ≠ .misfit := by
  cases hloose : p.left.isLoose with
  | false =>
    have hshaped := productions_shaped hp ts ls hslots
    rw [Production.trees, hshape] at hshaped
    exact hshaped.role_ne_misfit hloose
  | true =>
    have hok := List.all_eq_true.mp productions_loose p hp
    rw [Production.looseOk, hshape, hloose] at hok
    have hf : f ∈ [Form.yore, .tome, .tomeContents] := List.contains_iff_mem.mp hok
    simp only [List.mem_cons, List.not_mem_nil, or_false] at hf
    rcases hf with rfl | rfl | rfl
    all_goals
      intro hrole
      cases hrole

/-- **No tree in a program that is read is a misfit.** -/
theorem Tree.role_ne_misfit_of_read {source : String} {program t : Tree}
    (hread : Tree.read source = .ok program) (ht : t ∈ program.subtrees) : t.role .lax ≠ .misfit :=
  Tree.forall_subtrees_of_read (P := fun t => t.role .lax ≠ .misfit) Tree.role_leaf_ne_misfit
    Role.noConfusion (fun _ => productions_shaped) (fun _ => role_ne_misfit_of_production) hread ht

end Spellbook
