import Spellbook.Proofs.Incantation

/-!
# Checks of a tree as it stands

Some properties of a program can be read off its text. A `Check` asks something of every tree that a
run may come to, and what it asks may depend on the place of the tree; `Tree.passes` carries the
place along on the way down. Three places are special:

* the list of names or arguments after the name of an incantation is no tree that is run. Its
  members are, in the place of the whole;
* the body of an incantation is not run where it is declared. It has a place of its own, or is not
  looked at;
* the word in front of a name is not run at all.
-/

namespace Spellbook

/-- What is asked of the trees of a program, with places taken from `σ`. -/
structure Check (σ : Type) where
  /-- what is asked of a tree by itself -/
  here : σ → Tree → Bool
  /-- the place of a part, by its number, within a node -/
  inside : σ → Form → Nat → σ
  /-- the place of the body of an incantation, if it is looked at -/
  body? : Option σ

mutual

def Tree.passes {σ : Type} (K : Check σ) (s : σ) : Tree → Bool
  | .node (.form .incantation) parts =>
    K.here s (.node (.form .incantation) parts) && Tree.headPasses K s parts &&
      Tree.lastPasses K parts
  | .node (.form .cast) parts => K.here s (.node (.form .cast) parts) && Tree.headPasses K s parts
  | .node (.form f) parts => K.here s (.node (.form f) parts) && Tree.partsPass K s f 0 parts
  | t => K.here s t

/-- Whether the name passes that an incantation is declared or cast by, and what is listed after
it. -/
def Tree.headPasses {σ : Type} (K : Check σ) (s : σ) : List Tree → Bool
  | _ :: name :: list :: _ => name.passes K s && list.listPasses K s
  | _ :: name :: [] => name.passes K s
  | _ => true

def Tree.listPasses {σ : Type} (K : Check σ) (s : σ) : Tree → Bool
  | .node _ ts => Tree.allPass K s ts
  | _ => true

def Tree.allPass {σ : Type} (K : Check σ) (s : σ) : List Tree → Bool
  | [] => true
  | t :: ts => t.passes K s && Tree.allPass K s ts

/-- Whether the last tree passes as the body of an incantation. -/
def Tree.lastPasses {σ : Type} (K : Check σ) : List Tree → Bool
  | [] => true
  | [t] =>
    match K.body? with
    | some s => t.passes K s
    | none => true
  | _ :: t :: ts => Tree.lastPasses K (t :: ts)

/-- Whether the parts of a node pass, from the `i`-th on. -/
def Tree.partsPass {σ : Type} (K : Check σ) (s : σ) (f : Form) (i : Nat) : List Tree → Bool
  | [] => true
  | t :: ts => t.passes K (K.inside s f i) && Tree.partsPass K s f (i + 1) ts

end

/-- Whether a form runs its parts where it stands: not those that declare or cast an incantation. -/
def Form.isDirect : Form → Bool
  | .incantation | .cast => false
  | _ => true

theorem Form.Tame.isDirect {f : Form} (h : f.Tame) : f.isDirect = true := by
  cases f with
  | incantation | cast => exact absurd h (by decide)
  | _ => rfl

theorem Form.isDirect_of_cycle {f : Form} {n : Nat} (h : f.bodyIndex? = some n) :
    f.isDirect = true := by
  cases f with
  | incantation | cast => cases h
  | _ => rfl

namespace Tree

variable {σ : Type} {K : Check σ} {s : σ} {f : Form} {parts : List Tree} {t : Tree}

/-- What passes a check passes it here. -/
theorem passes_here (h : t.passes K s = true) : K.here s t = true := by
  unfold Tree.passes at h
  split at h
  · exact (Bool.and_eq_true_iff.mp (Bool.and_eq_true_iff.mp h).1).1
  · exact (Bool.and_eq_true_iff.mp h).1
  · exact (Bool.and_eq_true_iff.mp h).1
  · exact h

theorem partsPass_getElem? {i k : Nat} {ts : List Tree} (h : Tree.partsPass K s f i ts = true)
    (ht : ts[k]? = some t) : t.passes K (K.inside s f (i + k)) = true := by
  induction ts generalizing i k with
  | nil => cases ht
  | cons u us ih =>
      rw [Tree.partsPass, Bool.and_eq_true] at h
      cases k with
      | zero =>
          cases ht
          exact h.1
      | succ k =>
          rw [← Nat.succ_add_eq_add_succ]
          exact ih h.2 ht

/-- A part of a direct form passes where the form puts it. -/
theorem passes_part {i : Nat} (hf : f.isDirect = true)
    (h : (Tree.node (.form f) parts).passes K s = true) (ht : parts[i]? = some t) :
    t.passes K (K.inside s f i) = true := by
  have hparts : Tree.partsPass K s f 0 parts = true := by
    cases f with
    | incantation | cast => cases hf
    | _ => exact (Bool.and_eq_true_iff.mp h).2
  have hpart := partsPass_getElem? hparts ht
  rwa [Nat.zero_add] at hpart

/-- The head of an incantation or a cast passes. -/
theorem passes_head (hf : f = .incantation ∨ f = .cast)
    (h : (Tree.node (.form f) parts).passes K s = true) : Tree.headPasses K s parts = true := by
  rcases hf with rfl | rfl
  · exact (Bool.and_eq_true_iff.mp (Bool.and_eq_true_iff.mp h).1).2
  · exact (Bool.and_eq_true_iff.mp h).2

theorem passes_name (hf : f = .incantation ∨ f = .cast)
    (h : (Tree.node (.form f) parts).passes K s = true) (ht : parts[1]? = some t) :
    t.passes K s = true := by
  have hhead := passes_head hf h
  match parts, ht with
  | [_, name], rfl => exact hhead
  | _ :: name :: list :: _, rfl => exact (Bool.and_eq_true_iff.mp hhead).1

theorem allPass_mem {ts : List Tree} (h : Tree.allPass K s ts = true) (ht : t ∈ ts) :
    t.passes K s = true := by
  induction ts with
  | nil => cases ht
  | cons u us ih =>
      rw [Tree.allPass, Bool.and_eq_true] at h
      rcases List.mem_cons.mp ht with rfl | ht
      · exact h.1
      · exact ih h.2 ht

/-- What an incantation or a cast lists passes. -/
theorem passes_listed (hf : f = .incantation ∨ f = .cast)
    (h : (Tree.node (.form f) parts).passes K s = true)
    (ht : t ∈ (optionalPart parts 2).listed) : t.passes K s = true := by
  have hhead := passes_head hf h
  match parts, ht with
  | _ :: name :: list :: _, ht =>
      have hlist : list.listPasses K s = true := (Bool.and_eq_true_iff.mp hhead).2
      cases list with
      | node label ts => exact allPass_mem hlist ht
      | token mark text => cases ht
      | absent => cases ht

/-- The body of an incantation passes on its own. -/
theorem passes_body {s' : σ} (hbody : K.body? = some s') (habsent : K.here s' .absent = true)
    (h : (Tree.node (.form .incantation) parts).passes K s = true) :
    (parts.getLast?.getD .absent).passes K s' = true := by
  have hlast : Tree.lastPasses K parts = true := (Bool.and_eq_true_iff.mp h).2
  clear h
  induction parts with
  | nil => exact habsent
  | cons t ts ih =>
      cases ts with
      | nil =>
          rw [Tree.lastPasses, hbody] at hlast
          exact hlast
      | cons u us =>
          rw [List.getLast?_cons_cons]
          exact ih hlast

end Tree

end Spellbook
