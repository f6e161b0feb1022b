import Spellbook.Proofs.Exits
import Spellbook.Proofs.Incantation

/-!
# Trees of the language

A tree that is made by hand may carry any name, and what a name outside the language does is left
open (`Tree.meaningWith`). A tree in which every name is one of the language's (`Tree.isNative`)
never comes to such a name, as long as the bodies of the incantations are such trees too: it
declares no other bodies (`Tree.meaning_keeps_nativeLaw`), so whatever the other names do, its run
is the same (`Tree.meaningWith_of_native`).
-/

namespace Spellbook

/-! ## Names of the language -/

mutual

/-- Whether every node and token of a tree carries a name of the language. A node may also carry the
name of a token, and a token that of a node. -/
def Tree.isNative : Tree → Bool
  | .node (.form _) parts => Tree.areNative parts
  | .node (.other name) parts => (Terminal.ofLabel? name).isSome && Tree.areNative parts
  | .token (.terminal _) _ => true
  | .token (.other name) _ => (Form.ofLabel? name).isSome
  | .absent => true

def Tree.areNative : List Tree → Bool
  | [] => true
  | t :: ts => t.isNative && Tree.areNative ts

end

def Book.IsNative (b : Table Incantation) : Prop :=
  ∀ name i, b.find? name = some i → i.body.isNative = true

theorem Tree.areNative_iff {ts : List Tree} :
    Tree.areNative ts = true ↔ ∀ t ∈ ts, t.isNative = true := by
  induction ts with
  | nil => exact ⟨fun _ => nofun, fun _ => rfl⟩
  | cons t ts ih => rw [Tree.areNative, Bool.and_eq_true, ih, List.forall_mem_cons]

theorem Tree.isNative_of_listed {t u : Tree} (ht : t.isNative = true) (hu : u ∈ t.listed) :
    u.isNative = true := by
  cases t with
  | absent | token => cases hu
  | node label ts =>
    cases label with
    | form f => exact Tree.areNative_iff.mp ht u hu
    | other name => exact Tree.areNative_iff.mp (Bool.and_eq_true_iff.mp ht).2 u hu

/-! ## Native books -/

/-- A book with native bodies still has them afterwards, whatever a run comes to. -/
def nativeLaw : Law := fun m _ m' => Book.IsNative m.book → Book.IsNative m'.book

namespace nativeLaw

/-- The law of a run that leaves the book alone. -/
theorem intro {m m' : Machine} {o : Outcome} (h : m'.book = m.book) : nativeLaw m o m' := by
  rw [nativeLaw, h]
  exact id

theorem isSequential : nativeLaw.Sequential where
  failed _ := intro rfl
  exhausted _ := intro rfl
  speech _ _ _ hbook := intro hbook
  trans h₁ h₂ hm := h₂ (h₁ hm)

theorem isLocal : nativeLaw.Local where
  toSequential := isSequential
  write _ _ _ := intro rfl
  dispel _ _ := intro rfl
  modify _ hm _ _ := hm
  turn _ hm := hm

end nativeLaw

section
variable {run : Run} (hrun : ∀ t, t.isNative = true → (run t).Keeps nativeLaw) {parts : List Tree}
  (hparts : Tree.areNative parts = true)
include hrun hparts

/-- What is listed after the name of an incantation consists of native trees. -/
theorem listed_keeps_nativeLaw :
    ∀ t ∈ (optionalPart parts 2).listed, (run t).Keeps nativeLaw := by
  intro t ht
  refine hrun t (Tree.isNative_of_listed ?_ ht)
  cases hlist : parts[2]? with
  | none =>
    rw [optionalPart, hlist]
    rfl
  | some list =>
    rw [optionalPart, hlist]
    exact Tree.areNative_iff.mp hparts list (List.mem_of_getElem? hlist)

/-- A declaration adds a native body to the book. -/
theorem incantationMeaning_keeps_nativeLaw : (incantationMeaning run parts).Keeps nativeLaw := by
  have hbody : (parts.getLast?.getD .absent).isNative = true := by
    cases hlast : parts.getLast? with
    | none => rfl
    | some body => exact Tree.areNative_iff.mp hparts body (List.mem_of_getLast? hlast)
  refine incantationMeaning_keeps nativeLaw.isSequential
    (fun t ht => hrun t (Tree.areNative_iff.mp hparts t (List.mem_of_getElem? ht)))
    (listed_keeps_nativeLaw hrun hparts) fun m name parameters _ hm other i hi => ?_
  rw [Table.find?_put] at hi
  split at hi
  · cases hi
    exact hbody
  · exact hm other i hi

/-- A cast runs a body from the book. -/
theorem castMeaning_keeps_nativeLaw : (castMeaning run parts).Keeps nativeLaw := by
  refine castMeaning_keeps nativeLaw.isSequential
    (fun t ht => hrun t (Tree.areNative_iff.mp hparts t (List.mem_of_getElem? ht)))
    (listed_keeps_nativeLaw hrun hparts) fun m₀ name i hi ds m hm hcount => ?_
  refine callWith_ends hcount hm fun _ => castBody_ends fun hnative => ?_
  exact hrun i.body (hnative name i hi) (m.mapScope (·.enterWith i ds)) (hm hnative)

theorem Form.meaning_keeps_nativeLaw (f : Form) (fuel : Nat) :
    (f.meaning fuel run parts).Keeps nativeLaw := by
  have hpart : ∀ t ∈ parts, (run t).Keeps nativeLaw :=
    fun t ht => hrun t (Tree.areNative_iff.mp hparts t ht)
  have hpart? : ∀ (i : Nat) t, parts[i]? = some t → (run t).Keeps nativeLaw :=
    fun _ t ht => hpart t (List.mem_of_getElem? ht)
  rcases f.tame_or with htame | ⟨n, hn⟩ | rfl | rfl | rfl | rfl
  · exact htame.meaning_keeps nativeLaw.isLocal.runic hpart fuel
  · exact nativeLaw.isLocal.cycle_keeps fuel hn (fun i _ => hpart? i)
      (fun t ht => goesOn_keeps id (hpart? n t ht))
  · exact nativeLaw.isLocal.dispelMeaning_keeps hpart
  · exact incantationMeaning_keeps_nativeLaw hrun hparts
  · exact proclaimMeaning_keeps nativeLaw.isSequential (hpart? 1) fun _ => .intro rfl
  · exact castMeaning_keeps_nativeLaw hrun hparts

end

/-- **A native tree only declares native bodies.** -/
theorem Tree.meaning_keeps_nativeLaw {t : Tree} (ht : t.isNative = true) (fuel : Nat) :
    (t.meaning fuel).Keeps nativeLaw := by
  refine Tree.meaning_keeps_of_forms (s := ()) (fun _ => nativeLaw) (fun _ t => t.isNative = true)
    (fun _ => nativeLaw.isSequential) (fun _ _ => ?_) (fun fuel ih _ f parts hf => ?_) fuel ht
  · exact ⟨fun _ _ => .intro rfl, fun _ _ => .intro rfl⟩
  · exact Form.meaning_keeps_nativeLaw (fun t ht => ih (s := ()) ht) hf f fuel

/-! ## Runs of native trees -/

/-- Machines whose books are not native, left behind by a fault. -/
def Exits.strayed : Exits where
  proclaimed _ _ := False
  failed _ m := ¬Book.IsNative m.book
  exhausted _ := False

/-- A cast does not touch the book that its body left. -/
theorem Exits.strayed_throughCasts : strayed.ThroughCasts := by
  intro body depth m h
  rw [castBody_apply]
  rcases hbody : body m with ⟨e, m'⟩
  rw [hbody] at h
  cases e with
  | failed f => exact h
  | done | proclaimed | shattered | persisted | exhausted => exact h.elim

/-- A machine whose book is not native. -/
def strayMachine : Machine where
  book := [("", ⟨[], .token (.other "") ""⟩)]

theorem not_isNative_strayMachine : ¬Book.IsNative strayMachine.book :=
  fun h => absurd (h "" ⟨[], .token (.other "") ""⟩ rfl) (by decide)

open Classical in
/-- Runs native trees with native books only; anything else leaves a stray machine behind. -/
noncomputable def guardedRun (run : Run) : Run := fun t m =>
  if t.isNative = true ∧ Book.IsNative m.book then run t m else (.failed (.amiss ""), strayMachine)

theorem guardedRun_keeps {run : Run} (hrun : ∀ t, t.isNative = true → (run t).Keeps nativeLaw)
    (t : Tree) (ht : t.isNative = true) : (guardedRun run t).Keeps nativeLaw := by
  intro m hm
  rw [guardedRun, if_pos ⟨ht, hm⟩]
  exact hrun t ht m hm

/-- A run that agrees with another on native trees and books agrees with it wherever it is
guarded. -/
theorem agrees_guardedRun {run run' : Run}
    (h : ∀ t m, t.isNative = true → Book.IsNative m.book → run' t m = run t m) (t : Tree) :
    (run' t).AgreesUnless .strayed (guardedRun run t) := by
  intro m hm
  rw [guardedRun] at hm ⊢
  split at hm
  · next hnative =>
    rw [if_pos hnative]
    exact h t m hnative.1 hnative.2
  · exact absurd not_isNative_strayMachine hm

/-- A form with native parts does the same with two runs that agree on native trees and books. -/
theorem Form.meaning_eq_of_native {run run' : Run}
    (hrun : ∀ t, t.isNative = true → (run t).Keeps nativeLaw)
    (h : ∀ t m, t.isNative = true → Book.IsNative m.book → run' t m = run t m) (f : Form)
    (fuel : Nat) {parts : List Tree} (hparts : Tree.areNative parts = true) {m : Machine}
    (hm : Book.IsNative m.book) : f.meaning fuel run' parts m = f.meaning fuel run parts m := by
  have hkept := Form.meaning_keeps_nativeLaw (guardedRun_keeps hrun) hparts f fuel m hm
  have hstays : ¬Exits.strayed.Holds (f.meaning fuel (guardedRun run) parts m) := by
    rcases hend : f.meaning fuel (guardedRun run) parts m with ⟨e, m'⟩
    rw [hend] at hkept
    cases e with
    | failed f => exact not_not_intro hkept
    | done | proclaimed | shattered | persisted | exhausted => exact id
  have hagrees {run' : Run} (h : ∀ t m, t.isNative = true → Book.IsNative m.book →
      run' t m = run t m) : f.meaning fuel run' parts m = f.meaning fuel (guardedRun run) parts m :=
    Form.meaning_agrees (agrees_guardedRun h) (.inl rfl) (fun _ => Exits.strayed_throughCasts)
      parts m hstays
  rw [hagrees h, hagrees fun _ _ _ _ => rfl]

/-- **A native tree never comes to a name outside the language**: whatever these do, its run is the
same. -/
theorem Tree.meaningWith_of_native (foreign : Foreign) (fuel : Nat) {t : Tree}
    (ht : t.isNative = true) {m : Machine} (hm : Book.IsNative m.book) :
    t.meaningWith foreign fuel m = t.meaning fuel m := by
  induction fuel generalizing t m with
  | zero => rfl
  | succ fuel ih =>
    cases t with
    | absent => rfl
    | token mark s =>
      cases mark with
      | terminal t => rfl
      | other name =>
        obtain ⟨f, hf⟩ := Option.isSome_iff_exists.mp ht
        rw [Tree.meaning, Tree.meaningWith, Tree.meaningWith, hf]
    | node label parts =>
      cases label with
      | form f =>
        exact Form.meaning_eq_of_native (fun t ht => Tree.meaning_keeps_nativeLaw ht fuel)
          (fun t m ht hm => ih ht hm) f fuel ht hm
      | other name =>
        obtain ⟨t, hname⟩ := Option.isSome_iff_exists.mp (Bool.and_eq_true_iff.mp ht).1
        rw [Tree.meaning, Tree.meaningWith, Tree.meaningWith, hname]

end Spellbook
