import Mathlib.Logic.Equiv.Basic
import Spellbook.Proofs.GivenText
import Spellbook.Proofs.Integrity

/-!
# Renaming

The names of runes, incantations and parameters mean nothing by themselves. If they are renamed
throughout a program and the machine that runs it, in a way that keeps different names apart and
keywords keywords, the run is the same up to the names (`run_rename`): scopes and tables only ever
compare names.

For this the bodies of the incantations have to fit together, as all do that a program declares. A
body that was built by hand may run a name for its text (`renamed_name_revealed`).
-/

namespace Spellbook

variable {r : String → String}

/-! ## Tables and scopes -/

/-- The table with its names renamed, and `g` applied to what they are bound to. -/
def Table.rename {α β : Type} (r : String → String) (g : α → β) (t : Table α) : Table β :=
  t.map fun p => (r p.1, g p.2)

def Frame.rename (r : String → String) (f : Frame) : Frame := ⟨f.own.rename r id, f.hidden.map r⟩

def Scope.rename (r : String → String) (s : Scope) : Scope := s.map (Frame.rename r)

section
variable (hr : Function.Injective r)
include hr

theorem beq_rename (x y : String) : (r x == r y) = (x == y) := by
  by_cases hxy : x = y
  · rw [hxy, beq_self_eq_true, beq_self_eq_true]
  · rw [beq_eq_false_iff_ne.mpr hxy, beq_eq_false_iff_ne.mpr fun h => hxy (hr h)]

theorem contains_map (xs : List String) (x : String) :
    (xs.map r).contains (r x) = xs.contains x := by
  induction xs with
  | nil => rfl
  | cons y xs ih => rw [List.map_cons, List.contains_cons, List.contains_cons, ih, beq_rename hr]

namespace Table

variable {α β : Type} {g : α → β}

/-- A renamed table finds what the table finds. -/
theorem find?_rename (t : Table α) (x : String) :
    (t.rename r g).find? (r x) = (t.find? x).map g := by
  induction t with
  | nil => rfl
  | cons p t ih =>
    obtain ⟨y, a⟩ := p
    show Table.find? ((r y, g a) :: Table.rename r g t) (r x) = _
    rw [find?_cons, find?_cons, ih]
    by_cases hx : x = y
    · rw [if_pos (congrArg r hx), if_pos hx]
      rfl
    · rw [if_neg (fun h => hx (hr h)), if_neg hx]

/-- An entry is put before or after the renaming. -/
theorem put_rename (t : Table α) (x : String) (a : α) :
    Table.put (r x) (g a) (t.rename r g) = (Table.put x a t).rename r g := by
  induction t with
  | nil => rfl
  | cons p t ih =>
    obtain ⟨y, b⟩ := p
    show Table.put (r x) (g a) ((r y, g b) :: Table.rename r g t) = _
    rw [Table.put, Table.put, ih]
    by_cases hx : y = x
    · rw [if_pos (congrArg r hx), if_pos hx]
      rfl
    · rw [if_neg (fun h => hx (hr h)), if_neg hx]
      rfl

theorem remove_rename (t : Table α) (x : String) :
    (t.rename r g).remove (r x) = (t.remove x).rename r g := by
  rw [Table.remove, Table.remove, Table.rename, Table.rename, List.filter_map]
  congr 1
  refine List.filter_congr fun p _ => ?_
  exact congrArg not (beq_rename hr p.1 x)

end Table

section
variable (f : Frame) (x : String)

theorem Frame.own_rename_find? : (f.rename r).own.find? (r x) = f.own.find? x := by
  rw [Frame.rename, Table.find?_rename hr, Option.map_id, id]

theorem Frame.own_rename_put (e : Entry) :
    Table.put (r x) e (f.rename r).own = (Table.put x e f.own).rename r id :=
  Table.put_rename (g := id) hr f.own x e

theorem Frame.hidden_rename_contains : (f.rename r).hidden.contains (r x) = f.hidden.contains x :=
  contains_map hr f.hidden x

end

namespace Scope

/-- A renamed scope finds what the scope finds. -/
theorem find?_rename (s : Scope) (x : String) : (s.rename r).find? (r x) = s.find? x := by
  induction s with
  | nil => rfl
  | cons f fs ih =>
    show Scope.find? (f.rename r :: Scope.rename r fs) (r x) = _
    rw [Scope.find?, Scope.find?, ih, Frame.own_rename_find? hr, Frame.hidden_rename_contains hr]

/-- A rune is written before or after the renaming. -/
theorem write_rename (s : Scope) (x : String) (e : Entry) :
    (s.rename r).write (r x) e = (s.write x e).rename r := by
  cases s with
  | nil => rfl
  | cons f fs =>
    show { f.rename r with own := Table.put (r x) e (f.rename r).own } :: Scope.rename r fs = _
    rw [Frame.own_rename_put hr]
    rfl

/-- A rune is changed before or after the renaming. -/
theorem modify_rename (g : Entry → Entry) (s : Scope) (x : String) :
    (s.rename r).modify g (r x) = (s.modify g x).rename r := by
  induction s with
  | nil => rfl
  | cons f fs ih =>
    show Scope.modify g (f.rename r :: Scope.rename r fs) (r x) = _
    rw [Scope.modify, Scope.modify, Frame.own_rename_find? hr, Frame.hidden_rename_contains hr, ih]
    cases f.own.find? x with
    | some e =>
      simp only [Frame.own_rename_put hr]
      rfl
    | none =>
      cases f.hidden.contains x with
      | true => rfl
      | false => rfl

/-- A rune is dispelled before or after the renaming. -/
theorem dispel_rename (s : Scope) (x : String) :
    (s.rename r).dispel (r x) = (s.dispel x).rename r := by
  cases s with
  | nil => rfl
  | cons f fs =>
    have hwritten : Scope.isWritten (Scope.rename r fs) (r x) = Scope.isWritten fs x := by
      rw [Scope.isWritten, Scope.isWritten, find?_rename hr]
    have hremove : (f.rename r).own.remove (r x) = (f.own.remove x).rename r id :=
      Table.remove_rename hr f.own x
    show Scope.dispel (f.rename r :: Scope.rename r fs) (r x) = _
    rw [Scope.dispel, Scope.dispel, hwritten, Frame.hidden_rename_contains hr, hremove]
    by_cases hc : (Scope.isWritten fs x && !f.hidden.contains x) = true
    · rw [if_pos hc, if_pos hc]
      rfl
    · rw [if_neg hc, if_neg hc]
      rfl

end Scope

end

/-! ## Machines -/

/-- The incantations with their names and the names in them renamed. -/
def Book.rename (r : String → String) (b : Table Incantation) : Table Incantation :=
  b.rename r (Incantation.rename r)

/-- The machine with the names of its runes, incantations and parameters renamed, and those in the
bodies. -/
def Machine.rename (r : String → String) (m : Machine) : Machine :=
  { m with scope := m.scope.rename r, book := Book.rename r m.book }

def Likeness.toRenamed (r : String → String) (hr : Function.Injective r)
    (hk : ∀ x, isKeyword (r x) = isKeyword x) : Likeness where
  style := .lax
  rename := r
  scopes s s' := s' = s.rename r
  depths := Eq
  books b b' := b' = Book.rename r b ∧ Book.Fits .lax b
  keyword _ := hk _
  find := by
    rintro s _ x rfl -
    exact (Scope.find?_rename hr s x).symm
  write := by
    rintro s _ x e rfl - -
    exact Scope.write_rename hr s x e
  modify := by
    rintro s _ x g rfl - -
    exact Scope.modify_rename hr g s x
  dispel := by
    rintro s _ x rfl -
    exact Scope.dispel_rename hr s x
  enter := by
    rintro s _ rfl
    rfl
  length := by
    rintro s _ rfl
    exact (List.length_map (Frame.rename r)).symm
  leaveTo := by
    rintro s _ n _ rfl rfl
    rw [Scope.leaveTo, Scope.leaveTo, Scope.rename, Scope.rename, List.length_map, List.map_drop]
  lookup := by
    rintro b _ x ⟨rfl, -⟩ -
    exact Table.find?_rename hr b x
  fitting := by
    rintro b _ x i ⟨rfl, hb⟩ hi
    exact ⟨fun _ _ => rfl, hb x i hi⟩
  put := by
    rintro b _ x i ⟨rfl, hb⟩ - - hi
    exact ⟨Table.put_rename hr b x i, hb.put hi⟩

/-- The two runs came to the same, but for the wording of a fault. -/
inductive Ending.SameClass {α : Type} : Ending α → Ending α → Prop
  | same (e : Ending α) : SameClass e e
  | failed {f f' : Fault} (h : f'.title = f.title) : SameClass (.failed f) (.failed f')

section
variable {hr : Function.Injective r} {hk : ∀ x, isKeyword (r x) = isKeyword x}

/-- In the likeness of a renaming each machine corresponds to its renaming, if its book fits. -/
theorem Likeness.toRenamed_machines {m m' : Machine} :
    (toRenamed r hr hk).Machines m m' ↔ m' = m.rename r ∧ Book.Fits .lax m.book := by
  constructor
  · rintro ⟨hscope, ⟨hbook, hb⟩, houtput, hinput, hdraws⟩
    cases m
    cases m'
    cases hscope; cases hbook; cases houtput; cases hinput; cases hdraws
    exact ⟨rfl, hb⟩
  · rintro ⟨rfl, hb⟩
    exact ⟨rfl, ⟨rfl, hb⟩, rfl, rfl, rfl⟩

/-- Endings that correspond under a renaming are of the same class. -/
theorem Likeness.sameClass_of_toRenamed {e e' : Ending Datum}
    (h : (toRenamed r hr hk).Endings Same e e') :
    e.SameClass e' := by
  cases h with
  | done h =>
    rw [h.1]
    exact .same _
  | failed h =>
    rcases h.1 with rfl | rfl
    · exact .same _
    · exact .failed (Fault.title_rename r _)
  | proclaimed _ | shattered | persisted | exhausted => exact .same _

end

/-- **The names of runes and incantations mean nothing by themselves.** A program that is read, with
its names renamed, does the same from the renamed machine as the program does from the machine, and
leaves the renamed machine behind: it reveals the same, listens and draws as much, and comes to the
same ending or to a fault of the same class. All that is asked of the machine is that the bodies of
its incantations fit together. -/
theorem run_rename (hr : Function.Injective r) (hk : ∀ x, isKeyword (r x) = isKeyword x)
    {source : String} {t : Tree} (hread : Tree.read source = .ok t) {m : Machine}
    (hm : Book.Fits .lax m.book) (fuel : Nat) :
    (t.meaning fuel m).1.SameClass ((t.rename r).meaning fuel (m.rename r)).1 ∧
      ((t.rename r).meaning fuel (m.rename r)).2 = (t.meaning fuel m).2.rename r := by
  have hplain : (t.role (Likeness.toRenamed r hr hk).style).isPlain = true :=
    congrArg Role.isPlain (Tree.role_of_read hread)
  obtain ⟨hending, hmachine⟩ :=
    (Likeness.meaning_alike (.toRenamed r hr hk) fuel).plain hplain m (m.rename r)
    (Likeness.toRenamed_machines.mpr ⟨rfl, hm⟩)
  exact ⟨Likeness.sameClass_of_toRenamed hending, (Likeness.toRenamed_machines.mp hmachine).1⟩

/-- Swapping two names that are no keywords leaves the keywords alone. -/
theorem isKeyword_swap {a b : String} (ha : isKeyword a = false) (hb : isKeyword b = false)
    (x : String) :
    isKeyword (Equiv.swap a b x) = isKeyword x := by
  by_cases hxa : x = a
  · rw [hxa, Equiv.swap_apply_left, ha, hb]
  · by_cases hxb : x = b
    · rw [hxb, Equiv.swap_apply_right, ha, hb]
    · rw [Equiv.swap_apply_of_ne_of_ne hxa hxb]

theorem run_rename_dormant :
    Tree.read "rune a;" = .ok (dormantProgram "a") ∧
      (dormantProgram "a").rename (Equiv.swap "a" "b") = dormantProgram "b" ∧
      ((dormantProgram "b").meaning endurance (.fresh "" [])).2 =
        ((dormantProgram "a").meaning endurance (.fresh "" [])).2.rename (Equiv.swap "a" "b") := by
  have hreads : Reader.Reads [] (dormantCut "a") (dormantProgram "a") :=
    reads_dormantCut (by decide)
  have hread : Tree.read "rune a;" = .ok (dormantProgram "a") := Reader.read_of_reads hreads
  have hprogram : (dormantProgram "a").rename (Equiv.swap "a" "b") = dormantProgram "b" := rfl
  refine ⟨hread, hprogram, ?_⟩
  rw [← hprogram]
  exact (run_rename (Equiv.swap "a" "b").injective (isKeyword_swap (by decide) (by decide)) hread
    (Machine.inOrder_fresh .lax "" []).book endurance).2

/-- A machine whose only incantation, built by hand, reveals the text of a name. -/
def nameRevealer (f x : String) : Machine :=
  { Machine.fresh "" [] with
    book := [(f, ⟨[], .form .block [.form .reveal [.leaf .reveal "reveal", .named x]]⟩)] }

-- No program has such a body: where a rune is used, the reader makes the node of a rune around its
-- name.
theorem renamed_name_revealed :
    (∀ x, isKeyword (Equiv.swap "x" "y" x) = isKeyword x) ∧
    Tree.read "cast f ~::~;" = .ok (castProgram "f") ∧
      (castProgram "f").rename (Equiv.swap "x" "y") = castProgram "f" ∧
      (nameRevealer "f" "x").rename (Equiv.swap "x" "y") = nameRevealer "f" "y" ∧
      ((castProgram "f").meaning endurance (nameRevealer "f" "x")).2.output = "x" ∧
      ((castProgram "f").meaning endurance (nameRevealer "f" "y")).2.output = "y" := by
  obtain ⟨n, hn⟩ : ∃ n, endurance = n + 8 := ⟨1152921504606846968, rfl⟩
  refine ⟨isKeyword_swap (by decide) (by decide), read_castProgram, rfl, rfl, ?_, ?_⟩
  · rw [hn]
    rfl
  · rw [hn]
    rfl

end Spellbook
