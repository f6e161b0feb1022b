import Spellbook.Proofs.Law
import Spellbook.Proofs.Misshapen
import Spellbook.Proofs.Roles

/-!
# Likeness of two runs

Two runs are compared step by step. A `Likeness` says how the runes and the incantations of the two
machines belong together, and how the names of the one are renamed in the other; all it has to
provide is that the operations on runes and incantations respect it. `Likeness.Spells` then says
that two spells do alike from machines that are alike, and there is a rule for each way to put
spells together.

A run may also be compared to itself: what a likeness asks of the machines is then an invariant of
the run.
-/

namespace Spellbook

/-! ## Renaming -/

mutual

def Tree.rename (r : String → String) : Tree → Tree
  | .node l ts => .node l (Tree.renameAll r ts)
  | .token m text => .token m (if m = .terminal .name then r text else text)
  | .absent => .absent

def Tree.renameAll (r : String → String) : List Tree → List Tree
  | [] => []
  | t :: ts => t.rename r :: Tree.renameAll r ts

end

theorem Tree.renameAll_eq_map (r : String → String) (ts : List Tree) :
    Tree.renameAll r ts = ts.map (Tree.rename r) := by
  induction ts with
  | nil => rfl
  | cons t ts ih => rw [Tree.renameAll, ih, List.map_cons]

mutual

/-- The identity renames no tree. -/
theorem Tree.rename_id (t : Tree) : t.rename id = t := by
  cases t with
  | node l ts => rw [Tree.rename, Tree.renameAll_id]
  | token m text => rw [Tree.rename, id, ite_self]
  | absent => rfl

theorem Tree.renameAll_id (ts : List Tree) : Tree.renameAll id ts = ts := by
  cases ts with
  | nil => rfl
  | cons t ts => rw [Tree.renameAll, Tree.rename_id, Tree.renameAll_id]

end

def Incantation.rename (r : String → String) (i : Incantation) : Incantation :=
  ⟨i.parameters.map r, i.body.rename r⟩

theorem Incantation.rename_id (i : Incantation) : i.rename id = i := by
  rw [Incantation.rename, List.map_id, Tree.rename_id]

theorem Book.find?_rename_id (b : Table Incantation) (x : String) :
    b.find? (id x) = (b.find? x).map (Incantation.rename id) := by
  rw [id, funext Incantation.rename_id, Option.map_id']

def Fault.rename (r : String → String) : Fault → Fault
  | alreadyWritten name => alreadyWritten (r name)
  | alreadyDeclared name => alreadyDeclared (r name)
  | notWritten name => notWritten (r name)
  | dormant name => dormant (r name)
  | noPast name => noPast (r name)
  | sealedRune name => sealedRune (r name)
  | fundamental name => fundamental (r name)
  | unknownIncantation name => unknownIncantation (r name)
  | wrongCount name expected got => wrongCount (r name) expected got
  | noSuchKey name => noSuchKey (r name)
  | f => f

/-- Renaming does not change the name under which a fault is reported. -/
theorem Fault.title_rename (r : String → String) (f : Fault) : (f.rename r).title = f.title := by
  cases f <;> rfl

theorem Fault.rename_id (f : Fault) : f.rename id = f := by
  cases f <;> rfl

/-! ## Likenesses -/

/-- A dormant rune has neither a kind nor a past. -/
def Entry.Sound (e : Entry) : Prop := e.value = none → e.kind = none ∧ e.past = none

/-- How two machines belong together, when names are renamed and trees are of a style. -/
structure Likeness where
  style : Style
  rename : String → String
  /-- how the runes of the two belong together -/
  scopes : Scope → Scope → Prop
  /-- how the numbers of frames belong together that a cast leaves behind -/
  depths : Nat → Nat → Prop
  /-- how the incantations of the two belong together -/
  books : Table Incantation → Table Incantation → Prop
  keyword : ∀ {x}, style.allows x = true → isKeyword (rename x) = isKeyword x
  find : ∀ {s s' x}, scopes s s' → style.allows x = true → s.find? x = s'.find? (rename x)
  write : ∀ {s s' x e}, scopes s s' → style.allows x = true → e.Sound →
    scopes (s.write x e) (s'.write (rename x) e)
  modify : ∀ {s s' x g}, scopes s s' → style.allows x = true →
    (∀ e : Entry, e.Sound → (g e).Sound) → scopes (s.modify g x) (s'.modify g (rename x))
  dispel : ∀ {s s' x}, scopes s s' → style.allows x = true →
    scopes (s.dispel x) (s'.dispel (rename x))
  enter : ∀ {s s'}, scopes s s' → scopes s.enter s'.enter
  length : ∀ {s s'}, scopes s s' → depths s.length s'.length
  leaveTo : ∀ {s s' n n'}, scopes s s' → depths n n' → scopes (s.leaveTo n) (s'.leaveTo n')
  lookup : ∀ {b b' x}, books b b' → style.allows x = true →
    b'.find? (rename x) = (b.find? x).map (Incantation.rename rename)
  fitting : ∀ {b b' x i}, books b b' → b.find? x = some i →
    (∀ p ∈ i.parameters, style.allows p = true) ∧ i.body.role style = .deed
  put : ∀ {b b' x} {i : Incantation}, books b b' → style.allows x = true →
    (∀ p ∈ i.parameters, style.allows p = true) → i.body.role style = .deed →
    books (b.put x i) (b'.put (rename x) (i.rename rename))

namespace Likeness

variable (L : Likeness)

/-- The machines are alike. -/
structure Machines (m m' : Machine) : Prop where
  scope : L.scopes m.scope m'.scope
  book : L.books m.book m'.book
  output : m.output = m'.output
  input : m.input = m'.input
  draws : m.draws = m'.draws

/-- The faults are alike; in a strict style, shape is not to blame. -/
def Faults (f f' : Fault) : Prop :=
  (f' = f ∨ f' = f.rename L.rename) ∧ (L.style.strict = true → f.isMisshapen = false)

/-- The endings are alike, and their results are related by `D`. -/
inductive Endings {α β : Type} (D : α → β → Prop) : Ending α → Ending β → Prop
  | done {a : α} {b : β} (h : D a b) : Endings D (.done a) (.done b)
  | proclaimed {d : Datum} (h : d.isOrdinary = true) : Endings D (.proclaimed d) (.proclaimed d)
  | shattered : Endings D .shattered .shattered
  | persisted : Endings D .persisted .persisted
  | failed {f f' : Fault} (h : L.Faults f f') : Endings D (.failed f) (.failed f')
  | exhausted : Endings D .exhausted .exhausted

/-- From machines that are alike the spells come to endings that are alike, with machines that
are. -/
def Spells {α β : Type} (D : α → β → Prop) (x : Spell α) (y : Spell β) : Prop :=
  ∀ m m', L.Machines m m' → L.Endings D (x m).1 (y m').1 ∧ L.Machines (x m).2 (y m').2

variable {L} {α β γ δ : Type} {D : α → β → Prop} {E : γ → δ → Prop}

/-- A fault that is not misshapen corresponds to itself. -/
theorem Faults.refl {f : Fault} (h : f.isMisshapen = false) : L.Faults f f := ⟨.inl rfl, fun _ => h⟩

/-- A fault that is not misshapen corresponds to its renaming. -/
theorem Faults.renamed {f : Fault} (h : f.isMisshapen = false) : L.Faults f (f.rename L.rename) :=
  ⟨.inr rfl, fun _ => h⟩

/-- Endings correspond for a weaker relation of their data. -/
theorem Endings.mono {D' : α → β → Prop} {e : Ending α} {e' : Ending β} (h : L.Endings D e e')
    (hD : ∀ a b, D a b → D' a b) : L.Endings D' e e' := by
  cases h with
  | done h => exact .done (hD _ _ h)
  | proclaimed h => exact .proclaimed h
  | shattered => exact .shattered
  | persisted => exact .persisted
  | failed h => exact .failed h
  | exhausted => exact .exhausted

/-- If nothing is renamed, endings that are alike are the same. -/
theorem Endings.eq {D : α → α → Prop} {e e' : Ending α} (h : L.Endings D e e') (hL : L.rename = id)
    (hD : ∀ a b, D a b → a = b) : e = e' := by
  cases h with
  | done h => rw [hD _ _ h]
  | failed h =>
    rcases h.1 with rfl | rfl
    · rfl
    · rw [hL, Fault.rename_id]
  | proclaimed _ | shattered | persisted | exhausted => rfl

/-- In a strict style no failure is misshapen. -/
theorem Endings.sane {f : Fault} {e : Ending β} (h : L.Endings D (.failed f) e)
    (hstrict : L.style.strict = true) : f.isMisshapen = false := by
  cases h with
  | failed h => exact h.2 hstrict

/-! ## Rules -/

namespace Spells

/-- Spells correspond for a weaker relation of their data. -/
theorem mono {D' : α → β → Prop} {x : Spell α} {y : Spell β} (h : L.Spells D x y)
    (hD : ∀ a b, D a b → D' a b) : L.Spells D' x y :=
  fun m m' hm => ⟨(h m m' hm).1.mono hD, (h m m' hm).2⟩

/-- If the one spell comes to a result, so does the other. -/
theorem exists_done {x : Spell α} {y : Spell β} (h : L.Spells D x y) {m m' m₁ : Machine} {a : α}
    (hm : L.Machines m m') (hx : x m = (.done a, m₁)) :
    ∃ b m₁', y m' = (.done b, m₁') ∧ D a b ∧ L.Machines m₁ m₁' := by
  obtain ⟨hending, hmachine⟩ := h m m' hm
  rw [hx] at hending hmachine
  rcases hy : y m' with ⟨e, m₁'⟩
  rw [hy] at hending hmachine
  cases hending with
  | done hab => exact ⟨_, m₁', rfl, hab, hmachine⟩

/-- Two endings that correspond make spells that do. -/
theorem finish {e : Ending α} {e' : Ending β} (h : L.Endings D e e') :
    L.Spells D (Spell.finish e) (Spell.finish e') :=
  fun _ _ hm => ⟨h, hm⟩

theorem pure {a : α} {b : β} (h : D a b) : L.Spells D (Pure.pure a) (Pure.pure b) :=
  finish (.done h)

theorem fail {f f' : Fault} (h : L.Faults f f') : L.Spells D (Spell.fail f) (Spell.fail f') :=
  finish (.failed h)

/-- Spells that correspond and go on with spells that correspond correspond. -/
theorem bind {x : Spell α} {y : Spell β} {f : α → Spell γ} {g : β → Spell δ} (hx : L.Spells D x y)
    (hf : ∀ a b, D a b → L.Spells E (f a) (g b)) : L.Spells E (x >>= f) (y >>= g) := by
  intro m m' hm
  obtain ⟨he, hm⟩ := hx m m' hm
  rw [Spell.bind_apply, Spell.bind_apply, Spell.bind, Spell.bind]
  generalize x m = r at he hm
  generalize y m' = r' at he hm
  obtain ⟨e, m₁⟩ := r
  obtain ⟨e', m₁'⟩ := r'
  cases he with
  | done h => exact hf _ _ h m₁ m₁' hm
  | proclaimed h => exact ⟨.proclaimed h, hm⟩
  | shattered => exact ⟨.shattered, hm⟩
  | persisted => exact ⟨.persisted, hm⟩
  | failed h => exact ⟨.failed h, hm⟩
  | exhausted => exact ⟨.exhausted, hm⟩

/-- What may fail without touching the machine, the same on both sides. -/
theorem lift_bind {ε : Type} {P : ε → Prop} {x : Fallible ε} {f : ε → Spell γ} {g : ε → Spell δ}
    (hx : x.Fine P) (hf : ∀ a, x = .ok a → L.Spells E (f a) (g a)) :
    L.Spells E ((liftM x : Spell ε) >>= f) ((liftM x : Spell ε) >>= g) := by
  cases hx with
  | ok h => exact hf _ rfl
  | error h => exact finish (.failed (.refl h))

/-- A computation corresponds to itself if it is fine for the relation. -/
theorem lift {x : Fallible α} {D : α → α → Prop} (hx : x.Fine fun a => D a a) :
    L.Spells D (liftM x : Spell α) (liftM x : Spell α) := by
  cases hx with
  | ok h => exact pure h
  | error h => exact finish (.failed (.refl h))

/-- A check that fails with faults that correspond leaves the case where it passes. -/
theorem check {c : Prop} [Decidable c] {e e' : Fault} {k : α → Spell γ}
    {l : β → Spell δ} {x : Spell γ} {y : Spell δ} (he : L.Faults e e') (hx : L.Spells E x y) :
    L.Spells E (if c then (Spell.fail e : Spell α) >>= k else x)
      (if c then (Spell.fail e' : Spell β) >>= l else y) := by
  split
  · exact finish (.failed he)
  · exact hx

/-- Looks at machines that correspond correspond. -/
theorem look {g : Machine → α} {g' : Machine → β} (h : ∀ m m', L.Machines m m' → D (g m) (g' m')) :
    L.Spells D (Spell.look g) (Spell.look g') :=
  fun m m' hm => ⟨.done (h m m' hm), hm⟩

/-- Changes that keep machines in correspondence correspond. -/
theorem change {g g' : Machine → Machine} (h : ∀ m m', L.Machines m m' → L.Machines (g m) (g' m')) :
    L.Spells (fun _ _ => True) (Spell.change g) (Spell.change g') :=
  fun m m' hm => ⟨.done trivial, h m m' hm⟩

/-- Attempts of spells that correspond have endings that do. -/
theorem attempt {x : Spell α} {y : Spell β} (h : L.Spells D x y) :
    L.Spells (L.Endings D) (Spell.attempt x) (Spell.attempt y) :=
  fun m m' hm => ⟨.done (h m m' hm).1, (h m m' hm).2⟩

/-! ### Runes -/

section Runes

variable {x : String} (hx : L.style.allows x = true)
include hx

/-- A rune is found where its renaming is, with the same entry. -/
theorem find? : L.Spells Eq (Spell.find? x) (Spell.find? (L.rename x)) :=
  look fun _ _ hm => L.find hm.scope hx

theorem written : L.Spells Eq (Spell.written x) (Spell.written (L.rename x)) := by
  refine bind (find? hx) ?_
  rintro found _ rfl
  cases found with
  | none => exact fail (.renamed rfl)
  | some e => exact pure rfl

theorem known : L.Spells Eq (Spell.known x) (Spell.known (L.rename x)) := by
  refine bind (find? hx) ?_
  rintro found _ rfl
  cases found with
  | none => exact fail (.renamed rfl)
  | some e => exact pure rfl

/-- A rune may be changed where its renaming may. -/
theorem changeable : L.Spells Eq (Spell.changeable x) (Spell.changeable (L.rename x)) := by
  refine bind (written hx) ?_
  rintro e _ rfl
  split
  · exact fail (.renamed rfl)
  · exact pure rfl

/-- An entry that is sound is written under the name and under its renaming. -/
theorem write {e : Entry} (he : e.Sound) :
    L.Spells (fun _ _ => True) (Spell.write x e) (Spell.write (L.rename x) e) :=
  change fun _ _ hm => { hm with scope := L.write hm.scope hx he }

/-- A sound change of the entry is made under the name and under its renaming. -/
theorem modify {g : Entry → Entry} (hg : ∀ e, e.Sound → (g e).Sound) :
    L.Spells (fun _ _ => True) (Spell.modify x g) (Spell.modify (L.rename x) g) :=
  change fun _ _ hm => { hm with scope := L.modify hm.scope hx hg }

/-- A name and its renaming are dispelled together. -/
theorem dispel : L.Spells (fun _ _ => True) (Spell.dispel x) (Spell.dispel (L.rename x)) :=
  change fun _ _ hm => { hm with scope := L.dispel hm.scope hx }

end Runes

/-! ### Speech and chance -/

theorem reveal (s : String) : L.Spells (fun _ _ => True) (Spell.reveal s) (Spell.reveal s) :=
  change fun _ _ hm => { hm with output := congrArg (· ++ s) hm.output }

theorem listen : L.Spells Eq Spell.listen Spell.listen := by
  refine bind (look fun _ _ hm => hm.input) ?_
  rintro cs _ rfl
  cases cs with
  | nil => exact fail (.refl rfl)
  | cons c cs =>
    refine bind (change fun _ _ hm => { hm with input := rfl }) fun _ _ _ => ?_
    exact pure rfl

theorem draw : L.Spells Eq Spell.draw Spell.draw := by
  refine bind (look fun _ _ hm => hm.draws) ?_
  rintro ds _ rfl
  cases ds with
  | nil => exact pure rfl
  | cons d ds =>
    refine bind (change fun _ _ hm => { hm with draws := rfl }) fun _ _ _ => ?_
    exact pure rfl

end Spells

end Likeness

end Spellbook
