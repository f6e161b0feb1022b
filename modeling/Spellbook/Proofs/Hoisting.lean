import Spellbook.Proofs.Book
import Spellbook.Proofs.GivenText
import Spellbook.Proofs.Integrity

/-!
# Declarations may stand anywhere

A program declares its incantations before anything else runs, so it does not matter where among its
instructions they stand, nor in which order (`declarations_hoisted`). Two declarations that both
succeed have different names, so they commute (`LoadsOne.swap`), and a reordering is made of such
swaps (`Loads.reorder`). The book is then filled in another order. A run only ever looks names up in
it, so books that bind the same names to the same incantations are alike (`Likeness.toReordered`).
-/

namespace Spellbook

/-! ## Books that say the same -/

/-- The likeness of machines whose books bind the same names to the same incantations, in whatever
order. -/
def Likeness.toReordered : Likeness where
  style := .lax
  rename := id
  scopes := Eq
  depths := Eq
  books b b' := (∀ x, b.find? x = b'.find? x) ∧ Book.Fits .lax b
  keyword _ := rfl
  find := by
    rintro s _ x rfl -
    rfl
  write := by
    rintro s _ x e rfl - -
    rfl
  modify := by
    rintro s _ x g rfl - -
    rfl
  dispel := by
    rintro s _ x rfl -
    rfl
  enter := by
    rintro s _ rfl
    rfl
  length := by
    rintro s _ rfl
    rfl
  leaveTo := by
    rintro s _ n _ rfl rfl
    rfl
  lookup := by
    rintro b b' x ⟨hb, -⟩ -
    rw [← Book.find?_rename_id b x, id, hb]
  fitting := by
    rintro b b' x i ⟨-, hb⟩ hi
    exact ⟨fun _ _ => rfl, hb x i hi⟩
  put := by
    rintro b b' x i ⟨hb, hfits⟩ - - hi
    rw [Incantation.rename_id]
    exact ⟨fun y => by rw [id, Table.find?_put, Table.find?_put, hb], hfits.put hi⟩

/-- The machines are the same, but for the order in which their books were filled. -/
abbrev Machine.Reordered : Machine → Machine → Prop := Likeness.toReordered.Machines

namespace Machine.Reordered

variable {m m' m'' : Machine}

/-- A machine whose book fits is reordered to itself. -/
theorem of_fits (h : Book.Fits .lax m.book) : m.Reordered m :=
  ⟨rfl, ⟨fun _ => rfl, h⟩, rfl, rfl, rfl⟩

theorem left (h : m.Reordered m') : m.Reordered m := of_fits h.book.2

/-- Machines may be reordered in two steps. -/
theorem trans (h : m.Reordered m') (h' : m'.Reordered m'') : m.Reordered m'' where
  scope := Eq.trans h.scope h'.scope
  book := ⟨fun x => (h.book.1 x).trans (h'.book.1 x), h.book.2⟩
  output := h.output.trans h'.output
  input := h.input.trans h'.input
  draws := h.draws.trans h'.draws

end Machine.Reordered

/-! ## Declarations -/

def Tree.declares : Tree → Bool
  | .node (.form .incantation) _ => true
  | _ => false

/-- The tree declares the incantation `i` by the name `x`. -/
def Tree.Declares (t : Tree) (x : String) (i : Incantation) : Prop :=
  ∃ w list, t = .form .incantation [w, .named x, list, i.body] ∧ list.Lists i.parameters

/-- A word of a name is a name token. -/
theorem Tree.eq_leaf_of_role {σ : Style} {t : Tree} (h : t.role σ = .nameWord) :
    ∃ x, t = .leaf .name x := by
  cases t with
  | absent => cases h
  | node label ts =>
    cases label with
    | other name => cases h
    | form f =>
      rw [Tree.role] at h
      split at h
      · cases f <;> cases h
      · cases h
  | token mark text =>
    cases mark with
    | other name => cases h
    | terminal t =>
      rw [Tree.role, Terminal.role] at h
      split at h
      · cases h
      · rename_i huse
        cases Terminal.eq_name_of_use huse
        exact ⟨text, rfl⟩
      · cases h
      · split at h <;> cases h
      · cases h

/-- What has the role of a name is a name. -/
theorem Tree.eq_named_of_role {σ : Style} {t : Tree} (h : t.role σ = .name) :
    ∃ x, t = .named x := by
  cases t with
  | absent => cases h
  | token mark text =>
    cases mark with
    | other name => cases h
    | terminal t =>
      rw [Tree.role, Terminal.role] at h
      split at h <;> try split at h
      all_goals cases h
  | node label ts =>
    cases label with
    | other name => cases h
    | form f =>
      rw [Tree.role] at h
      split at h
      · rename_i hfits
        obtain rfl : f = .name := by cases f <;> first | rfl | cases h
        obtain ⟨a, rfl, ha⟩ := Seat.one hfits
        obtain ⟨x, rfl⟩ := Tree.eq_leaf_of_role (Seat.eq_of_admits_role ha)
        exact ⟨x, rfl⟩
      · cases h

theorem Tree.exists_map_named {σ : Style} {ts : List Tree} (h : ∀ t ∈ ts, t.role σ = .name) :
    ∃ xs : List String, ts = xs.map .named := by
  induction ts with
  | nil => exact ⟨[], rfl⟩
  | cons t ts ih =>
    obtain ⟨ht, hts⟩ := List.forall_mem_cons.mp h
    obtain ⟨x, rfl⟩ := Tree.eq_named_of_role ht
    obtain ⟨xs, rfl⟩ := ih hts
    exact ⟨x :: xs, rfl⟩

/-- What has the role of names lists some. -/
theorem Tree.lists_of_role {σ : Style} {t : Tree} (h : t.role σ = .names ∨ t = .absent) :
    ∃ xs, t.Lists xs := by
  rcases h with h | rfl
  · obtain ⟨f, ts, rfl, hfits, hf⟩ := Tree.form_of_role (.inr (.inr h))
    rw [h] at hf
    obtain rfl : f = .parameters := by cases f <;> first | rfl | cases hf
    obtain ⟨xs, rfl⟩ := Tree.exists_map_named fun t ht => eq_of_beq (Tree.forall_role.mp hfits t ht)
    exact ⟨xs, .inr rfl⟩
  · exact ⟨[], .inl ⟨rfl, rfl⟩⟩

/-- A declaration that fits gives its names. -/
theorem Tree.exists_declares {t : Tree} (ht : t.role .lax = .deed) (h : t.declares = true) :
    ∃ x i, t.Declares x i ∧ i.body.role .lax = .deed := by
  obtain ⟨f, ts, rfl, hfits, -⟩ := Tree.form_of_role (.inl ht)
  obtain rfl : f = .incantation := by cases f <;> first | rfl | cases h
  obtain ⟨w, name, list, body, rfl, -, hname, hlist, hbody⟩ := Seat.four hfits
  obtain ⟨x, rfl⟩ := Tree.eq_named_of_role (Seat.eq_of_admits_role hname)
  obtain ⟨xs, hxs⟩ := Tree.lists_of_role (Seat.optionalRole_cases hlist)
  exact ⟨x, ⟨xs, body⟩, ⟨w, list, rfl, hxs⟩, Seat.eq_of_admits_role hbody⟩

/-- Without enough fuel a declaration does not come to its names. -/
theorem Tree.Declares.exhausted {t : Tree} {x : String} {i : Incantation}
    (h : t.Declares x i) {fuel : Nat} (hfuel : fuel ≤ 2) (m : Machine) :
    t.meaning fuel m = (.exhausted, m) := by
  obtain ⟨w, list, rfl, -⟩ := h
  match fuel, hfuel with
  | 0, _ | 1, _ | 2, _ => rfl

/-- A declaration succeeds just if its name is not in the book and none of its names is a
keyword. -/
theorem Tree.Declares.meaning_eq_done {t : Tree} {x : String} {i : Incantation}
    (h : t.Declares x i) {fuel : Nat} {m m₁ : Machine} {d : Datum} :
    t.meaning fuel m = (.done d, m₁) ↔
      (2 < fuel ∧ (x :: i.parameters).find? isKeyword = none) ∧ m.book.find? x = none ∧
      d = .nothing ∧
        m₁ = { m with book := m.book.put x i } := by
  by_cases hfuel : 2 < fuel
  · obtain ⟨n, rfl⟩ : ∃ n, fuel = n + 3 := ⟨fuel - 3, by omega⟩
    obtain ⟨w, list, rfl, hlist⟩ := h
    have hmeaning : (Tree.form .incantation [w, .named x, list, i.body]).meaning (n + 3) m = _ :=
      incantationMeaning_named hlist unanswered n m
    rw [hmeaning]
    cases hwords : (x :: i.parameters).find? isKeyword with
    | some y => simp
    | none => 
      cases hx : m.book.find? x with
      | some j => simp
      | none => simp [eq_comm]
  · rw [h.exhausted (by omega)]
    simp [hfuel]

/-! ## Loading -/

/-- The first deed is run if it is of the sort that is picked. -/
theorem runWhere_cons {t : Tree} (ht : t.role .lax = .deed) (declarations : Bool) (run : Run)
    (ts : List Tree) :
    runWhere declarations run (t :: ts) =
      if t.declares = declarations then run t >>= fun _ => runWhere declarations run ts
      else runWhere declarations run ts := by
  obtain ⟨f, ps, rfl, -, -⟩ := Tree.form_of_role (.inl ht)
  cases declarations <;> cases f <;> rfl

/-- The instruction is loaded: it is declared if it is a declaration, and passed over if not. -/
def LoadsOne (fuel : Nat) (t : Tree) (m m₁ : Machine) : Prop :=
  if t.declares then ∃ d, t.meaning fuel m = (.done d, m₁) else m₁ = m

/-- The declarations among the instructions are loaded one after the other. -/
def Loads (fuel : Nat) (ts : List Tree) (m m₁ : Machine) : Prop :=
  runWhere true (Tree.meaning fuel) ts m = (.done .nothing, m₁)

section
variable {fuel : Nat} {t t₁ t₂ : Tree} {m m' m₁ m₂ : Machine}

/-- A declaration is loaded by running it. -/
theorem loadsOne_of_declares (h : t.declares = true) :
    LoadsOne fuel t m m₁ ↔ ∃ d, t.meaning fuel m = (.done d, m₁) := by
  rw [LoadsOne, if_pos h]

theorem loadsOne_of_not_declares (h : t.declares = false) : LoadsOne fuel t m m₁ ↔ m₁ = m := by
  rw [LoadsOne, h, if_neg Bool.false_ne_true]

/-- Deeds are loaded one after the other. -/
theorem loads_cons {ts : List Tree} (ht : t.role .lax = .deed) :
    Loads fuel (t :: ts) m m₂ ↔ ∃ m₁, LoadsOne fuel t m m₁ ∧ Loads fuel ts m₁ m₂ := by
  rw [Loads, runWhere_cons ht]
  cases hd : t.declares with
  | true =>
    rw [if_pos rfl]
    constructor
    · intro h
      obtain ⟨d, m₁, hrun, hrest⟩ := Spell.exists_of_bind_done h
      exact ⟨m₁, (loadsOne_of_declares hd).mpr ⟨d, hrun⟩, hrest⟩
    · rintro ⟨m₁, hone, hrest⟩
      obtain ⟨d, hrun⟩ := (loadsOne_of_declares hd).mp hone
      rw [Spell.bind_of_done hrun]
      exact hrest
  | false =>
    rw [if_neg Bool.false_ne_true]
    constructor
    · exact fun h => ⟨m, (loadsOne_of_not_declares hd).mpr rfl, h⟩
    · rintro ⟨m₁, hone, hrest⟩
      cases (loadsOne_of_not_declares hd).mp hone
      exact hrest

/-- What is loaded is loaded into a machine that is alike. -/
theorem LoadsOne.alike (ht : t.role .lax = .deed) (hm : m.Reordered m') (h : LoadsOne fuel t m m₁) :
    ∃ m₁', LoadsOne fuel t m' m₁' ∧ m₁.Reordered m₁' := by
  cases hd : t.declares with
  | true =>
    obtain ⟨d, hrun⟩ := (loadsOne_of_declares hd).mp h
    have halike := (Likeness.meaning_alike .toReordered fuel).plain (congrArg Role.isPlain ht)
    rw [show Likeness.toReordered.rename = id from rfl, Tree.rename_id] at halike
    obtain ⟨d', m₁', hrun', -, hm₁⟩ := halike.exists_done hm hrun
    exact ⟨m₁', (loadsOne_of_declares hd).mpr ⟨d', hrun'⟩, hm₁⟩
  | false =>
    cases (loadsOne_of_not_declares hd).mp h
    exact ⟨m', (loadsOne_of_not_declares hd).mpr rfl, hm⟩

/-- Deeds are loaded alike by machines that are reordered. -/
theorem Loads.alike {ts : List Tree} (hts : ∀ t ∈ ts, t.role .lax = .deed) (hm : m.Reordered m')
    (h : Loads fuel ts m m₁) : ∃ m₁', Loads fuel ts m' m₁' ∧ m₁.Reordered m₁' := by
  have halike := Likeness.runWhere_alike (Likeness.meaning_alike .toReordered fuel) true hts
  rw [show Likeness.toReordered.rename = id from rfl, Tree.renameAll_id] at halike
  obtain ⟨_, m₁', hrun', ⟨rfl, -⟩, hm₁⟩ := halike.exists_done hm h
  exact ⟨m₁', hrun', hm₁⟩

/-- **Two instructions are also loaded in the other order.** -/
theorem LoadsOne.swap (ht₁ : t₁.role .lax = .deed) (ht₂ : t₂.role .lax = .deed)
    (hm : m.Reordered m') (h₁ : LoadsOne fuel t₁ m m₁) (h₂ : LoadsOne fuel t₂ m₁ m₂) :
    ∃ m₁' m₂', LoadsOne fuel t₂ m' m₁' ∧ LoadsOne fuel t₁ m₁' m₂' ∧ m₂.Reordered m₂' := by
  cases hd₁ : t₁.declares with
  | false =>
    cases (loadsOne_of_not_declares hd₁).mp h₁
    obtain ⟨m₁', h₂', hm'⟩ := h₂.alike ht₂ hm
    exact ⟨m₁', m₁', h₂', (loadsOne_of_not_declares hd₁).mpr rfl, hm'⟩
  | true =>
    cases hd₂ : t₂.declares with
    | false =>
      cases (loadsOne_of_not_declares hd₂).mp h₂
      obtain ⟨m₁', h₁', hm'⟩ := h₁.alike ht₁ hm
      exact ⟨m', m₁', (loadsOne_of_not_declares hd₂).mpr rfl, h₁', hm'⟩
    | true =>
      obtain ⟨x₁, i₁, hdecl₁, hbody₁⟩ := Tree.exists_declares ht₁ hd₁
      obtain ⟨x₂, i₂, hdecl₂, hbody₂⟩ := Tree.exists_declares ht₂ hd₂
      obtain ⟨d₁, hrun₁⟩ := (loadsOne_of_declares hd₁).mp h₁
      obtain ⟨d₂, hrun₂⟩ := (loadsOne_of_declares hd₂).mp h₂
      obtain ⟨hnames₁, hfree₁, rfl, rfl⟩ := hdecl₁.meaning_eq_done.mp hrun₁
      obtain ⟨hnames₂, hfree₂, rfl, rfl⟩ := hdecl₂.meaning_eq_done.mp hrun₂
      -- the second declaration found its name free, so it is another name
      have hne : x₂ ≠ x₁ := by
        rintro rfl
        rw [Table.find?_put_self] at hfree₂
        cases hfree₂
      rw [Table.find?_put_of_ne m.book i₁ hne] at hfree₂
      refine ⟨{ m' with book := m'.book.put x₂ i₂ },
        { m' with book := (m'.book.put x₂ i₂).put x₁ i₁ }, ?_, ?_, ?_⟩
      · exact (loadsOne_of_declares hd₂).mpr
          ⟨.nothing,
            hdecl₂.meaning_eq_done.mpr ⟨hnames₂, (hm.book.1 x₂).symm.trans hfree₂, rfl, rfl⟩⟩
      · have hfree : (m'.book.put x₂ i₂).find? x₁ = none := by
          rw [Table.find?_put_of_ne m'.book i₂ hne.symm, ← hm.book.1, hfree₁]
        exact (loadsOne_of_declares hd₁).mpr
          ⟨.nothing, hdecl₁.meaning_eq_done.mpr ⟨hnames₁, hfree, rfl, rfl⟩⟩
      · refine { hm with book := ⟨fun y => ?_, (hm.book.2.put hbody₁).put hbody₂⟩ }
        simp only [Table.find?_put, hm.book.1 y]
        split
        · rename_i h
          rw [if_neg (h ▸ hne)]
        · rfl

end

/-- **Declarations are loaded in any order**, and the machines are then alike. -/
theorem Loads.reorder {fuel : Nat} {ts ts' : List Tree} (hperm : ts.Perm ts')
    (hts : ∀ t ∈ ts, t.role .lax = .deed) {m m' m₁ : Machine} (hm : m.Reordered m')
    (h : Loads fuel ts m m₁) : ∃ m₁', Loads fuel ts' m' m₁' ∧ m₁.Reordered m₁' := by
  -- machines that are alike to begin with: that is what a swap leaves behind
  induction hperm generalizing m m' m₁ with
  | nil =>
    cases h
    exact ⟨m', rfl, hm⟩
  | cons t hperm ih =>
    obtain ⟨ht, hts⟩ := List.forall_mem_cons.mp hts
    obtain ⟨m₀, h₀, h⟩ := (loads_cons ht).mp h
    obtain ⟨m₀', h₀', hm₀⟩ := h₀.alike ht hm
    obtain ⟨m₁', h', hm₁⟩ := ih hts hm₀ h
    exact ⟨m₁', (loads_cons ht).mpr ⟨m₀', h₀', h'⟩, hm₁⟩
  | swap t₁ t₂ ts =>
    obtain ⟨ht₂, hts⟩ := List.forall_mem_cons.mp hts
    obtain ⟨ht₁, hts⟩ := List.forall_mem_cons.mp hts
    obtain ⟨m₂, h₂, h⟩ := (loads_cons ht₂).mp h
    obtain ⟨m₀, h₀, h⟩ := (loads_cons ht₁).mp h
    obtain ⟨m₂', m₀', h₂', h₀', hm₀⟩ := h₂.swap ht₂ ht₁ hm h₀
    obtain ⟨m₁', h', hm₁⟩ := h.alike hts hm₀
    exact ⟨m₁', (loads_cons ht₁).mpr ⟨m₂', h₂', (loads_cons ht₂).mpr ⟨m₀', h₀', h'⟩⟩, hm₁⟩
  | trans hperm hperm' ih ih' =>
    obtain ⟨m₀, h₀, hm₀⟩ := ih hts hm.left h
    obtain ⟨m₁', h₁', hm₁⟩ := ih' (fun t ht => hts t (hperm.mem_iff.mpr ht)) hm h₀
    exact ⟨m₁', h₁', hm₀.trans hm₁⟩

/-! ## Programs -/

/-- After its declarations a program only runs the instructions that are none. -/
theorem runWhere_filter {ts : List Tree} (hts : ∀ t ∈ ts, t.role .lax = .deed) (run : Run) :
    runWhere false run ts = runWhere false run (ts.filter fun t => !t.declares) := by
  induction ts with
  | nil => rfl
  | cons t ts ih =>
    obtain ⟨ht, hts⟩ := List.forall_mem_cons.mp hts
    rw [runWhere_cons ht]
    cases hd : t.declares with
    | true => rw [if_neg nofun, ih hts, List.filter_cons_of_neg (by simp [hd])]
    | false =>
      rw [if_pos rfl, ih hts, List.filter_cons_of_pos (by simp [hd]), runWhere_cons ht,
        hd, if_pos rfl]

/-- The parts of a program that is read are fit to run. -/
theorem Tree.role_of_read_start {source : String} {ts : List Tree}
    (h : Tree.read source = .ok (.form .start ts)) : ∀ t ∈ ts, t.role .lax = .deed := by
  obtain ⟨f, ts', heq, hfits, -⟩ := Tree.form_of_role (.inl (Tree.role_of_read h))
  cases heq
  exact fun t ht => eq_of_beq (Tree.forall_role.mp hfits t ht)

/-- A program ends the same if its incantations are moved and its other deeds stay in order. -/
theorem programMeaning_reorder {fuel : Nat} {ts ts' : List Tree} (hperm : ts.Perm ts')
    (horder : ts'.filter (fun t => !t.declares) = ts.filter fun t => !t.declares)
    (hts : ∀ t ∈ ts, t.role .lax = .deed) {m m₁ : Machine} (hm : Book.Fits .lax m.book)
    (hloads : Loads fuel ts m m₁) :
    (programMeaning (Tree.meaning fuel) ts' m).1 = (programMeaning (Tree.meaning fuel) ts m).1 ∧
      (programMeaning (Tree.meaning fuel) ts m).2.Reordered
        (programMeaning (Tree.meaning fuel) ts' m).2 := by
  have hts' : ∀ t ∈ ts', t.role .lax = .deed := fun t ht => hts t (hperm.mem_iff.mpr ht)
  obtain ⟨m₁', hloads', hm₁⟩ := hloads.reorder hperm hts (.of_fits hm)
  have halike := Likeness.runWhere_alike (Likeness.meaning_alike .toReordered fuel) false hts
  rw [show Likeness.toReordered.rename = id from rfl, Tree.renameAll_id] at halike
  obtain ⟨hending, hmachine⟩ := halike m₁ m₁' hm₁
  rw [programMeaning, programMeaning, Spell.bind_of_done hloads, Spell.bind_of_done hloads',
    runWhere_filter hts', horder, ← runWhere_filter hts]
  exact ⟨(hending.eq rfl fun _ _ h => h.1).symm, hmachine⟩

/-- **Declarations may stand anywhere.** If the declarations of a program load, its instructions may
be reordered in any way that keeps the order of those that are no declarations: the program comes to
the same, reveals the same, reads and draws as much, leaves the same runes, and the same
incantations under the same names. -/
theorem declarations_hoisted {source : String} {ts ts' : List Tree}
    (hread : Tree.read source = .ok (.form .start ts)) (hperm : ts.Perm ts')
    (horder : ts'.filter (fun t => !t.declares) = ts.filter fun t => !t.declares) (fuel : Nat)
    (input : String) (draws : List Float)
    (hloads : ((Tree.form .declarations ts).meaning fuel (.fresh input draws)).1 = .done .nothing) :
    let run := (Tree.form .start ts).meaning fuel (.fresh input draws)
    let run' := (Tree.form .start ts').meaning fuel (.fresh input draws)
    run'.1 = run.1 ∧ run'.2.output = run.2.output ∧ run'.2.scope = run.2.scope ∧
      (∀ x, run'.2.book.find? x = run.2.book.find? x) ∧ run'.2.input = run.2.input ∧
      run'.2.draws = run.2.draws := by
  cases fuel with
  | zero => cases hloads
  | succ fuel =>
    have hload : Loads fuel ts (.fresh input draws) _ := Prod.ext hloads rfl
    obtain ⟨hending, hmachine⟩ :=
      programMeaning_reorder hperm horder (Tree.role_of_read_start hread)
      (Machine.inOrder_fresh .lax input draws).book hload
    exact ⟨hending, hmachine.output.symm, hmachine.scope.symm, fun x => (hmachine.book.1 x).symm,
      hmachine.input.symm, hmachine.draws.symm⟩

theorem read_castFirst : Tree.read "cast f ~::~;incantation f\x7b\x7dincantation g\x7b\x7d" =
    .ok (.form .start castFirst) :=
  GivenText.castFirst.read

/-- A program that casts `f` before it declares `f` and `g` does the same the other way round, with
the declarations in the other order. -/
theorem declarations_hoisted_reversed :
    Tree.read "cast f ~::~;incantation f\x7b\x7dincantation g\x7b\x7d" =
      .ok (.form .start castFirst) ∧
      ((Tree.form .declarations castFirst).meaning 9 (.fresh "" [])).1 = .done .nothing ∧
      ((Tree.form .start castFirst.reverse).meaning 9 (.fresh "" [])).1 = .done .nothing ∧
      ∀ x, ((Tree.form .start castFirst.reverse).meaning 9 (.fresh "" [])).2.book.find? x =
        ((Tree.form .start castFirst).meaning 9 (.fresh "" [])).2.book.find? x := by
  have hoisted := declarations_hoisted read_castFirst castFirst.reverse_perm.symm rfl 9 "" [] rfl
  exact ⟨read_castFirst, rfl, hoisted.1, hoisted.2.2.2.1⟩

end Spellbook
