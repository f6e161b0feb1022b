import Spellbook.Proofs.Renaming
import Spellbook.Proofs.Subtrees

/-!
# Runes that are not mentioned

What the frames of a scope say of a name, from the top down, is all there is to know of it
(`Scope.mentions`), and an operation on one rune changes what is said of that name alone. So a rune
that a tree does not mention, nor any incantation it may cast, is neither seen nor touched by its
run (`unmentioned_rune_apart`). Casts open frames that say nothing of it, and close no others.

The bodies of the incantations have to fit together, as all do that a program declares. One that was
built by hand may look for a rune by a name that it has just been told (`told_name_found`).
-/

namespace Spellbook

/-! ## What frames say of a name -/

/-- What a frame says of a name: the rune it has, and whether it hides those below. -/
structure Mention where
  own : Option Entry := none
  hidden : Bool := false

namespace Mention

/-- Nothing is said of the name. -/
def blank : Mention := {}

/-- The first rune that is found. -/
def find? : List Mention → Option Entry
  | [] => none
  | c :: cs =>
    match c.own with
    | some e => some e
    | none => if c.hidden then none else find? cs

/-- What is said of a rune once it is written anew. -/
def write (e : Entry) : List Mention → List Mention
  | [] => [{ own := some e }]
  | c :: cs => { c with own := some e } :: cs

/-- What is said of a rune once it is changed where it is written. -/
def modify (change : Entry → Entry) : List Mention → List Mention
  | [] => []
  | c :: cs =>
    match c.own with
    | some e => { c with own := some (change e) } :: cs
    | none => if c.hidden then c :: cs else c :: modify change cs

/-- What is said of a rune once it is dispelled. -/
def dispel : List Mention → List Mention
  | [] => []
  | c :: cs => { hidden := (find? cs).isSome || c.hidden } :: cs

/-- Frames that say nothing do not matter. -/
theorem find?_padded (n : Nat) (cs : List Mention) :
    find? (List.replicate n blank ++ cs) = find? cs := by
  induction n with
  | zero => rfl
  | succ n ih => exact ih

end Mention

/-- What a frame says of a name. -/
def Frame.mention (f : Frame) (x : String) : Mention := ⟨f.own.find? x, f.hidden.contains x⟩

namespace Scope

variable {x y : String}

/-- What the frames say of a name, the innermost first. -/
def mentions (s : Scope) (x : String) : List Mention := s.map (·.mention x)

/-- What a scope finds for a name is told by how its frames mention it. -/
theorem find?_eq (s : Scope) (x : String) : s.find? x = Mention.find? (s.mentions x) := by
  induction s with
  | nil => rfl
  | cons f fs ih =>
    rw [find?, ih]
    rfl

/-- Writing another rune leaves the mentions of a name alone. -/
theorem mentions_write_of_ne (h : x ≠ y) {s : Scope} (hs : s ≠ []) (e : Entry) :
    (s.write y e).mentions x = s.mentions x := by
  cases s with
  | nil => exact absurd rfl hs
  | cons f fs => simp [write, mentions, Frame.mention, Table.find?_put_of_ne _ _ h]

/-- A rune is written into the innermost mention. -/
theorem mentions_write_self (s : Scope) (e : Entry) :
    (s.write x e).mentions x = Mention.write e (s.mentions x) := by
  cases s with
  | nil => simp [write, mentions, Frame.mention, Mention.write, Table.find?_cons]
  | cons f fs => simp [write, mentions, Frame.mention, Mention.write, Table.find?_put_self]

theorem mentions_modify_of_ne (h : x ≠ y) (g : Entry → Entry) (s : Scope) :
    (s.modify g y).mentions x = s.mentions x := by
  induction s with
  | nil => rfl
  | cons f fs ih =>
    rw [modify]
    split
    · simp [mentions, Frame.mention, Table.find?_put_of_ne _ _ h]
    · split
      · rfl
      · exact congrArg (f.mention x :: ·) ih

/-- A rune is changed in the first mention that has it. -/
theorem mentions_modify_self (g : Entry → Entry) (s : Scope) :
    (s.modify g x).mentions x = Mention.modify g (s.mentions x) := by
  induction s with
  | nil => rfl
  | cons f fs ih =>
    show _ = Mention.modify g (⟨f.own.find? x, f.hidden.contains x⟩ :: mentions fs x)
    rw [modify, Mention.modify, ← ih]
    cases hown : f.own.find? x with
    | some e => simp [mentions, Frame.mention, Table.find?_put_self]
    | none => by_cases hhidden : x ∈ f.hidden <;> simp [mentions, Frame.mention, hown, hhidden]

theorem mentions_dispel_of_ne (h : x ≠ y) (s : Scope) : (s.dispel y).mentions x = s.mentions x := by
  cases s with
  | nil => rfl
  | cons f fs =>
    have hbeq : (x == y) = false := beq_eq_false_iff_ne.mpr h
    rw [dispel, mentions, List.map_cons, Frame.mention, Table.find?_remove, if_neg h,
      contains_hide, hbeq, Bool.and_false, Bool.false_or]
    rfl

/-- A rune is dispelled in its mentions. -/
theorem mentions_dispel_self (s : Scope) :
    (s.dispel x).mentions x = Mention.dispel (s.mentions x) := by
  cases s with
  | nil => rfl
  | cons f fs =>
    show _ = Mention.dispel (f.mention x :: mentions fs x)
    rw [Mention.dispel, ← find?_eq, dispel, mentions, List.map_cons, Frame.mention,
      Table.find?_remove, if_pos rfl, contains_hide, beq_self_eq_true, Bool.and_true]
    show (⟨none, (isWritten fs x && !f.hidden.contains x) || f.hidden.contains x⟩ : Mention) :: _ =
      ⟨none, isWritten fs x || f.hidden.contains x⟩ :: _
    cases f.hidden.contains x <;> simp [mentions]

/-- A new frame mentions no name. -/
theorem mentions_enter (s : Scope) : s.enter.mentions x = .blank :: s.mentions x := rfl

theorem length_mentions (s : Scope) : (s.mentions x).length = s.length := List.length_map _

/-- Leaving frames drops their mentions. -/
theorem mentions_leaveTo (n : Nat) (s : Scope) :
    (s.leaveTo n).mentions x = (s.mentions x).drop (s.length - n) := List.map_drop

/-! ## Scopes that differ in one name -/

/-- The scopes say the same of all names but `x`. Of `x` they say `cs` and `cs'`, and nothing in the
frames above. -/
structure Besides (x : String) (cs cs' : List Mention) (s s' : Scope) : Prop where
  others : ∀ y, y ≠ x → s.mentions y = s'.mentions y
  padded : ∃ n, s.mentions x = List.replicate n .blank ++ cs ∧
    s'.mentions x = List.replicate n .blank ++ cs'

namespace Besides

variable {cs cs' : List Mention} {s s' : Scope} {e : Entry} (h : Besides x cs cs' s s')
include h

/-- Two scopes that differ in one name agree on the others. -/
theorem find? (hy : y ≠ x) : s.find? y = s'.find? y := by
  rw [find?_eq, find?_eq, h.others y hy]

theorem find?_left : s.find? x = Mention.find? cs := by
  obtain ⟨n, hn, -⟩ := h.padded
  rw [find?_eq, hn, Mention.find?_padded]

theorem find?_right : s'.find? x = Mention.find? cs' := by
  obtain ⟨n, -, hn⟩ := h.padded
  rw [find?_eq, hn, Mention.find?_padded]

/-- An operation on another rune that changes what is said of that rune alone. -/
theorem operate (hy : y ≠ x) {g : Scope → Scope} {g' : List Mention → List Mention}
    (hself : ∀ s, (g s).mentions y = g' (s.mentions y))
    (hs : ∀ z, z ≠ y → (g s).mentions z = s.mentions z)
    (hs' : ∀ z, z ≠ y → (g s').mentions z = s'.mentions z) : Besides x cs cs' (g s) (g s') := by
  constructor
  · intro z hz
    by_cases hzy : z = y
    · rw [hzy, hself, hself, h.others y hy]
    · rw [hs z hzy, hs' z hzy, h.others z hz]
  · rw [hs x hy.symm, hs' x hy.symm]
    exact h.padded

theorem modify (hy : y ≠ x) (g : Entry → Entry) : Besides x cs cs' (s.modify g y) (s'.modify g y) :=
  h.operate hy (mentions_modify_self g) (fun _ hz => mentions_modify_of_ne hz g s)
    (fun _ hz => mentions_modify_of_ne hz g s')

theorem dispel (hy : y ≠ x) : Besides x cs cs' (s.dispel y) (s'.dispel y) :=
  h.operate hy mentions_dispel_self (fun _ hz => mentions_dispel_of_ne hz s)
    (fun _ hz => mentions_dispel_of_ne hz s')

theorem enter : Besides x cs cs' s.enter s'.enter where
  others z hz := by rw [mentions_enter, mentions_enter, h.others z hz]
  padded := by
    obtain ⟨n, hn, hn'⟩ := h.padded
    exact ⟨n + 1, congrArg (Mention.blank :: ·) hn, congrArg (Mention.blank :: ·) hn'⟩

variable (hlength : cs.length = cs'.length)
include hlength

/-- Two scopes that differ in one name have as many frames on top that do not mention it. -/
theorem exists_depth : ∃ n, s.mentions x = List.replicate n .blank ++ cs ∧
    s'.mentions x = List.replicate n .blank ++ cs' ∧ s.length = n + cs.length ∧
    s'.length = n + cs.length := by
  obtain ⟨n, hn, hn'⟩ := h.padded
  refine ⟨n, hn, hn', ?_, ?_⟩
  · rw [← length_mentions (x := x), hn, List.length_append, List.length_replicate]
  · rw [← length_mentions (x := x), hn', List.length_append, List.length_replicate, hlength]

/-- Both scopes may write another rune. -/
theorem write (hcs : cs ≠ []) (hy : y ≠ x) (e : Entry) :
    Besides x cs cs' (s.write y e) (s'.write y e) := by
  obtain ⟨n, -, -, hn, hn'⟩ := h.exists_depth hlength
  have hpos := List.length_pos_iff.mpr hcs
  have hs : s ≠ [] := List.length_pos_iff.mp (by omega)
  have hs' : s' ≠ [] := List.length_pos_iff.mp (by omega)
  exact h.operate hy (g := (·.write y e)) (fun s => mentions_write_self s e)
    (fun _ hz => mentions_write_of_ne hz hs e) (fun _ hz => mentions_write_of_ne hz hs' e)

/-- Frames that say nothing of `x` can be left again. -/
theorem leaveTo {n : Nat} (hn : cs.length ≤ n) : Besides x cs cs' (s.leaveTo n) (s'.leaveTo n) := by
  obtain ⟨k, hk, hk', hs, hs'⟩ := h.exists_depth hlength
  constructor
  · intro z hz
    rw [mentions_leaveTo, mentions_leaveTo, h.others z hz, hs, hs']
  · -- the frames that are left stand above those of `cs`, and say nothing of `x`
    have hle : k + cs.length - n ≤ (List.replicate k Mention.blank).length := by
      rw [List.length_replicate]
      omega
    refine ⟨k - (k + cs.length - n), ?_, ?_⟩
    · rw [mentions_leaveTo, hk, hs, List.drop_append_of_le_length hle, List.drop_replicate]
    · rw [mentions_leaveTo, hk', hs', List.drop_append_of_le_length hle, List.drop_replicate]

end Besides

theorem length_mentions_write {s : Scope} (hs : s ≠ []) (e : Entry) :
    (s.mentions x).length = ((s.write x e).mentions x).length := by
  cases s with
  | nil => exact absurd rfl hs
  | cons f fs => rw [length_mentions, length_mentions, write, List.length_cons, List.length_cons]

/-- A scope and the scope with one rune written differ in that name only. -/
theorem Besides.of_write {s : Scope} (hs : s ≠ []) (e : Entry) :
    Besides x (s.mentions x) ((s.write x e).mentions x) s (s.write x e) where
  others _ hy := (mentions_write_of_ne hy hs e).symm
  padded := ⟨0, rfl, rfl⟩

end Scope

/-! ## Machines -/

/-- The style that refuses one name. -/
def Style.without (x : String) : Style := ⟨false, fun y => y != x⟩

/-- The style without a name allows the other names. -/
theorem Style.allows_without {x y : String} : (Style.without x).allows y = true ↔
    y ≠ x := bne_iff_ne

/-- A tree that does not mention a name has the same role without it. -/
theorem Tree.role_without {x : String} {t : Tree} (h : x ∉ t.names) :
    t.role (.without x) = t.role .lax := by
  refine Tree.role_congr (σ := .without x) (τ := .lax) rfl fun y hy => ?_
  exact Style.allows_without.mpr fun hyx => h (hyx ▸ hy)

/-- No incantation has the name `x` among its parameters or in its body, and the bodies fit
together. -/
def Book.Without (x : String) (b : Table Incantation) : Prop :=
  ∀ y i, b.find? y = some i →
    (∀ p ∈ i.parameters, (Style.without x).allows p = true) ∧ i.body.role (.without x) = .deed

/-- A book whose incantations do not mention a name fits the style without it. -/
theorem Book.Fits.without {x : String} {b : Table Incantation} (h : Book.Fits .lax b)
    (hx : ∀ y i, b.find? y = some i → x ∉ i.parameters ∧ x ∉ i.body.names) : Book.Without x b := by
  intro y i hi
  obtain ⟨hparameters, hbody⟩ := hx y i hi
  refine ⟨fun p hp => Style.allows_without.mpr fun hpx => hparameters (hpx ▸ hp), ?_⟩
  rw [Tree.role_without hbody]
  exact h y i hi

/-- The likeness of machines that differ in the rune `x`, if nothing that is run mentions it. -/
def Likeness.besides (x : String) (cs cs' : List Mention) (hcs : cs ≠ [])
    (hlength : cs.length = cs'.length) :
    Likeness where
  style := .without x
  rename := id
  scopes := Scope.Besides x cs cs'
  depths n n' := n = n' ∧ cs.length ≤ n
  books b b' := b = b' ∧ Book.Without x b
  keyword _ := rfl
  find h hy := h.find? (Style.allows_without.mp hy)
  write h hy _ := h.write hlength hcs (Style.allows_without.mp hy) _
  modify h hy _ := h.modify (Style.allows_without.mp hy) _
  dispel h hy := h.dispel (Style.allows_without.mp hy)
  enter h := h.enter
  length h := by
    obtain ⟨n, -, -, hn, hn'⟩ := h.exists_depth hlength
    exact ⟨hn.trans hn'.symm, hn ▸ Nat.le_add_left ..⟩
  leaveTo := by
    rintro s s' n _ h ⟨rfl, hn⟩
    exact h.leaveTo hlength hn
  lookup := by
    rintro b _ y ⟨rfl, -⟩ -
    exact Book.find?_rename_id b y
  fitting := by
    rintro b _ y i ⟨rfl, hb⟩ hi
    exact hb y i hi
  put := by
    rintro b _ y i ⟨rfl, hb⟩ - hparameters hbody
    rw [Incantation.rename_id]
    exact ⟨rfl, Table.forall_find?_put hb ⟨hparameters, hbody⟩⟩

/-! ## Trees that are not run -/

/-- Where nothing is renamed, data that correspond are equal. -/
theorem Likeness.eq_of_data {L : Likeness} (hL : L.rename = id) {ρ : Role} {d d' : Datum}
    (h : L.Data ρ d d') :
    d = d' := by
  cases ρ with
  | word | deed | prose | resolve => exact h.1
  | nameWord | name =>
    obtain ⟨y, -, rfl, rfl⟩ := h
    rw [hL, id]
  | range =>
    obtain ⟨r, -, rfl, rfl⟩ := h
    rw [hL, id]
  | _ => cases h

/-- A token that fits and is never run has no use. -/
theorem Terminal.use_of_idle {σ : Style} {t : Terminal} {text : String}
    (hmisfit : t.role σ text ≠ .misfit) (hidle : (t.role σ text).isRun = false) :
    t.use = .none := by
  rw [Terminal.role] at hmisfit hidle
  cases huse : t.use with
  | none => rfl
  | name =>
    rw [huse] at hmisfit hidle
    dsimp only at hmisfit hidle
    split at hidle
    · cases hidle
    · rename_i hallows
      exact absurd (if_neg hallows) hmisfit
  | ownText =>
    rw [huse] at hidle
    dsimp only at hidle
    split at hidle <;> cases hidle
  | _ =>
    rw [huse] at hidle
    cases hidle

/-- A tree that is neither run nor a misfit does nothing by itself, whatever the machine. -/
theorem Tree.meaning_of_idle {σ : Style} {t : Tree} (hmisfit : t.role σ ≠ .misfit)
    (hidle : (t.role σ).isRun = false) (fuel : Nat) : ∃ e, ∀ m, t.meaning fuel m = (e, m) := by
  cases fuel with
  | zero => exact ⟨.exhausted, fun _ => rfl⟩
  | succ fuel =>
    cases t with
    | absent => exact ⟨_, fun _ => rfl⟩
    | token mark text =>
      cases mark with
      | other name => exact absurd rfl hmisfit
      | terminal t =>
        refine ⟨.failed (.amiss t.label), fun m => ?_⟩
        show tokenMeaning t text m = _
        rw [tokenMeaning, Terminal.use_of_idle hmisfit hidle]
        rfl
    | node label ts =>
      cases label with
      | other name => exact absurd rfl hmisfit
      | form f =>
        rw [Tree.role] at hidle hmisfit
        split at hidle
        · refine ⟨.failed (.amiss f.label), fun m => ?_⟩
          cases f with
          | yore | parameters | arguments => rfl
          | _ => cases hidle
        · rename_i hfits
          exact absurd (if_neg hfits) hmisfit

/-- **A tree that fits does alike**, whether it is run in a program or not. -/
theorem Likeness.meaning_eq {L : Likeness} (hL : L.rename = id) {t : Tree}
    (ht : t.role L.style ≠ .misfit) (fuel : Nat) {m m' : Machine} (hm : L.Machines m m') :
    (t.meaning fuel m).1 = (t.meaning fuel m').1 ∧
    L.Machines (t.meaning fuel m).2 (t.meaning fuel m').2 := by
  cases hrun : (t.role L.style).isRun with
  | true =>
    obtain ⟨hending, hmachine⟩ := Likeness.meaning_alike L fuel t hrun m m' hm
    rw [hL, Tree.rename_id] at hending hmachine
    exact ⟨hending.eq hL fun _ _ => eq_of_data hL, hmachine⟩
  | false =>
    obtain ⟨e, he⟩ := Tree.meaning_of_idle ht hrun fuel
    rw [he m, he m']
    exact ⟨rfl, hm⟩

/-! ## Runes that a tree does not mention -/

/-- **A rune that is not mentioned does not matter**, and nothing happens to it. Let `t` be any tree
in a program that is read, and let neither `t` nor any incantation in the book mention `x`, in its
parameters or its body. If the bodies of these fit together, `t` does the same whatever `x` is bound
to: it comes to the same ending, reveals the same, reads and draws as much, and leaves the same
incantations and all other runes the same. The rune `x` is left as it was. -/
theorem unmentioned_rune_apart {source : String} {program t : Tree}
    (hread : Tree.read source = .ok program) (ht : t ∈ program.subtrees) {x : String}
    (hx : x ∉ t.names) {m : Machine} (hfits : Book.Fits .lax m.book)
    (hbook : ∀ y i, m.book.find? y = some i → x ∉ i.parameters ∧ x ∉ i.body.names)
    (hscope : m.scope ≠ []) (e : Entry) (fuel : Nat) :
    let run := t.meaning fuel m
    let run' := t.meaning fuel (m.mapScope (·.write x e))
    run'.1 = run.1 ∧ run'.2.output = run.2.output ∧ run'.2.book = run.2.book ∧
      run'.2.input = run.2.input ∧ run'.2.draws = run.2.draws ∧
      (∀ y, y ≠ x → run'.2.scope.find? y = run.2.scope.find? y) ∧
      run.2.scope.find? x = m.scope.find? x ∧ run'.2.scope.find? x = some e := by
  have hcs : m.scope.mentions x ≠ [] := by simpa [Scope.mentions] using hscope
  let L := Likeness.besides x (m.scope.mentions x) ((m.scope.write x e).mentions x) hcs
    (Scope.length_mentions_write hscope e)
  have hm : L.Machines m (m.mapScope (·.write x e)) :=
    ⟨.of_write hscope e, ⟨rfl, hfits.without hbook⟩, rfl, rfl, rfl⟩
  have hrole : t.role L.style ≠ .misfit := by
    rw [show L.style = .without x from rfl, Tree.role_without hx]
    exact Tree.role_ne_misfit_of_read hread ht
  obtain ⟨hending, hscopes, ⟨hbooks, -⟩, houtput, hinput, hdraws⟩ := L.meaning_eq rfl hrole fuel hm
  have hscopes : Scope.Besides x _ _ _ _ := hscopes
  refine ⟨hending.symm, houtput.symm, hbooks.symm, hinput.symm, hdraws.symm, ?_, ?_, ?_⟩
  · exact fun y hy => (hscopes.find? hy).symm
  · rw [hscopes.find?_left, ← Scope.find?_eq]
  · rw [hscopes.find?_right, ← Scope.find?_eq, Scope.find?_write, if_pos rfl]

theorem Table.eq_of_find?_singleton {α : Type} {x y : String} {a b : α}
    (h : Table.find? [(x, a)] y = some b) : a = b := by
  rw [Table.find?_cons] at h
  split at h
  · exact Option.some.inj h
  · cases h

def truthTeller : Machine where
  book := [("f",
    ⟨[], .form .block [.form .reveal [.leaf .reveal "reveal", .leaf .truth "Truthsung"]]⟩)]

theorem unmentioned_rune_apart_cast :
    let t := Tree.form .cast [.leaf .castWord "cast", .named "f", .absent]
    let e := Entry.fresh (some (.truth true)) true
    let run := t.meaning 9 truthTeller
    let run' := t.meaning 9 (truthTeller.mapScope (·.write "x" e))
    Tree.read "cast f ~::~;" = .ok (castProgram "f") ∧ t ∈ (castProgram "f").subtrees ∧
    "x" ∉ t.names ∧
      run.2.output = "Truthsung" ∧ run'.2.output = run.2.output ∧
      run.2.scope.find? "x" = truthTeller.scope.find? "x" ∧ run'.2.scope.find? "x" = some e := by
  have ht : Tree.form .cast [.leaf .castWord "cast", .named "f", .absent] ∈
      (castProgram "f").subtrees :=
    List.mem_cons_of_mem _ List.mem_cons_self
  have hx : "x" ∉ (Tree.form .cast [.leaf .castWord "cast", .named "f", .absent]).names := by decide
  have hfits : Book.Fits .lax truthTeller.book := by
    intro y i hi
    cases Table.eq_of_find?_singleton hi
    rfl
  have hbook : ∀ y i, truthTeller.book.find? y = some i → "x" ∉ i.parameters ∧
      "x" ∉ i.body.names := by
    intro y i hi
    cases Table.eq_of_find?_singleton hi
    decide
  obtain ⟨-, houtput, -, -, -, -, hleft, hright⟩ :=
    unmentioned_rune_apart read_castProgram ht hx hfits hbook
    (by decide) (.fresh (some (.truth true)) true) 9
  exact ⟨read_castProgram, ht, hx, rfl, houtput, hleft, hright⟩

/-- A machine whose only incantation, built by hand, is told the name of the rune that it
reveals. -/
def nameAsker : Machine :=
  { Machine.fresh "x" [] with
    book := [("f", ⟨[], .form .block [.form .reveal [.leaf .reveal "reveal",
      .form .rune [.form .listen [.leaf .listen "demand"]]]]⟩)] }

-- No program has such a body: the reader makes the node of a rune around a name only.
theorem told_name_found :
    Tree.read "cast f ~::~;" = .ok (castProgram "f") ∧ "x" ∉ (castProgram "f").names ∧
      (∀ y i, nameAsker.book.find? y = some i → "x" ∉ i.parameters ∧ "x" ∉ i.body.names) ∧
      ((castProgram "f").meaning 9 nameAsker).1 = .failed (.notWritten "x") ∧
      ((castProgram "f").meaning 9 (nameAsker.mapScope
        (·.write "x" (.fresh (some (.truth true)) false)))).1 = .done .nothing := by
  refine ⟨read_castProgram, by decide, fun y i hi => ?_, rfl, rfl⟩
  cases Table.eq_of_find?_singleton hi
  decide

end Spellbook
