import Spellbook.Proofs.Plain
import Spellbook.Proofs.Shapes
import Spellbook.Proofs.Simulation
import Spellbook.Session

/-!
# What every run of a program keeps in order

A run of a program that is read is compared to itself. The likeness that is used says that the runes
of the machine are sound and that the bodies of its incantations fit together, so both hold of every
machine that a session reaches, also after a step that failed (`session_entries_sound`).

A run of a tidy program is also compared to one in which the trees without a meaning do anything at
all (`Tree.guarded`). It does not matter what they do, since none of them is ever run, and the run
does not fail for the shape of a tree (`run_of_tidy_fits`).
-/

namespace Spellbook

/-! ## Sound runes -/

namespace Table

variable {α : Type} {t : Table α} {name : String} {a : α}

/-- A table has what was put and what it had. -/
theorem mem_of_mem_put {p : String × α} (h : p ∈ Table.put name a t) : p = (name, a) ∨ p ∈ t := by
  induction t with
  | nil => exact .inl (List.mem_singleton.mp h)
  | cons q t ih =>
    rw [Table.put] at h
    split at h
    · exact (List.mem_cons.mp h).imp_right (List.mem_cons_of_mem q)
    · rcases List.mem_cons.mp h with rfl | h
      · exact .inr List.mem_cons_self
      · exact (ih h).imp_right (List.mem_cons_of_mem q)

/-- What all found entries have stays so if the one put has it. -/
theorem forall_find?_put {P : α → Prop} (h : ∀ x b, t.find? x = some b → P b) (ha : P a) :
    ∀ x b, (Table.put name a t).find? x = some b → P b := by
  intro x b hb
  rw [find?_put] at hb
  split at hb
  · cases hb
    exact ha
  · exact h x b hb

theorem mem_of_find? (h : t.find? name = some a) : (name, a) ∈ t := by
  induction t with
  | nil => cases h
  | cons p t ih =>
    rw [find?_cons] at h
    split at h
    · rename_i hname
      cases h
      rw [hname]
      exact List.mem_cons_self
    · exact List.mem_cons_of_mem p (ih h)

end Table

namespace Scope

variable {s : Scope} {x : String} {e : Entry}

/-- Every rune of every frame is sound. -/
def Sound (s : Scope) : Prop := ∀ f ∈ s, ∀ p ∈ f.own, p.2.Sound

theorem Sound.put {f : Frame} (h : ∀ p ∈ f.own, p.2.Sound) (he : e.Sound) :
    ∀ p ∈ Table.put x e f.own, p.2.Sound := by
  intro p hp
  rcases Table.mem_of_mem_put hp with rfl | hp
  · exact he
  · exact h p hp

/-- A scope stays sound when a sound entry is written. -/
theorem Sound.write (h : s.Sound) (he : e.Sound) : (s.write x e).Sound := by
  cases s with
  | nil =>
    rintro f hf p hp
    cases List.mem_singleton.mp hf
    cases List.mem_singleton.mp hp
    exact he
  | cons f fs =>
    obtain ⟨hf, hfs⟩ := List.forall_mem_cons.mp h
    exact List.forall_mem_cons.mpr ⟨Sound.put hf he, hfs⟩

/-- A scope stays sound when an entry is changed soundly. -/
theorem Sound.modify {g : Entry → Entry} (h : s.Sound) (hg : ∀ e, e.Sound → (g e).Sound) :
    (s.modify g x).Sound := by
  induction s with
  | nil => exact h
  | cons f fs ih =>
    obtain ⟨hf, hfs⟩ := List.forall_mem_cons.mp h
    rw [Scope.modify]
    split
    · rename_i e hown
      have he : (g e).Sound := hg e (hf _ (Table.mem_of_find? hown))
      exact List.forall_mem_cons.mpr ⟨Sound.put hf he, hfs⟩
    · split
      · exact h
      · exact List.forall_mem_cons.mpr ⟨hf, ih hfs⟩

theorem Sound.dispel (h : s.Sound) : (s.dispel x).Sound := by
  cases s with
  | nil => exact h
  | cons f fs =>
    obtain ⟨hf, hfs⟩ := List.forall_mem_cons.mp h
    exact List.forall_mem_cons.mpr ⟨fun p hp => hf p (List.mem_filter.mp hp).1, hfs⟩

theorem Sound.enter (h : s.Sound) : s.enter.Sound :=
  List.forall_mem_cons.mpr ⟨fun _ hp => absurd hp List.not_mem_nil, h⟩

theorem Sound.leaveTo (n : Nat) (h : s.Sound) : (s.leaveTo n).Sound :=
  fun f hf => h f (List.mem_of_mem_drop hf)

end Scope

/-- The bodies of the incantations fit together. -/
def Book.Fits (σ : Style) (b : Table Incantation) : Prop :=
  ∀ x i, b.find? x = some i → i.body.role σ = .deed

/-- A book still fits when an incantation is put whose body is a deed. -/
theorem Book.Fits.put {σ : Style} {b : Table Incantation} {x : String} {i : Incantation}
    (h : Book.Fits σ b) (hi : i.body.role σ = .deed) : Book.Fits σ (b.put x i) :=
  Table.forall_find?_put h hi

/-! ## A run and itself -/

/-- The likeness of a machine in order to itself, in a style that allows all names. -/
def Likeness.toItself (σ : Style) (hσ : ∀ x, σ.allows x = true) : Likeness where
  style := σ
  rename := id
  scopes s s' := s = s' ∧ s.Sound
  depths := Eq
  books b b' := b = b' ∧ Book.Fits σ b
  keyword _ := rfl
  find := by
    rintro s _ x ⟨rfl, -⟩ -
    rfl
  write := by
    rintro s _ x e ⟨rfl, hs⟩ - he
    exact ⟨rfl, hs.write he⟩
  modify := by
    rintro s _ x g ⟨rfl, hs⟩ - hg
    exact ⟨rfl, hs.modify hg⟩
  dispel := by
    rintro s _ x ⟨rfl, hs⟩ -
    exact ⟨rfl, hs.dispel⟩
  enter := by
    rintro s _ ⟨rfl, hs⟩
    exact ⟨rfl, hs.enter⟩
  length := by
    rintro s _ ⟨rfl, -⟩
    rfl
  leaveTo := by
    rintro s _ n _ ⟨rfl, hs⟩ rfl
    exact ⟨rfl, hs.leaveTo n⟩
  lookup := by
    rintro b _ x ⟨rfl, -⟩ -
    exact Book.find?_rename_id b x
  fitting := by
    rintro b _ x i ⟨rfl, hb⟩ hi
    exact ⟨fun p _ => hσ p, hb x i hi⟩
  put := by
    rintro b _ x i ⟨rfl, hb⟩ - - hi
    rw [Incantation.rename_id]
    exact ⟨rfl, hb.put hi⟩

/-- The runes of a machine are sound and its incantations fit together. -/
structure Machine.InOrder (σ : Style) (m : Machine) : Prop where
  scope : m.scope.Sound
  book : Book.Fits σ m.book

/-- A fresh machine is in order. -/
theorem Machine.inOrder_fresh (σ : Style) (input : String) (draws : List Float) :
    (Machine.fresh input draws).InOrder σ where
  scope f hf p hp := by
    cases List.mem_singleton.mp hf
    cases hp
  book := nofun

section

variable {σ : Style} {hσ : ∀ x, σ.allows x = true}

/-- In the likeness of machines to themselves each corresponds to itself if it is in order. -/
theorem Likeness.toItself_machines {m m' : Machine} :
    (toItself σ hσ).Machines m m' ↔ m = m' ∧ m.InOrder σ := by
  constructor
  · rintro ⟨⟨hscope, hs⟩, ⟨hbook, hb⟩, houtput, hinput, hdraws⟩
    cases m
    cases m'
    cases hscope; cases hbook; cases houtput; cases hinput; cases hdraws
    exact ⟨rfl, hs, hb⟩
  · rintro ⟨rfl, hs, hb⟩
    exact ⟨⟨rfl, hs⟩, ⟨rfl, hb⟩, rfl, rfl, rfl⟩

/-- **A run leaves a machine in order**, whatever it comes to. -/
theorem Tree.meaning_inOrder (hσ : ∀ x, σ.allows x = true) {t : Tree} {m : Machine} (fuel : Nat)
    (ht : t.role σ = .deed) (hm : m.InOrder σ) : (t.meaning fuel m).2.InOrder σ := by
  have hplain : (t.role (Likeness.toItself σ hσ).style).isPlain = true := congrArg Role.isPlain ht
  have hrun := (Likeness.meaning_alike (.toItself σ hσ) fuel).plain hplain
  obtain ⟨-, hm'⟩ := hrun m m (Likeness.toItself_machines.mpr ⟨rfl, hm⟩)
  exact (Likeness.toItself_machines.mp hm').2

end

/-! ## Sessions -/

/-- A source leaves a machine in order. -/
theorem SessionStep.take_inOrder {m : Machine} (source : String) (hm : m.InOrder .lax) :
    (SessionStep.take m (.source source)).2.InOrder .lax := by
  have hsilenced : m.silenced.InOrder .lax := ⟨hm.scope, hm.book⟩
  rw [SessionStep.take, Machine.perform]
  split
  · exact hsilenced
  · rename_i t hread
    exact Tree.meaning_inOrder (fun _ => rfl) endurance (Tree.role_of_read hread) hsilenced

/-- A session goes on from the machine that its first step leaves. -/
theorem runSession_cons (m : Machine) (s : SessionStep) (steps : List SessionStep) :
    runSession m (s :: steps) = s.take m :: runSession (s.take m).2 steps := rfl

/-- A session of sources keeps its machine in order, by induction on the sources. -/
theorem runSession_inOrder {m : Machine} (sources : List String) (hm : m.InOrder .lax) :
    ∀ step ∈ runSession m (sources.map .source), step.2.InOrder .lax := by
  induction sources generalizing m with
  | nil => exact fun _ hstep => absurd hstep List.not_mem_nil
  | cons source sources ih =>
    have hstep := SessionStep.take_inOrder source hm
    rw [List.map_cons, runSession_cons]
    exact List.forall_mem_cons.mpr ⟨hstep, ih hstep⟩

/-- **The runes that a session of programs leaves behind are well formed**, in every frame and after
every step, also one that failed: a rune holds a value of one of the four classes, and so does its
past; its kind is noted by one of the four names; and one that is dormant has neither a kind nor a
past. -/
theorem session_entries_sound {input : String} {draws : List Float} {sources : List String}
    {step : Verdict × Machine} {f : Frame} {x : String} {e : Entry}
    (hstep : step ∈ runSession (Machine.fresh input draws) (sources.map .source))
    (hf : f ∈ step.2.scope) (he : (x, e) ∈ f.own) :
    (∀ v, e.value = some v ∨ e.past = some v →
        v.runeClass ∈ ["ScrollInt", "ScrollFloat", "ScrollString", "ScrollBool"]) ∧
      (∀ k, e.kind = some k → k.name ∈ ["int", "float", "str", "bool"]) ∧
      (e.value = none → e.kind = none ∧ e.past = none) := by
  have hsound : e.Sound :=
    (runSession_inOrder sources (Machine.inOrder_fresh .lax input draws) step hstep).scope f hf _ he
  refine ⟨fun v _ => ?_, fun k _ => ?_, hsound⟩
  · cases v <;> simp [Value.runeClass]
  · cases k <;> simp [Kind.name]

/-- A rune that is declared without a value. -/
theorem session_entries_sound_dormant :
    ∃ step ∈ runSession (Machine.fresh "" []) [.source "rune a;"], ∃ f ∈ step.2.scope, ∃ e,
      ("a", e) ∈ f.own ∧ e.value = none ∧ e.kind = none ∧ e.past = none := by
  have hstep : SessionStep.take (.fresh "" []) (.source "rune a;") ∈
      runSession (Machine.fresh "" []) (["rune a;"].map .source) := by
    rw [List.map_cons, runSession_cons]
    exact List.mem_cons_self
  have htake : (SessionStep.take (.fresh "" []) (.source "rune a;")).2.scope =
      [{ own := [("a", .fresh none false)] }] := by
    have hreads : Reader.Reads [] (dormantCut "a") (dormantProgram "a") :=
      reads_dormantCut (by decide)
    have hread : Tree.read "rune a;" = .ok (dormantProgram "a") := Reader.read_of_reads hreads
    obtain ⟨n, hn⟩ : ∃ n, endurance = n + 4 := ⟨1152921504606846972, rfl⟩
    rw [SessionStep.take, Machine.perform, hread]
    show ((dormantProgram "a").meaning endurance (.fresh "" [])).2.scope = _
    rw [hn]
    rfl
  have hframe : { own := [("a", .fresh none false)] } ∈
      (SessionStep.take (.fresh "" []) (.source "rune a;")).2.scope := by
    rw [htake]
    exact List.mem_cons_self
  exact ⟨_, hstep, _, hframe, _, List.mem_cons_self, rfl,
    (session_entries_sound hstep hframe List.mem_cons_self).2.2 rfl⟩

/-! ## Trees without a meaning -/

/-- Whether a kind of node has a meaning. -/
def Form.isHandled : Form → Bool
  | yore | parameters | arguments | collection | tome | tomeContents => false
  | _ => true

/-- The meaning of a tree when the trees that have none do as `wild` says: parts that are absent,
and nodes and tokens whose names have no meaning. -/
def Tree.guarded (wild : Tree → Spell Datum) : Nat → Tree → Spell Datum
  | 0, _ => Spell.finish .exhausted
  | _ + 1, .token (.terminal t) s => if t.use = .none then wild (.leaf t s) else tokenMeaning t s
  | fuel + 1, .node (.form f) parts =>
    if f.isHandled then f.meaning fuel (guarded wild fuel) parts else wild (.form f parts)
  | _ + 1, t => wild t

/-- A form that fits tidily and is run is handled. -/
theorem Form.isHandled_of_fits {f : Form} {ρs : List Role} (h : f.fits .tidy ρs = true)
    (hf : f.role.isRun = true) : f.isHandled = true := by
  cases f with
  | yore | parameters | arguments => cases hf
  | collection | tome | tomeContents => cases h
  | _ => rfl

/-- A token that is run has a use. -/
theorem Terminal.use_ne_none {t : Terminal} {s : String} {σ : Style}
    (h : (t.role σ s).isRun = true) :
    t.use ≠ .none := by
  intro hu
  rw [Terminal.role, hu] at h
  cases h

/-- A tree that fits strictly does the same, whatever the trees without a meaning do. -/
theorem Tree.guarded_alike (wild : Tree → Spell Datum) (fuel : Nat) :
    (Likeness.toItself .tidy fun _ => rfl).Runs (Tree.meaning fuel) (Tree.guarded wild fuel) := by
  induction fuel with
  | zero => exact fun _ _ => .finish .exhausted
  | succ fuel ih =>
    intro t ht
    cases t with
    | absent => cases ht
    | token mark text =>
      cases mark with
      | other name => cases ht
      | terminal t =>
        rw [Tree.rename, Tree.guarded, if_neg (Terminal.use_ne_none ht)]
        exact Likeness.tokenMeaning_alike ht
    | node label ts =>
      cases label with
      | other name => cases ht
      | form f =>
        rw [Tree.role] at ht ⊢
        split at ht
        · rename_i hfits
          rw [if_pos hfits, Tree.rename, Tree.guarded, if_pos (Form.isHandled_of_fits hfits ht)]
          exact Likeness.form_alike ih fuel hfits ht nofun
        · cases ht

/-- **The shapes of trees and their meanings agree.** A program that is read, without tomes and
without proclaiming nothing, never runs a part that is absent or a tree whose name has no meaning:
whatever these did, the run would be the same. Nor does it fail for the shape of a tree, as it would
if it missed a part. -/
theorem run_of_tidy_fits {source : String} {t : Tree} (hread : Tree.read source = .ok t)
    (htidy : t.isTidy = true) (fuel : Nat) (input : String) (draws : List Float) :
    (∀ wild, t.guarded wild fuel (.fresh input draws) = t.meaning fuel (.fresh input draws)) ∧
      ∀ f, (t.meaning fuel (.fresh input draws)).1 = .failed f → f.isMisshapen = false := by
  have hplain : (t.role (Likeness.toItself .tidy fun _ => rfl).style).isPlain = true :=
    congrArg Role.isPlain (Tree.role_tidy_of_read hread htidy)
  have hrun (wild : Tree → Spell Datum) := (Tree.guarded_alike wild fuel).plain hplain _ _
    (Likeness.toItself_machines.mpr ⟨rfl, Machine.inOrder_fresh .tidy input draws⟩)
  rw [show (Likeness.toItself .tidy fun _ => rfl).rename = id from rfl, Tree.rename_id] at hrun
  constructor
  · intro wild
    obtain ⟨hending, hmachine⟩ := hrun wild
    exact (Prod.ext (hending.eq rfl fun _ _ h => h.1)
      (Likeness.toItself_machines.mp hmachine).1).symm
  · intro f hf
    have hending := (hrun fun _ => Spell.finish .exhausted).1
    rw [hf] at hending
    exact hending.sane rfl

theorem run_of_tidy_fits_dormant :
    Tree.read "rune a;" = .ok (dormantProgram "a") ∧ (dormantProgram "a").isTidy = true ∧
      (∀ wild, (dormantProgram "a").guarded wild endurance (.fresh "" []) =
        (dormantProgram "a").meaning endurance (.fresh "" [])) ∧
      ∀ f, ((dormantProgram "a").meaning endurance (.fresh "" [])).1 = .failed f →
        f.isMisshapen = false := by
  have hreads : Reader.Reads [] (dormantCut "a") (dormantProgram "a") :=
    reads_dormantCut (by decide)
  have hread : Tree.read "rune a;" = .ok (dormantProgram "a") := Reader.read_of_reads hreads
  exact ⟨hread, rfl, run_of_tidy_fits hread rfl endurance "" []⟩

end Spellbook
