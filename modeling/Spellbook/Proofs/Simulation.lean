import Spellbook.Proofs.Likeness
import Spellbook.Proofs.Scope
import Spellbook.Proofs.Statements

/-!
# Trees that fit do alike

From machines that are alike, a tree whose shape fits and the renamed tree do alike
(`Likeness.meaning_alike`). The shape is what makes this true: a name that ends up where a text is
asked for could be revealed, and then the two runs would differ.

The proof follows the meaning of each form. What a form asks of its parts is in `Form.fits`; what
their roles promise of the data they evaluate to is in `Likeness.Data`.
-/

namespace Spellbook

def Role.isRun : Role → Bool
  | word | prose | resolve | nameWord | name | deed | range => true
  | _ => false

/-- A plain role is one of a tree that is run. -/
theorem Role.isRun_of_isPlain {ρ : Role} (h : ρ.isPlain = true) : ρ.isRun = true := by
  cases ρ <;> first | rfl | cases h

/-- The name is the only terminal that is used as a name. -/
theorem Terminal.eq_name_of_use {t : Terminal} (h : t.use = .name) : t = .name := by
  cases t <;> first | rfl | cases h

/-- The entry of the rune of a cycle over a text, for the turn of a character. -/
def Entry.turn (c : Char) (e : Entry) : Entry :=
  { e with past := e.value, value := some (.text (String.singleton c)) }

/-! ## Shapes -/

namespace Seat

variable {σ : Style} {s s₁ s₂ s₃ s₄ s₅ : Seat} {seats : List Seat} {ts : List Tree}

/-- A row of seats admits the trees whose first sits in the first seat and whose others sit in the
others. -/
theorem admitAll_cons : admitAll σ (s :: seats) (Tree.roles σ ts) = true ↔
    ∃ t ts', ts = t :: ts' ∧ s.admits σ (t.role σ) = true ∧
    admitAll σ seats (Tree.roles σ ts') = true := by
  cases ts with
  | nil => exact ⟨nofun, nofun⟩
  | cons t ts =>
    rw [Tree.roles, admitAll, Bool.and_eq_true]
    constructor
    · exact fun h => ⟨t, ts, rfl, h⟩
    · rintro ⟨_, _, h, hs⟩
      cases h
      exact hs

theorem admitAll_nil : admitAll σ [] (Tree.roles σ ts) = true ↔ ts = [] := by
  cases ts with
  | nil => exact ⟨fun _ => rfl, fun _ => rfl⟩
  | cons t ts => exact ⟨nofun, nofun⟩

theorem one (h : admitAll σ [s] (Tree.roles σ ts) = true) :
    ∃ a, ts = [a] ∧ s.admits σ (a.role σ) = true := by
  obtain ⟨a, _, rfl, ha, h⟩ := admitAll_cons.mp h
  cases admitAll_nil.mp h
  exact ⟨a, rfl, ha⟩

theorem two (h : admitAll σ [s₁, s₂] (Tree.roles σ ts) = true) :
    ∃ a b, ts = [a, b] ∧ s₁.admits σ (a.role σ) = true ∧ s₂.admits σ (b.role σ) = true := by
  obtain ⟨a, _, rfl, ha, h⟩ := admitAll_cons.mp h
  obtain ⟨b, rfl, hb⟩ := one h
  exact ⟨a, b, rfl, ha, hb⟩

theorem three (h : admitAll σ [s₁, s₂, s₃] (Tree.roles σ ts) = true) :
    ∃ a b c, ts = [a, b, c] ∧ s₁.admits σ (a.role σ) = true ∧ s₂.admits σ (b.role σ) = true ∧
      s₃.admits σ (c.role σ) = true := by
  obtain ⟨a, _, rfl, ha, h⟩ := admitAll_cons.mp h
  obtain ⟨b, c, rfl, hbc⟩ := two h
  exact ⟨a, b, c, rfl, ha, hbc⟩

theorem four (h : admitAll σ [s₁, s₂, s₃, s₄] (Tree.roles σ ts) = true) :
    ∃ a b c d, ts = [a, b, c, d] ∧ s₁.admits σ (a.role σ) = true ∧ s₂.admits σ (b.role σ) = true ∧
      s₃.admits σ (c.role σ) = true ∧ s₄.admits σ (d.role σ) = true := by
  obtain ⟨a, _, rfl, ha, h⟩ := admitAll_cons.mp h
  obtain ⟨b, c, d, rfl, hbcd⟩ := three h
  exact ⟨a, b, c, d, rfl, ha, hbcd⟩

theorem five (h : admitAll σ [s₁, s₂, s₃, s₄, s₅] (Tree.roles σ ts) = true) :
    ∃ a b c d e, ts = [a, b, c, d, e] ∧ s₁.admits σ (a.role σ) = true ∧
    s₂.admits σ (b.role σ) = true ∧
      s₃.admits σ (c.role σ) = true ∧ s₄.admits σ (d.role σ) = true ∧
      s₅.admits σ (e.role σ) = true := by
  obtain ⟨a, _, rfl, ha, h⟩ := admitAll_cons.mp h
  obtain ⟨b, c, d, e, rfl, hbcde⟩ := four h
  exact ⟨a, b, c, d, e, rfl, ha, hbcde⟩

/-- A seat for one role admits that role only. -/
theorem eq_of_admits_role {ρ ρ' : Role} (h : (role ρ').admits σ ρ = true) : ρ = ρ' := eq_of_beq h

/-- What sits in an optional seat is absent or plain. -/
theorem optional_cases {t : Tree} (h : optional.admits σ (t.role σ) = true) :
    t = .absent ∨ (t.role σ).isPlain = true := by
  rcases Bool.or_eq_true_iff.mp h with h | h
  · exact .inr h
  · exact .inl (Tree.eq_absent_of_role (eq_of_beq h))

/-- What sits in an optional seat for a role has the role or is absent. -/
theorem optionalRole_cases {t : Tree} {ρ : Role} (h : (optionalRole ρ).admits σ (t.role σ) = true) :
    t.role σ = ρ ∨ t = .absent := by
  rcases Bool.or_eq_true_iff.mp h with h | h
  · exact .inl (eq_of_beq h)
  · exact .inr (Tree.eq_absent_of_role (eq_of_beq h))

/-- What is proclaimed is plain, or it is absent and the style is not strict. -/
theorem proclaimed_cases {t : Tree} (h : proclaimed.admits σ (t.role σ) = true) :
    (t.role σ).isPlain = true ∨ t = .absent ∧ σ.strict = false := by
  rcases Bool.or_eq_true_iff.mp h with h | h
  · exact .inl h
  · obtain ⟨habsent, hlax⟩ := Bool.and_eq_true_iff.mp h
    exact .inr ⟨Tree.eq_absent_of_role (eq_of_beq habsent), (Bool.not_eq_true' _).mp hlax⟩

end Seat

namespace Tree

variable {σ : Style} {t : Tree} {ts : List Tree}

theorem forall_role {p : Role → Bool} :
    (Tree.roles σ ts).all p = true ↔ ∀ t ∈ ts, p (t.role σ) = true := by
  simp [Tree.roles_eq_map]

/-- The roles that only nodes have. -/
theorem form_of_role (h : t.role σ = .deed ∨ t.role σ = .values ∨ t.role σ = .names) :
    ∃ f ts, t = .form f ts ∧ f.fits σ (Tree.roles σ ts) = true ∧ f.role = t.role σ := by
  cases t with
  | absent => simp [Tree.role] at h
  | token mark text =>
    cases mark with
    | other name => simp [Tree.role] at h
    | terminal t =>
      rw [Tree.role, Terminal.role] at h
      split at h <;> try split at h
      all_goals simp at h
  | node label ts =>
    cases label with
    | other name => simp [Tree.role] at h
    | form f =>
      rw [Tree.role] at h ⊢
      split at h
      · rename_i hfits
        exact ⟨f, ts, rfl, hfits, (if_pos hfits).symm⟩
      · simp at h

/-- A renaming makes nothing absent. -/
theorem rename_ne_absent {r : String → String} (h : t ≠ .absent) : t.rename r ≠ .absent := by
  cases t with
  | absent => exact absurd rfl h
  | node _ _ | token _ _ => simp [Tree.rename]

/-- A token that is run for its own text is not a name. -/
theorem token_of_role (h : t.role σ = .word) (r : String → String) :
    ∃ m text, t = .token m text ∧ t.rename r = t := by
  cases t with
  | absent => cases h
  | node label ts =>
    cases label with
    | other name => cases h
    | form f =>
      rw [Tree.role] at h
      split at h
      · cases f <;> cases h
      · cases h
  | token mark text =>
    cases mark with
    | other name => cases h
    | terminal t =>
      refine ⟨_, text, rfl, ?_⟩
      rw [Tree.rename, if_neg]
      rintro ⟨⟩
      simp only [Tree.role, Terminal.role, Terminal.use] at h
      split at h <;> cases h

end Tree

namespace Likeness

/-! ## Data -/

/-- The data are the same, and ordinary. -/
def Same (d d' : Datum) : Prop := d = d' ∧ d.isOrdinary = true

variable (L : Likeness)

/-- A name, and the name it is renamed to. -/
def Keys (x x' : String) : Prop := L.style.allows x = true ∧ x' = L.rename x

/-- What trees of a role evaluate to, and the renamed trees. -/
def Data : Role → Datum → Datum → Prop
  | .word, d, d' | .deed, d, d' => Same d d'
  | .prose, d, d' => d = d' ∧ ∃ s, d = .rune (.text s)
  | .resolve, d, d' => d = d' ∧ d = .word resolveWord
  | .nameWord, d, d' | .name, d, d' =>
    ∃ x, L.style.allows x = true ∧ d = .word x ∧ d' = .word (L.rename x)
  | .range, d, d' => ∃ r : Range, L.style.allows r.name = true ∧ d = r.toDatum ∧
      d' = { r with name := L.rename r.name }.toDatum
  | _, _, _ => False

variable {L}

/-- In a plain role, data that correspond are the same. -/
theorem same_of_data {ρ : Role} {d d' : Datum} (hρ : ρ.isPlain = true) (h : L.Data ρ d d') :
    Same d d' := by
  cases ρ with
  | word | deed => exact h
  | prose =>
    obtain ⟨rfl, s, rfl⟩ := h
    exact ⟨rfl, rfl⟩
  | resolve =>
    obtain ⟨rfl, rfl⟩ := h
    exact ⟨rfl, rfl⟩
  | _ => cases hρ

variable (L)

/-- Trees are run alike, if their shape allows to run them. -/
def Runs (run run' : Run) : Prop :=
  ∀ t, (t.role L.style).isRun = true →
    L.Spells (L.Data (t.role L.style)) (run t) (run' (t.rename L.rename))

variable {L} {run run' : Run}

/-- Two runners that correspond read the same from a plain tree and from its renaming. -/
theorem Runs.plain (h : L.Runs run run') {t : Tree} (ht : (t.role L.style).isPlain = true) :
    L.Spells Same (run t) (run' (t.rename L.rename)) :=
  (h t (Role.isRun_of_isPlain ht)).mono fun _ _ => same_of_data ht

/-- The names that are read from a name and from its renaming are renamings of each other. -/
theorem Runs.key (h : L.Runs run run') {t : Tree} (ht : t.role L.style = .name) :
    L.Spells L.Keys (run t >>= fun d => liftM (keyOf d))
    (run' (t.rename L.rename) >>= fun d => liftM (keyOf d)) := by
  have ht' := h t (by rw [ht]; rfl)
  rw [ht] at ht'
  refine ht'.bind ?_
  rintro _ _ ⟨x, hx, rfl, rfl⟩
  exact .pure ⟨hx, rfl⟩

theorem Runs.name (h : L.Runs run run') {t : Tree} (ht : t.role L.style = .name) :
    L.Spells (L.Data .name) (run t) (run' (t.rename L.rename)) := by
  have ht' := h t (by rw [ht]; rfl)
  rwa [ht] at ht'

theorem Runs.nameWord (h : L.Runs run run') {t : Tree} (ht : t.role L.style = .nameWord) :
    L.Spells (L.Data .nameWord) (run t) (run' (t.rename L.rename)) := by
  have ht' := h t (by rw [ht]; rfl)
  rwa [ht] at ht'

section Forms

open Spells

variable (hrun : L.Runs run run') {a b c : Tree} {ts : List Tree}
include hrun

/-! ## Several parts -/

/-- A list of plain trees gives the same data on both sides, one for each tree. -/
theorem runAll_alike (h : ∀ t ∈ ts, (t.role L.style).isPlain = true) :
    L.Spells (fun ds ds' => ds = ds' ∧ ds.length = ts.length ∧ ∀ d ∈ ds, d.isOrdinary = true)
      (runAll run ts) (runAll run' (Tree.renameAll L.rename ts)) := by
  induction ts with
  | nil => exact pure ⟨rfl, rfl, by simp⟩
  | cons t ts ih =>
    refine bind (hrun.plain (h t List.mem_cons_self)) ?_
    rintro d _ ⟨rfl, hd⟩
    refine bind (ih fun t ht => h t (List.mem_cons_of_mem _ ht)) ?_
    rintro ds _ ⟨rfl, hlength, hds⟩
    refine pure ⟨rfl, congrArg (· + 1) hlength, ?_⟩
    exact List.forall_mem_cons.mpr ⟨hd, hds⟩

/-- Three plain trees give the same three data on both sides. -/
theorem runThree_alike (ha : (a.role L.style).isPlain = true) (hb : (b.role L.style).isPlain = true)
    (hc : (c.role L.style).isPlain = true) :
    L.Spells (fun p p' => p = p' ∧ p.1.isOrdinary = true ∧ p.2.1.isOrdinary = true ∧
      p.2.2.isOrdinary = true) (runThree run [a, b, c])
      (runThree run' [a.rename L.rename, b.rename L.rename, c.rename L.rename]) := by
  refine bind (runAll_alike hrun (by simp [*] : ∀ t ∈ [a, b, c], _)) ?_
  rintro ds _ ⟨rfl, hlength, hds⟩
  match ds, hlength with
  | [x, y, z], _ =>
  simp only [List.mem_cons, List.not_mem_nil, or_false, forall_eq_or_imp, forall_eq] at hds
  exact pure ⟨rfl, hds⟩

theorem runEach_alike (h : ∀ t ∈ ts, (t.role L.style).isPlain = true) :
    L.Spells Same (runEach run ts) (runEach run' (Tree.renameAll L.rename ts)) := by
  induction ts with
  | nil => exact pure ⟨rfl, rfl⟩
  | cons t ts ih =>
    refine bind (hrun.plain (h t List.mem_cons_self)) fun _ _ _ => ?_
    exact ih fun t ht => h t (List.mem_cons_of_mem _ ht)

/-! ## Operators -/

section Operators

variable {d e : Tree} (ha : (a.role L.style).isPlain = true)
include ha

theorem groupMeaning_alike :
    L.Spells Same (groupMeaning run [a]) (groupMeaning run' [a.rename L.rename]) := by
  refine bind (D := Eq) (bind (hrun.plain ha) ?_) ?_
  · rintro x _ ⟨rfl, -⟩
    exact lift (x.toValue_sane.mono fun _ _ => rfl)
  · rintro v _ rfl
    exact pure ⟨rfl, rfl⟩

theorem negativeMeaning_alike :
    L.Spells Same (negativeMeaning run [a]) (negativeMeaning run' [a.rename L.rename]) := by
  refine bind (D := Eq) (bind (hrun.plain ha) ?_) ?_
  · rintro x _ ⟨rfl, -⟩
    exact lift (x.toValue_sane.mono fun _ _ => rfl)
  · rintro v _ rfl
    exact lift ((Datum.negate_fine _).mono fun _ h => ⟨rfl, h⟩)

theorem denialMeaning_alike :
    L.Spells Same (denialMeaning run [d, a])
    (denialMeaning run' [d.rename L.rename, a.rename L.rename]) := by
  refine bind (D := Eq) (bind (hrun.plain ha) ?_) ?_
  · rintro x _ ⟨rfl, -⟩
    exact lift (x.toValue_sane.mono fun _ _ => rfl)
  · rintro v _ rfl
    exact lift_bind v.runeTruth_sane fun _ _ => pure ⟨rfl, rfl⟩

theorem measureMeaning_alike :
    L.Spells Same (measureMeaning run [d, a])
    (measureMeaning run' [d.rename L.rename, a.rename L.rename]) := by
  refine bind (hrun.plain ha) ?_
  rintro x _ ⟨rfl, hx⟩
  exact lift_bind x.length_sane fun _ _ => pure ⟨rfl, rfl⟩

variable (hb : (b.role L.style).isPlain = true)
include hb

theorem powerMeaning_alike :
    L.Spells Same (powerMeaning run [a, b])
    (powerMeaning run' [a.rename L.rename, b.rename L.rename]) := by
  refine bind (hrun.plain ha) ?_
  rintro x _ ⟨rfl, hx⟩
  refine bind (hrun.plain hb) ?_
  rintro y _ ⟨rfl, hy⟩
  refine lift_bind x.toValue_sane fun v _ => ?_
  refine lift_bind y.toValue_sane fun w _ => ?_
  exact lift ((Datum.operate_fine .power rfl rfl).mono fun _ h => ⟨rfl, h⟩)

theorem roundingMeaning_alike :
    L.Spells Same (roundingMeaning run [a, b])
      (roundingMeaning run' [a.rename L.rename, b.rename L.rename]) := by
  refine bind (hrun.plain ha) ?_
  rintro op _ ⟨rfl, hop⟩
  refine bind (hrun.plain hb) ?_
  rintro x _ ⟨rfl, hx⟩
  refine lift_bind (operatorText_sane hop) fun op _ => ?_
  split
  · exact fail (.refl rfl)
  · refine lift_bind x.content_sane fun v _ => ?_
    exact lift_bind (v.rounded_sane _) fun _ _ => pure ⟨rfl, rfl⟩

theorem eitherMeaning_alike :
    L.Spells Same (eitherMeaning run [a, d, b])
      (eitherMeaning run' [a.rename L.rename, d.rename L.rename, b.rename L.rename]) := by
  refine bind (hrun.plain ha) ?_
  rintro x _ ⟨rfl, hx⟩
  refine bind (hrun.plain hb) ?_
  rintro y _ ⟨rfl, hy⟩
  refine lift_bind x.toValue_sane fun v _ => ?_
  refine lift_bind y.toValue_sane fun w _ => ?_
  refine lift_bind v.runeTruth_sane fun isTrue _ => ?_
  split
  · exact pure ⟨rfl, rfl⟩
  · exact lift_bind w.runeTruth_sane fun _ _ => pure ⟨rfl, rfl⟩

theorem bothMeaning_alike :
    L.Spells Same (bothMeaning run [a, d, b])
      (bothMeaning run' [a.rename L.rename, d.rename L.rename, b.rename L.rename]) := by
  refine bind (hrun.plain ha) ?_
  rintro x _ ⟨rfl, hx⟩
  refine bind (hrun.plain hb) ?_
  rintro y _ ⟨rfl, hy⟩
  refine lift_bind x.toValue_sane fun v _ => ?_
  refine lift_bind y.toValue_sane fun w _ => ?_
  refine lift_bind v.runeTruth_sane fun isTrue _ => ?_
  split
  · exact lift_bind w.runeTruth_sane fun _ _ => pure ⟨rfl, rfl⟩
  · exact pure ⟨rfl, rfl⟩

/-- A value made one of another kind; the kind is the text of the last part. -/
theorem transmuteMeaning_alike :
    L.Spells Same (transmuteMeaning run [d, a, e, b])
      (transmuteMeaning run' [d.rename L.rename, a.rename L.rename, e.rename L.rename,
        b.rename L.rename]) := by
  refine bind (D := Eq) (bind (hrun.plain ha) ?_) ?_
  · rintro x _ ⟨rfl, -⟩
    exact lift (x.toValue_sane.mono fun _ _ => rfl)
  · rintro v _ rfl
    refine bind (hrun.plain hb) ?_
    rintro x _ ⟨rfl, hx⟩
    refine lift_bind (Datum.text_sane hx) fun target _ => ?_
    split
    · exact pure ⟨rfl, rfl⟩
    · exact fail (.refl rfl)

variable (hc : (c.role L.style).isPlain = true)
include hc

theorem sumMeaning_alike : L.Spells Same (sumMeaning run [a, b, c])
    (sumMeaning run' [a.rename L.rename, b.rename L.rename, c.rename L.rename]) := by
  refine bind (runThree_alike hrun ha hb hc) ?_
  rintro ⟨x, op, y⟩ _ ⟨rfl, hx, hop, hy⟩
  refine lift_bind x.toValue_sane fun v _ => ?_
  refine lift_bind y.toValue_sane fun w _ => ?_
  refine check (.refl rfl) ?_
  refine lift_bind (operatorText_sane hop) fun op _ => ?_
  split
  · exact fail (.refl rfl)
  · exact lift_bind (Calculation.apply_sane _ v w) fun _ _ => pure ⟨rfl, rfl⟩

theorem productMeaning_alike : L.Spells Same (productMeaning run [a, b, c])
    (productMeaning run' [a.rename L.rename, b.rename L.rename, c.rename L.rename]) := by
  refine bind (runThree_alike hrun ha hb hc) ?_
  rintro ⟨x, op, y⟩ _ ⟨rfl, hx, hop, hy⟩
  refine lift_bind x.toValue_sane fun v _ => ?_
  refine lift_bind y.toValue_sane fun w _ => ?_
  refine lift_bind (operatorText_sane hop) fun op _ => ?_
  split
  · exact fail (.refl rfl)
  · exact lift_bind (Calculation.apply_sane _ v w) fun _ _ => pure ⟨rfl, rfl⟩

theorem comparisonMeaning_alike : L.Spells Same (comparisonMeaning run [a, b, c])
    (comparisonMeaning run' [a.rename L.rename, b.rename L.rename, c.rename L.rename]) := by
  refine bind (runThree_alike hrun ha hb hc) ?_
  rintro ⟨x, op, y⟩ _ ⟨rfl, hx, hop, hy⟩
  refine lift_bind (operatorText_sane hop) fun op _ => ?_
  split
  · exact fail (.refl rfl)
  · exact lift_bind (x.compare_sane _ y) fun _ _ => pure ⟨rfl, rfl⟩

end Operators

/-! ## Runes that are looked at -/

theorem nameMeaning_alike (ha : a.role L.style = .nameWord) :
    L.Spells (L.Data .name) (nameMeaning run [a]) (nameMeaning run' [a.rename L.rename]) := by
  refine bind (hrun.nameWord ha) ?_
  rintro _ _ ⟨x, hx, rfl, rfl⟩
  exact pure ⟨x, hx, rfl, rfl⟩

theorem runeMeaning_alike (ha : a.role L.style = .nameWord) :
    L.Spells Same (runeMeaning run [a]) (runeMeaning run' [a.rename L.rename]) := by
  refine bind (hrun.nameWord ha) ?_
  rintro _ _ ⟨x, hx, rfl, rfl⟩
  refine bind (D := L.Keys) (pure ⟨hx, rfl⟩) ?_
  rintro x _ ⟨hx, rfl⟩
  refine bind (written hx) ?_
  rintro e _ rfl
  split
  · exact pure ⟨rfl, rfl⟩
  · exact fail (.renamed rfl)

theorem pastMeaning_alike (ha : a.role L.style = .nameWord) :
    L.Spells Same (pastMeaning run [a, b])
    (pastMeaning run' [a.rename L.rename, b.rename L.rename]) := by
  refine bind (hrun.nameWord ha) ?_
  rintro _ _ ⟨x, hx, rfl, rfl⟩
  refine bind (D := L.Keys) (pure ⟨hx, rfl⟩) ?_
  rintro x _ ⟨hx, rfl⟩
  refine bind (written hx) ?_
  rintro e _ rfl
  split
  · exact pure ⟨rfl, rfl⟩
  · exact fail (.renamed rfl)

theorem indexMeaning_alike (ha : a.role L.style = .name) (hb : (b.role L.style).isPlain = true) :
    L.Spells Same (indexMeaning run [a, b])
    (indexMeaning run' [a.rename L.rename, b.rename L.rename]) := by
  refine bind (hrun.name ha) ?_
  rintro _ _ ⟨x, hx, rfl, rfl⟩
  refine bind (hrun.plain hb) ?_
  rintro index _ ⟨rfl, -⟩
  refine bind (D := L.Keys) (pure ⟨hx, rfl⟩) ?_
  rintro x _ ⟨hx, rfl⟩
  refine bind (known hx) ?_
  rintro e _ rfl
  split
  · refine lift_bind index.content_sane fun v _ => ?_
    exact lift_bind (Datum.charAt_sane _ _) fun _ _ => pure ⟨rfl, rfl⟩
  · refine lift_bind (Datum.kind_sane _) fun kind _ => ?_
    exact lift_bind index.kind_sane fun _ _ => fail (.refl rfl)

/-! ## Speech -/

theorem revealMeaning_alike (hb : (b.role L.style).isPlain = true) :
    L.Spells Same (revealMeaning run [a, b])
    (revealMeaning run' [a.rename L.rename, b.rename L.rename]) := by
  refine bind (hrun.plain hb) ?_
  rintro x _ ⟨rfl, hx⟩
  refine lift_bind (Datum.text_sane hx) fun s _ => ?_
  exact bind (reveal s) fun _ _ _ => pure ⟨rfl, rfl⟩

theorem promptedListenMeaning_alike (hb : (b.role L.style).isPlain = true) :
    L.Spells Same (promptedListenMeaning run [a, b])
      (promptedListenMeaning run' [a.rename L.rename, b.rename L.rename]) := by
  refine bind (hrun.plain hb) ?_
  rintro x _ ⟨rfl, hx⟩
  refine lift_bind (Datum.text_sane hx) fun s _ => ?_
  refine bind (reveal s) fun _ _ _ => ?_
  refine bind listen ?_
  rintro line _ rfl
  exact pure ⟨rfl, rfl⟩

theorem interpolationMeaning_alike (h : Form.textFits (Tree.roles L.style ts) = true) :
    L.Spells Same (interpolationMeaning run ts)
    (interpolationMeaning run' (Tree.renameAll L.rename ts)) := by
  have hmiddle : ∀ t ∈ (ts.drop 1).dropLast, (t.role L.style).isPlain = true := by
    cases ts with
    | nil => simp
    | cons t ts =>
      rw [Tree.roles, Form.textFits, Tree.roles_eq_map, ← List.map_dropLast, List.all_map,
        List.all_eq_true] at h
      exact h
  have hparts : ((Tree.renameAll L.rename ts).drop 1).dropLast =
      Tree.renameAll L.rename (ts.drop 1).dropLast := by
    simp only [Tree.renameAll_eq_map, List.map_drop, List.map_dropLast]
  rw [interpolationMeaning, interpolationMeaning, hparts]
  refine bind (runAll_alike hrun hmiddle) ?_
  rintro ds _ ⟨rfl, -, hds⟩
  exact lift_bind (Datum.textsOf_sane hds) fun _ _ => pure ⟨rfl, rfl⟩

theorem proseMeaning_alike (ha : a.role L.style = .prose) :
    L.Spells Same (partMeaning run [a]) (partMeaning run' [a.rename L.rename]) := by
  have ha' := hrun a (by rw [ha]; rfl)
  rw [ha] at ha'
  refine bind (D := fun ds ds' => ds = ds' ∧ ∃ s, ds = [.rune (.text s)]) (bind ha' ?_) ?_
  · rintro _ _ ⟨rfl, s, rfl⟩
    exact pure ⟨rfl, s, rfl⟩
  · rintro _ _ ⟨rfl, s, rfl⟩
    exact pure ⟨rfl, rfl⟩

theorem partMeaning_alike (ha : (a.role L.style).isPlain = true)
    (hb : (b.role L.style).isPlain = true) (hc : (c.role L.style).isPlain = true) :
    L.Spells Same (partMeaning run [a, b, c])
      (partMeaning run' [a.rename L.rename, b.rename L.rename, c.rename L.rename]) := by
  refine bind (runAll_alike hrun (by simp [*] : ∀ t ∈ [a, b, c], _)) ?_
  rintro ds _ ⟨rfl, hlength, hds⟩
  match ds, hlength with
  | [x, y, z], _ =>
    have hy : Same y y := ⟨rfl, hds y (by simp)⟩
    -- three data are no single text, whatever the first of them is
    rcases x with _ | v | v | _ | _ | _
    case rune => cases v <;> exact Spells.pure hy
    all_goals exact Spells.pure hy

/-! ## Choices -/

/-- The branches of a foretelling are tried alike: the same one is taken on both sides. -/
theorem branches_alike (h : Form.branchesFit (Tree.roles L.style ts) = true) :
    L.Spells Same (branches run ts) (branches run' (Tree.renameAll L.rename ts)) := by
  induction ts using branches.induct with
  | case1 => exact pure ⟨rfl, rfl⟩
  | case2 rest => exact pure ⟨rfl, rfl⟩
  | case3 t ht => cases h
  | case4 t block ht =>
    -- two parts are left: the last word, which is known, and its block
    obtain ⟨hword, hblock⟩ : t.role L.style = .resolve ∧ (block.role L.style).isPlain = true := by
      rcases Bool.or_eq_true_iff.mp h with h | h
      · exact absurd (Tree.eq_absent_of_role (eq_of_beq h)) ht
      · exact ⟨eq_of_beq (Bool.and_eq_true_iff.mp h).1, (Bool.and_eq_true_iff.mp h).2⟩
    have hlast := hrun t (by rw [hword]; rfl)
    rw [hword] at hlast
    rw [branches.eq_4 _ _ _ ht, Tree.renameAll, Tree.renameAll, Tree.renameAll,
      branches.eq_4 _ _ _ (Tree.rename_ne_absent ht)]
    refine bind hlast ?_
    rintro _ _ ⟨rfl, rfl⟩
    refine lift_bind (Datum.compare_sane _ _ _) fun last hlast => ?_
    have htrue : last = true := by
      cases hlast
      decide
    refine bind (hrun.plain hblock) fun _ _ _ => ?_
    rw [if_pos htrue]
    exact pure ⟨rfl, rfl⟩
  | case5 t condition block rest ht ih =>
    obtain ⟨⟨⟨hword, hcondition⟩, hblock⟩, hrest⟩ : (((t.role L.style).isPlain = true ∧
        (condition.role L.style).isPlain = true) ∧ (block.role L.style).isPlain = true) ∧
        Form.branchesFit (Tree.roles L.style rest) = true := by
      simpa only [Tree.roles, Form.branchesFit, Bool.and_eq_true] using h
    rw [branches.eq_5 _ _ _ _ _ ht]
    simp only [Tree.renameAll]
    rw [branches.eq_5 _ _ _ _ _ (Tree.rename_ne_absent ht)]
    refine bind (hrun.plain hword) ?_
    rintro word _ ⟨rfl, -⟩
    refine lift_bind (Datum.compare_sane _ _ _) fun last _ => ?_
    split
    · exact bind (hrun.plain hcondition) fun _ _ _ => pure ⟨rfl, rfl⟩
    · refine bind (hrun.plain hcondition) ?_
      rintro d _ ⟨rfl, -⟩
      refine lift_bind d.truth_sane fun isTrue _ => ?_
      split
      · exact bind (hrun.plain hblock) fun _ _ _ => pure ⟨rfl, rfl⟩
      · exact ih hrest

/-- A part that may be left out stands for a datum of its own if it is. -/
theorem absentOr_alike {E : Datum → Datum → Prop} {d : Datum} {k k' : Datum → Spell Datum}
    (ha : a = .absent ∨ (a.role L.style).isPlain = true) (hd : d.isOrdinary = true)
    (hk : ∀ x, x.isOrdinary = true → L.Spells E (k x) (k' x)) :
    L.Spells E
      (match a with
        | .absent => (Pure.pure d : Spell Datum) >>= k
        | t => run t >>= k)
      (match a.rename L.rename with
        | .absent => (Pure.pure d : Spell Datum) >>= k'
        | t => run' t >>= k') := by
  rcases ha with rfl | ha
  · exact hk d hd
  · have hgoes : L.Spells E (run a >>= k) (run' (a.rename L.rename) >>= k') := by
      refine bind (hrun.plain ha) ?_
      rintro x _ ⟨rfl, hx⟩
      exact hk x hx
    cases a with
    | absent => cases ha
    | node _ _ | token _ _ => exact hgoes

theorem mayhapsMeaning_alike {w d e : Tree} (ha : a = .absent ∨ (a.role L.style).isPlain = true)
    (hb : (b.role L.style).isPlain = true) :
    L.Spells Same (mayhapsMeaning run [w, a, b, d, e])
      (mayhapsMeaning run' [w.rename L.rename, a.rename L.rename, b.rename L.rename,
        d.rename L.rename,
        e.rename L.rename]) := by
  refine absentOr_alike hrun ha rfl fun ratio _ => ?_
  refine bind (D := fun t t' => t = b ∧ t' = b.rename L.rename) (pure ⟨rfl, rfl⟩) ?_
  rintro _ _ ⟨rfl, rfl⟩
  refine bind draw ?_
  rintro drawn _ rfl
  refine lift_bind (Datum.compare_sane _ _ _) fun isBelow _ => ?_
  dsimp only
  split
  · exact bind (hrun.plain hb) fun _ _ _ => pure ⟨rfl, rfl⟩
  · exact pure ⟨rfl, rfl⟩

omit hrun in
/-- The two sides of a ratio are words, which no renaming touches. -/
theorem ratioMeaning_alike (ha : a.role L.style = .word) (hb : b.role L.style = .word) :
    L.Spells Same (ratioMeaning [a, b]) (ratioMeaning [a.rename L.rename, b.rename L.rename]) := by
  obtain ⟨m, s, rfl, hs⟩ := Tree.token_of_role ha L.rename
  obtain ⟨n, t, rfl, ht⟩ := Tree.token_of_role hb L.rename
  rw [hs, ht]
  refine lift_bind (Value.readInt_sane s _) fun left _ => ?_
  refine lift_bind (Value.readInt_sane t _) fun right _ => ?_
  exact lift_bind (chanceOf_sane left right) fun _ _ => pure ⟨rfl, rfl⟩

/-! ## Statements on runes -/

/-- A declaration writes the same value, under the renamed name on the other side. -/
theorem declareMeaning_alike {isSealed : Bool} (ha : a.role L.style = .name)
    (hb : b = .absent ∨ (b.role L.style).isPlain = true) :
    L.Spells Same (declareMeaning isSealed 1 run [c, a, b])
      (declareMeaning isSealed 1 run' [c.rename L.rename, a.rename L.rename, b.rename L.rename]) :=
  by
  refine bind (hrun.key ha) ?_
  rintro x _ ⟨hx, rfl⟩
  refine bind (find? hx) ?_
  rintro found _ rfl
  refine check (.renamed rfl) ?_
  cases b with
  | absent => exact bind (Spells.write hx fun _ => ⟨rfl, rfl⟩) fun _ _ _ => pure ⟨rfl, rfl⟩
  | node _ _ | token _ _ =>
    refine bind (hrun.plain (hb.resolve_left nofun)) ?_
    rintro d _ ⟨rfl, -⟩
    refine lift_bind d.toValue_sane fun v _ => ?_
    exact bind (Spells.write hx nofun) fun _ _ _ => pure ⟨rfl, rfl⟩

theorem assignMeaning_alike (ha : a.role L.style = .name) (hb : (b.role L.style).isPlain = true) :
    L.Spells Same (assignMeaning run [a, b])
    (assignMeaning run' [a.rename L.rename, b.rename L.rename]) := by
  refine bind (hrun.name ha) ?_
  rintro _ _ ⟨x, hx, rfl, rfl⟩
  refine bind (hrun.plain hb) ?_
  rintro d _ ⟨rfl, -⟩
  refine bind (D := L.Keys) (pure ⟨hx, rfl⟩) ?_
  rintro x _ ⟨hx, rfl⟩
  refine bind (changeable hx) fun _ _ _ => ?_
  refine lift_bind d.toValue_sane fun v _ => ?_
  exact bind (Spells.modify hx fun _ _ => nofun) fun _ _ _ => pure ⟨rfl, rfl⟩

/-- A rune is dispelled together with its renaming. -/
theorem dispelMeaning_alike (hb : b.role L.style = .name) :
    L.Spells Same (dispelMeaning run [a, b])
    (dispelMeaning run' [a.rename L.rename, b.rename L.rename]) := by
  refine bind (hrun.key hb) ?_
  rintro x _ ⟨hx, rfl⟩
  refine bind (written hx) fun _ _ _ => ?_
  exact bind (Spells.dispel hx) fun _ _ _ => pure ⟨rfl, rfl⟩

theorem sealMeaning_alike (hb : b.role L.style = .name) :
    L.Spells Same (sealMeaning run [a, b])
    (sealMeaning run' [a.rename L.rename, b.rename L.rename]) := by
  refine bind (hrun.key hb) ?_
  rintro x _ ⟨hx, rfl⟩
  refine bind (changeable hx) fun _ _ _ => ?_
  exact bind (Spells.modify hx fun _ he => he) fun _ _ _ => pure ⟨rfl, rfl⟩

omit hrun in
theorem heldDatum_isOrdinary (v : Option Value) : (heldDatum v).isOrdinary = true := by
  cases v <;> rfl

/-- A step up or down changes a rune and its renaming by the same. -/
theorem stepMeaning_alike (ha : a.role L.style = .name) (hb : (b.role L.style).isPlain = true) :
    L.Spells Same (stepMeaning run [a, b])
    (stepMeaning run' [a.rename L.rename, b.rename L.rename]) := by
  refine bind (hrun.key ha) ?_
  rintro x _ ⟨hx, rfl⟩
  refine bind (changeable hx) fun _ _ _ => ?_
  refine bind (hrun.plain hb) ?_
  rintro op _ ⟨rfl, hop⟩
  refine bind (known hx) ?_
  rintro e _ rfl
  refine lift_bind (Datum.isNumber_sane _) fun isNumber _ => ?_
  dsimp only
  split
  · exact lift_bind (Datum.text_sane hop) fun _ _ => finish (.failed (.refl rfl))
  · refine lift_bind (operatorText_sane hop) fun op _ => ?_
    split
    · exact fail (.refl rfl)
    · refine lift_bind (Datum.operate_fine _ (heldDatum_isOrdinary _) rfl) fun r _ => ?_
      refine lift_bind r.toValue_sane fun v _ => ?_
      exact bind (Spells.modify hx fun _ _ => nofun) fun _ _ _ => pure ⟨rfl, rfl⟩

theorem compoundMeaning_alike (ha : a.role L.style = .name) (hb : (b.role L.style).isPlain = true)
    (hc : (c.role L.style).isPlain = true) :
    L.Spells Same (compoundMeaning run [a, b, c])
      (compoundMeaning run' [a.rename L.rename, b.rename L.rename, c.rename L.rename]) := by
  refine bind (hrun.key ha) ?_
  rintro x _ ⟨hx, rfl⟩
  refine bind (changeable hx) fun _ _ _ => ?_
  refine bind (hrun.plain hb) ?_
  rintro op _ ⟨rfl, hop⟩
  refine bind (hrun.plain hc) ?_
  rintro other _ ⟨rfl, hother⟩
  refine bind (known hx) ?_
  rintro e _ rfl
  refine lift_bind (Datum.isNumber_sane _) fun isNumber _ => ?_
  refine lift_bind other.kind_sane fun kind _ => ?_
  dsimp only
  split
  · exact lift_bind (Datum.text_sane hop) fun _ _ => finish (.failed (.refl rfl))
  · refine lift_bind (operatorText_sane hop) fun op _ => ?_
    split
    · exact fail (.refl rfl)
    · refine lift_bind (Datum.content_sane _) fun v _ => ?_
      refine lift_bind other.content_sane fun w _ => ?_
      refine lift_bind (Calculation.apply_sane _ v w) fun u _ => ?_
      exact bind (Spells.modify hx fun _ _ => nofun) fun _ _ _ => pure ⟨rfl, rfl⟩

/-! ## Incantations -/

omit hrun in
/-- The arguments of a cast are plain trees, or there are none. -/
theorem arguments_alike (h : a.role L.style = .values ∨ a = .absent) :
    L.Spells (fun ts ts' => (∀ t ∈ ts, (t.role L.style).isPlain = true) ∧
      ts' = Tree.renameAll L.rename ts) (members a) (members (a.rename L.rename)) := by
  rcases h with h | rfl
  · obtain ⟨f, ts, rfl, hfits, hf⟩ := Tree.form_of_role (.inr (.inl h))
    rw [h] at hf
    cases f <;> cases hf
    exact pure ⟨Tree.forall_role.mp hfits, rfl⟩
  · exact pure ⟨by simp, rfl⟩

omit hrun in
/-- The parameters of an incantation are names, or there are none. -/
theorem parameters_alike (h : a.role L.style = .names ∨ a = .absent) :
    L.Spells (fun ts ts' => (∀ t ∈ ts, t.role L.style = .name) ∧ ts' = Tree.renameAll L.rename ts)
      (members a) (members (a.rename L.rename)) := by
  rcases h with h | rfl
  · obtain ⟨f, ts, rfl, hfits, hf⟩ := Tree.form_of_role (.inr (.inr h))
    rw [h] at hf
    cases f <;> cases hf
    exact pure ⟨fun t ht => eq_of_beq (Tree.forall_role.mp hfits t ht), rfl⟩
  · exact pure ⟨by simp, rfl⟩

/-- The names of a list are allowed ones, and those of the renamed list are their renamings. -/
theorem runKeys_alike (h : ∀ t ∈ ts, t.role L.style = .name) :
    L.Spells (fun xs xs' => (∀ x ∈ xs, L.style.allows x = true) ∧ xs' = xs.map L.rename)
      (runKeys run ts) (runKeys run' (Tree.renameAll L.rename ts)) := by
  induction ts with
  | nil => exact pure ⟨by simp, rfl⟩
  | cons t ts ih =>
    refine bind (hrun.name (h t List.mem_cons_self)) ?_
    rintro _ _ ⟨x, hx, rfl, rfl⟩
    refine bind (D := L.Keys) (pure ⟨hx, rfl⟩) ?_
    rintro x _ ⟨hx, rfl⟩
    refine bind (ih fun t ht => h t (List.mem_cons_of_mem _ ht)) ?_
    rintro xs _ ⟨hxs, rfl⟩
    exact pure ⟨List.forall_mem_cons.mpr ⟨hx, hxs⟩, rfl⟩

/-- An incantation keeps its body as a tree, and the other side keeps the renamed body. -/
theorem incantationMeaning_alike {w : Tree} (ha : a.role L.style = .name)
    (hb : b.role L.style = .names ∨ b = .absent) (hc : c.role L.style = .deed) :
    L.Spells Same (incantationMeaning run [w, a, b, c])
      (incantationMeaning run' [w.rename L.rename, a.rename L.rename, b.rename L.rename,
        c.rename L.rename]) := by
  refine bind (hrun.name ha) ?_
  rintro _ _ ⟨x, hx, rfl, rfl⟩
  refine bind (parameters_alike hb) ?_
  rintro ts _ ⟨hts, rfl⟩
  refine bind (runKeys_alike hrun hts) ?_
  rintro parameters _ ⟨hparameters, rfl⟩
  refine bind (D := L.Keys) (pure ⟨hx, rfl⟩) ?_
  rintro x _ ⟨hx, rfl⟩
  refine bind (D := fun i i' => i.isSome = i'.isSome) (look fun m m' hm => ?_) ?_
  · rw [L.lookup hm.book hx, Option.isSome_map]
  · rintro i i' hi
    rw [hi]
    refine check (.renamed rfl) ?_
    refine bind (change fun _ _ hm => { hm with book := ?_ }) fun _ _ _ => pure ⟨rfl, rfl⟩
    exact L.put hm.book hx hparameters hc

omit hrun in
/-- The same data are bound to the parameters and to the renamed parameters. -/
theorem bindArguments_alike {names : List String} (ds : List Datum)
    (h : ∀ x ∈ names, L.style.allows x = true) :
    L.Spells (fun _ _ => True) (bindArguments names ds)
    (bindArguments (names.map L.rename) ds) := by
  induction names generalizing ds with
  | nil => exact pure trivial
  | cons x names ih =>
    cases ds with
    | nil => exact pure trivial
    | cons d ds =>
      refine lift_bind d.toValue_sane fun v _ => ?_
      refine bind (Spells.write (h x List.mem_cons_self) nofun) fun _ _ _ => ?_
      exact ih ds fun x hx => h x (List.mem_cons_of_mem _ hx)

omit hrun in
/-- A body is cast alike at depths that correspond. -/
theorem castBody_alike {x y : Spell Datum} {depth depth' : Nat} (hdepth : L.depths depth depth')
    (h : L.Spells Same x y) : L.Spells Same (castBody x depth) (castBody y depth') := by
  refine bind (attempt h) fun e e' he => ?_
  refine bind (change fun _ _ hm => { hm with scope := L.leaveTo hm.scope hdepth }) fun _ _ _ => ?_
  cases he with
  | done h => exact pure ⟨rfl, rfl⟩
  | proclaimed h => exact pure ⟨rfl, h⟩
  | shattered => exact finish .shattered
  | persisted => exact finish .persisted
  | failed h => exact fail h
  | exhausted => exact finish .exhausted

/-- A cast on the other side finds the renamed incantation and runs its renamed body. -/
theorem castMeaning_alike {w : Tree} (ha : a.role L.style = .name)
    (hb : b.role L.style = .values ∨ b = .absent) :
    L.Spells Same (castMeaning run [w, a, b])
      (castMeaning run' [w.rename L.rename, a.rename L.rename, b.rename L.rename]) := by
  refine bind (hrun.key ha) ?_
  rintro x _ ⟨hx, rfl⟩
  refine bind (look (D := fun i i' => i' = i.map (Incantation.rename L.rename) ∧ ∀ j, i = some j →
    (∀ p ∈ j.parameters, L.style.allows p = true) ∧ j.body.role L.style = .deed)
    fun m m' hm => ⟨L.lookup hm.book hx, fun j => L.fitting hm.book⟩) ?_
  rintro i _ ⟨rfl, hfitting⟩
  cases i with
  | none => exact fail (.renamed rfl)
  | some i =>
    obtain ⟨hparameters, hbody⟩ := hfitting i rfl
    refine bind (arguments_alike hb) ?_
    rintro ts _ ⟨hts, rfl⟩
    refine bind (runAll_alike hrun hts) ?_
    rintro ds _ ⟨rfl, -, -⟩
    simp only [Incantation.rename, List.length_map]
    refine check (.renamed rfl) ?_
    refine bind (look fun m m' hm => L.length hm.scope) fun depth depth' hdepth => ?_
    refine bind (change fun _ _ hm => { hm with scope := L.enter hm.scope }) fun _ _ _ => ?_
    refine bind (bindArguments_alike ds hparameters) fun _ _ _ => ?_
    exact castBody_alike hdepth (hrun.plain (by rw [hbody]; rfl))

/-- A proclamation of nothing is one that only a lax style has, and there the absent tree has to be
run alike. -/
theorem proclaimMeaning_alike (hb : (b.role L.style).isPlain = true ∨ b = .absent ∧
    L.style.strict = false)
    (habsent : L.style.strict = false → L.Spells Same (run .absent) (run' .absent)) :
    L.Spells Same (proclaimMeaning run [a, b])
      (proclaimMeaning run' [a.rename L.rename, b.rename L.rename]) := by
  have hb : L.Spells Same (run b) (run' (b.rename L.rename)) := by
    rcases hb with hb | ⟨rfl, hlax⟩
    · exact hrun.plain hb
    · exact habsent hlax
  refine bind hb ?_
  rintro d _ ⟨rfl, hd⟩
  exact finish (.proclaimed hd)

/-! ## Programs -/

/-- The deeds that are picked by whether they declare are the same ones on both sides. -/
theorem runWhere_alike (declarations : Bool) (h : ∀ t ∈ ts, t.role L.style = .deed) :
    L.Spells Same (runWhere declarations run ts)
      (runWhere declarations run' (Tree.renameAll L.rename ts)) := by
  induction ts with
  | nil => exact pure ⟨rfl, rfl⟩
  | cons t ts ih =>
    have hts := ih fun t ht => h t (List.mem_cons_of_mem _ ht)
    have ht : t.role L.style = .deed := h t List.mem_cons_self
    obtain ⟨f, ps, rfl, -, -⟩ := Tree.form_of_role (.inl ht)
    refine lift_bind (P := fun _ => True) (.ok trivial) fun isOne _ => ?_
    dsimp only
    split
    · exact bind (hrun.plain (by rw [ht]; rfl)) fun _ _ _ => hts
    · exact hts

/-- A program runs its incantations first and then its other deeds, on both sides. -/
theorem programMeaning_alike (h : ∀ t ∈ ts, t.role L.style = .deed) :
    L.Spells Same (programMeaning run ts) (programMeaning run' (Tree.renameAll L.rename ts)) :=
  bind (runWhere_alike hrun true h) fun _ _ _ => runWhere_alike hrun false h

/-! ## Cycles -/

section Turns

variable {D : Datum → Datum → Prop} {body body' : Spell Datum} {x : String}

omit hrun

/-- A turn that ends a cycle on one side ends it on the other. -/
theorem goesOn_alike (h : L.Spells D body body') : L.Spells Eq (goesOn body) (goesOn body') := by
  refine bind (attempt h) fun e e' he => ?_
  cases he with
  | done _ => exact pure rfl
  | proclaimed h => exact finish (.proclaimed h)
  | shattered => exact pure rfl
  | persisted => exact pure rfl
  | failed h => exact fail h
  | exhausted => exact finish .exhausted

theorem stepRange_alike (step : Value) (hx : L.style.allows x = true) :
    L.Spells (fun _ _ => True) (stepRange x step) (stepRange (L.rename x) step) := by
  refine bind (known hx) ?_
  rintro e _ rfl
  refine bind (Spells.modify hx fun e he hvalue => ⟨(he hvalue).1, hvalue⟩) fun _ _ _ => ?_
  refine lift_bind (P := fun _ => True) ?_ fun v _ => ?_
  · exact Fallible.Sane.bind (Datum.operateInPlace_sane .plus (heldDatum_isOrdinary _) rfl)
      fun d => d.toValue_sane
  · exact Spells.modify hx fun _ _ => nofun

/-- The turns of a range go on for as long on both sides, by induction on the fuel. -/
theorem rangeTurns_alike (stop step : Value) (fuel : Nat) (hbody : L.Spells D body body')
    (hx : L.style.allows x = true) :
    L.Spells (fun _ _ => True) (rangeTurns body x stop step fuel)
      (rangeTurns body' (L.rename x) stop step fuel) := by
  induction fuel with
  | zero => exact finish .exhausted
  | succ fuel ih =>
    refine bind (known hx) ?_
    rintro e _ rfl
    refine lift_bind (Datum.compare_sane _ _ _) fun isBelow _ => ?_
    split
    · refine bind (goesOn_alike hbody) ?_
      rintro isOn _ rfl
      split
      · exact bind (stepRange_alike step hx) fun _ _ _ => ih
      · exact pure trivial
    · exact pure trivial

/-- The condition of a cycle is asked alike before each turn, by induction on the fuel. -/
theorem lestTurns_alike {condition condition' : Spell Datum} (fuel : Nat)
    (hcondition : L.Spells Same condition condition') (hbody : L.Spells D body body') :
    L.Spells (fun _ _ => True) (lestTurns condition body fuel)
    (lestTurns condition' body' fuel) := by
  induction fuel with
  | zero => exact finish .exhausted
  | succ fuel ih =>
    refine bind hcondition ?_
    rintro d _ ⟨rfl, -⟩
    refine lift_bind d.truth_sane fun isTrue _ => ?_
    split
    · refine bind (goesOn_alike hbody) ?_
      rintro isOn _ rfl
      split
      · exact ih
      · exact pure trivial
    · exact pure trivial

theorem endlessTurns_alike (fuel : Nat) (hbody : L.Spells D body body') :
    L.Spells (fun _ _ => True) (endlessTurns body fuel) (endlessTurns body' fuel) := by
  induction fuel with
  | zero => exact finish .exhausted
  | succ fuel ih =>
    refine bind (goesOn_alike hbody) ?_
    rintro isOn _ rfl
    split
    · exact ih
    · exact pure trivial

/-- The characters of a text are taken one by one on both sides, by induction on the characters. -/
theorem eachTurn_alike (cs : List Char) (hbody : L.Spells D body body')
    (hx : L.style.allows x = true) :
    L.Spells (fun _ _ => True) (eachTurn body x cs) (eachTurn body' (L.rename x) cs) := by
  induction cs with
  | nil => exact pure trivial
  | cons c cs ih =>
    refine bind (known hx) fun _ _ _ => ?_
    refine bind (Spells.modify hx fun _ _ => nofun) fun _ _ _ => ?_
    refine bind (goesOn_alike hbody) ?_
    rintro isOn _ rfl
    split
    · exact ih
    · exact pure trivial

/-- The first turn of a cycle over a text gives the rune that was just written its first value. -/
theorem write_eachTurn {α : Type} (e : Entry) (c : Char) (cs : List Char) (k : Unit → Spell α) :
    (Spell.write x e >>= fun _ => eachTurn body x (c :: cs) >>= k) =
      (Spell.write x (e.turn c) >>= fun _ =>
        (goesOn body >>= fun isOn => if isOn then eachTurn body x cs else Pure.pure ()) >>= k) := by
  funext m
  have hknown : Spell.known x { m with scope := m.scope.write x e } =
      (.done e, { m with scope := m.scope.write x e }) := by
    have hfind : (m.scope.write x e).find? x = some e := by
      rw [Scope.find?_write, if_pos rfl]
    rw [Spell.known_apply]
    simp only [hfind]
  have hturn : eachTurn body x (c :: cs) { m with scope := m.scope.write x e } =
      (goesOn body >>= fun isOn => if isOn then eachTurn body x cs else Pure.pure ())
        { m with scope := m.scope.write x (e.turn c) } := by
    rw [← Scope.modify_write_self (Entry.turn c), eachTurn, Spell.bind_of_done hknown]
    rfl
  calc (Spell.write x e >>= fun _ => eachTurn body x (c :: cs) >>= k) m
      = (eachTurn body x (c :: cs) >>= k) { m with scope := m.scope.write x e } := rfl
    _ = _ := by rw [Spell.bind_apply, Spell.bind, hturn]; rfl

end Turns

/-- A range is the same range, over the renamed rune on the other side. -/
theorem rangeMeaning_alike {d : Tree} (ha : a.role L.style = .name)
    (hb : (b.role L.style).isPlain = true) (hc : (c.role L.style).isPlain = true)
    (hd : d = .absent ∨ (d.role L.style).isPlain = true) :
    L.Spells (L.Data .range) (rangeMeaning run [a, b, c, d])
      (rangeMeaning run' [a.rename L.rename, b.rename L.rename, c.rename L.rename,
        d.rename L.rename]) := by
  refine bind (hrun.name ha) ?_
  rintro _ _ ⟨x, hx, rfl, rfl⟩
  refine bind (hrun.plain hb) ?_
  rintro start _ ⟨rfl, -⟩
  refine bind (hrun.plain hc) ?_
  rintro stop _ ⟨rfl, -⟩
  refine absentOr_alike hrun hd rfl fun step _ => ?_
  refine lift_bind start.toValue_sane fun start _ => ?_
  refine lift_bind stop.toValue_sane fun stop _ => ?_
  refine lift_bind step.toValue_sane fun step _ => ?_
  refine check (.refl rfl) ?_
  refine bind (D := L.Keys) (pure ⟨hx, rfl⟩) ?_
  rintro x _ ⟨hx, rfl⟩
  refine bind (find? hx) ?_
  rintro found _ rfl
  refine check (.renamed rfl) ?_
  exact pure ⟨_, hx, rfl, rfl⟩

theorem rangeCycleMeaning_alike (fuel : Nat) (hb : b.role L.style = .range)
    (hc : (c.role L.style).isPlain = true) :
    L.Spells Same (rangeCycleMeaning fuel run [a, b, c])
      (rangeCycleMeaning fuel run' [a.rename L.rename, b.rename L.rename, c.rename L.rename]) := by
  have hrange := hrun b (by rw [hb]; rfl)
  rw [hb] at hrange
  refine bind hrange ?_
  rintro _ _ ⟨r, hx, rfl, rfl⟩
  refine bind (D := fun s s' => L.style.allows s.name = true ∧
    s' = { s with name := L.rename s.name }) (pure ⟨hx, rfl⟩) ?_
  rintro r _ ⟨hx, rfl⟩
  refine bind (Spells.write hx nofun) fun _ _ _ => ?_
  refine bind (D := fun t t' => t = c ∧ t' = c.rename L.rename) (pure ⟨rfl, rfl⟩) ?_
  rintro _ _ ⟨rfl, rfl⟩
  refine bind (rangeTurns_alike r.stop r.step fuel (hrun.plain hc) hx) fun _ _ _ => ?_
  refine bind (known hx) fun _ _ _ => ?_
  exact bind (Spells.dispel hx) fun _ _ _ => pure ⟨rfl, rfl⟩

theorem endlessCycleMeaning_alike (fuel : Nat) {w w' w'' : Tree}
    (ha : (a.role L.style).isPlain = true) :
    L.Spells Same (endlessCycleMeaning fuel run [w, w', w'', a])
      (endlessCycleMeaning fuel run' [w.rename L.rename, w'.rename L.rename, w''.rename L.rename,
        a.rename L.rename]) := by
  refine bind (D := fun t t' => t = a ∧ t' = a.rename L.rename) (pure ⟨rfl, rfl⟩) ?_
  rintro _ _ ⟨rfl, rfl⟩
  exact bind (endlessTurns_alike fuel (hrun.plain ha)) fun _ _ _ => pure ⟨rfl, rfl⟩

theorem lestCycleMeaning_alike (fuel : Nat) {w w' : Tree} (ha : (a.role L.style).isPlain = true)
    (hb : (b.role L.style).isPlain = true) :
    L.Spells Same (lestCycleMeaning fuel run [w, w', a, b])
      (lestCycleMeaning fuel run' [w.rename L.rename, w'.rename L.rename, a.rename L.rename,
        b.rename L.rename]) := by
  refine bind (D := fun t t' => t = b ∧ t' = b.rename L.rename) (pure ⟨rfl, rfl⟩) ?_
  rintro _ _ ⟨rfl, rfl⟩
  exact bind (lestTurns_alike fuel (hrun.plain ha) (hrun.plain hb)) fun _ _ _ => pure ⟨rfl, rfl⟩

omit hrun in
/-- Only a rune's text that is not empty has a first member with a kind. -/
theorem text_of_item {d first : Datum} {kind : Kind} (hd : d.isOrdinary = true)
    (hfirst : d.item (.bare (.int 0)) = .ok first) (hkind : first.kind = .ok kind) :
    ∃ s c cs, d = .rune (.text s) ∧ s.toList = c :: cs := by
  unfold Datum.item at hfirst
  split at hfirst
  · rename_i s
    refine ⟨s, ?_⟩
    cases hs : s.toList with
    | nil =>
      simp only [Datum.charAt, Datum.index?, Datum.member, hs] at hfirst
      cases hfirst
    | cons c cs => exact ⟨c, cs, rfl, rfl⟩
  · rename_i s
    -- the first character of a bare text is bare
    cases hchar : Datum.charAt s (.bare (.int 0)) with
    | error f => rw [hchar] at hfirst; cases hfirst
    | ok t => rw [hchar] at hfirst; cases hfirst; cases hkind
  · cases hd
  · cases hd
  · cases hfirst

theorem eachCycleMeaning_alike {w w' : Tree} (ha : a.role L.style = .name)
    (hb : (b.role L.style).isPlain = true) (hc : (c.role L.style).isPlain = true) :
    L.Spells Same (eachCycleMeaning run [w, a, w', b, c])
      (eachCycleMeaning run' [w.rename L.rename, a.rename L.rename, w'.rename L.rename,
        b.rename L.rename,
        c.rename L.rename]) := by
  refine bind (hrun.name ha) ?_
  rintro _ _ ⟨x, hx, rfl, rfl⟩
  refine bind (hrun.plain hb) ?_
  rintro d _ ⟨rfl, hd⟩
  refine bind (D := fun t t' => t = c ∧ t' = c.rename L.rename) (pure ⟨rfl, rfl⟩) ?_
  rintro _ _ ⟨rfl, rfl⟩
  refine bind (D := L.Keys) (pure ⟨hx, rfl⟩) ?_
  rintro x _ ⟨hx, rfl⟩
  refine bind (find? hx) ?_
  rintro found _ rfl
  refine check (.renamed rfl) ?_
  refine lift_bind d.length_sane fun length _ => ?_
  split
  · exact pure ⟨rfl, rfl⟩
  · refine lift_bind (Datum.item_sane _ hd) fun first hfirst => ?_
    refine lift_bind first.kind_sane fun kind hkind => ?_
    obtain ⟨s, ch, cs, rfl, hs⟩ := text_of_item hd hfirst hkind
    -- before its first turn the rune has a kind but no value; no run ever sees it so
    dsimp only
    rw [hs, write_eachTurn, write_eachTurn]
    refine bind (Spells.write hx nofun) fun _ _ _ => ?_
    refine bind (D := fun _ _ => True) (bind (goesOn_alike (hrun.plain hc)) ?_) fun _ _ _ =>
      pure ⟨rfl, rfl⟩
    rintro isOn _ rfl
    split
    · exact eachTurn_alike cs (hrun.plain hc) hx
    · exact pure trivial

/-! ## All forms -/

/-- **A form whose parts fit does alike if its parts do.** -/
theorem form_alike {f : Form} (fuel : Nat) (h : f.fits L.style (Tree.roles L.style ts) = true)
    (hf : f.role.isRun = true)
    (habsent : L.style.strict = false → L.Spells Same (run .absent) (run' .absent)) :
    L.Spells (L.Data f.role) (f.meaning fuel run ts)
    (f.meaning fuel run' (Tree.renameAll L.rename ts)) := by
  cases f with
  | start => exact programMeaning_alike hrun fun t ht => eq_of_beq (Tree.forall_role.mp h t ht)
  | declarations => cases h
  | block => exact runEach_alike hrun (Tree.forall_role.mp h)
  | foretell => exact branches_alike hrun h
  | interpolation => exact interpolationMeaning_alike hrun h
  | listen =>
    refine bind listen ?_
    rintro line _ rfl
    exact pure ⟨rfl, rfl⟩
  -- one part
  | interrupt =>
    obtain ⟨a, rfl, ha⟩ := Seat.one h
    exact bind (hrun.plain ha) fun _ _ _ => pure ⟨rfl, rfl⟩
  | negative =>
    obtain ⟨a, rfl, ha⟩ := Seat.one h
    exact negativeMeaning_alike hrun ha
  | group =>
    obtain ⟨a, rfl, ha⟩ := Seat.one h
    exact groupMeaning_alike hrun ha
  | name =>
    obtain ⟨a, rfl, ha⟩ := Seat.one h
    exact nameMeaning_alike hrun (Seat.eq_of_admits_role ha)
  | rune =>
    obtain ⟨a, rfl, ha⟩ := Seat.one h
    exact runeMeaning_alike hrun (Seat.eq_of_admits_role ha)
  -- two parts
  | past =>
    obtain ⟨a, b, rfl, ha, -⟩ := Seat.two h
    exact pastMeaning_alike hrun (Seat.eq_of_admits_role ha)
  | assign =>
    obtain ⟨a, b, rfl, ha, hb⟩ := Seat.two h
    exact assignMeaning_alike hrun (Seat.eq_of_admits_role ha) hb
  | dispel =>
    obtain ⟨a, b, rfl, -, hb⟩ := Seat.two h
    exact dispelMeaning_alike hrun (Seat.eq_of_admits_role hb)
  | sealRune =>
    obtain ⟨a, b, rfl, -, hb⟩ := Seat.two h
    exact sealMeaning_alike hrun (Seat.eq_of_admits_role hb)
  | step =>
    obtain ⟨a, b, rfl, ha, hb⟩ := Seat.two h
    exact stepMeaning_alike hrun (Seat.eq_of_admits_role ha) hb
  | proclaim =>
    obtain ⟨a, b, rfl, -, hb⟩ := Seat.two h
    exact proclaimMeaning_alike (a := a) hrun (Seat.proclaimed_cases hb) habsent
  | ratio =>
    obtain ⟨a, b, rfl, ha, hb⟩ := Seat.two h
    exact ratioMeaning_alike (eq_of_beq ha) (eq_of_beq hb)
  | denial =>
    obtain ⟨a, b, rfl, -, hb⟩ := Seat.two h
    exact denialMeaning_alike hrun hb
  | measure =>
    obtain ⟨a, b, rfl, -, hb⟩ := Seat.two h
    exact measureMeaning_alike hrun hb
  | reveal =>
    obtain ⟨a, b, rfl, -, hb⟩ := Seat.two h
    exact revealMeaning_alike hrun hb
  | promptedListen =>
    obtain ⟨a, b, rfl, -, hb⟩ := Seat.two h
    exact promptedListenMeaning_alike hrun hb
  | rounding =>
    obtain ⟨a, b, rfl, ha, hb⟩ := Seat.two h
    exact roundingMeaning_alike hrun ha hb
  | power =>
    obtain ⟨a, b, rfl, ha, hb⟩ := Seat.two h
    exact powerMeaning_alike hrun ha hb
  | index =>
    obtain ⟨a, b, rfl, ha, hb⟩ := Seat.two h
    exact indexMeaning_alike hrun (Seat.eq_of_admits_role ha) hb
  -- three parts
  | declare =>
    obtain ⟨a, b, c, rfl, -, hb, hc⟩ := Seat.three h
    exact declareMeaning_alike hrun (Seat.eq_of_admits_role hb) (Seat.optional_cases hc)
  | compound =>
    obtain ⟨a, b, c, rfl, ha, hb, hc⟩ := Seat.three h
    exact compoundMeaning_alike hrun (Seat.eq_of_admits_role ha) hb hc
  | cast =>
    obtain ⟨a, b, c, rfl, -, hb, hc⟩ := Seat.three h
    exact castMeaning_alike hrun (Seat.eq_of_admits_role hb) (Seat.optionalRole_cases hc)
  | rangeCycle =>
    obtain ⟨a, b, c, rfl, -, hb, hc⟩ := Seat.three h
    exact rangeCycleMeaning_alike hrun fuel (Seat.eq_of_admits_role hb) hc
  | either =>
    obtain ⟨a, b, c, rfl, ha, -, hc⟩ := Seat.three h
    exact eitherMeaning_alike hrun ha hc
  | both =>
    obtain ⟨a, b, c, rfl, ha, -, hc⟩ := Seat.three h
    exact bothMeaning_alike hrun ha hc
  | comparison =>
    obtain ⟨a, b, c, rfl, ha, hb, hc⟩ := Seat.three h
    exact comparisonMeaning_alike hrun ha hb hc
  | sum =>
    obtain ⟨a, b, c, rfl, ha, hb, hc⟩ := Seat.three h
    exact sumMeaning_alike hrun ha hb hc
  | product =>
    obtain ⟨a, b, c, rfl, ha, hb, hc⟩ := Seat.three h
    exact productMeaning_alike hrun ha hb hc
  | part =>
    match ts with
    | [] => cases h
    | [a] => exact proseMeaning_alike hrun (eq_of_beq h)
    | a :: b :: ts =>
      have h : Seat.admitAll L.style [.plain, .plain, .plain] (Tree.roles L.style (a :: b :: ts)) =
          true := h
      obtain ⟨_, _, c, habc, ha, hb, hc⟩ := Seat.three h
      cases habc
      exact partMeaning_alike hrun ha hb hc
  -- more parts
  | declareSealed =>
    obtain ⟨a, b, c, d, rfl, -, -, hc, hd⟩ := Seat.four h
    -- a sealed declaration has one word more in front, which is not looked at
    exact declareMeaning_alike (c := b) hrun (Seat.eq_of_admits_role hc) (Seat.optional_cases hd)
  | incantation =>
    obtain ⟨a, b, c, d, rfl, -, hb, hc, hd⟩ := Seat.four h
    exact incantationMeaning_alike hrun (Seat.eq_of_admits_role hb) (Seat.optionalRole_cases hc)
      (Seat.eq_of_admits_role hd)
  | endlessCycle =>
    obtain ⟨a, b, c, d, rfl, -, -, -, hd⟩ := Seat.four h
    exact endlessCycleMeaning_alike hrun fuel hd
  | lestCycle =>
    obtain ⟨a, b, c, d, rfl, -, -, hc, hd⟩ := Seat.four h
    exact lestCycleMeaning_alike hrun fuel hc hd
  | range =>
    obtain ⟨a, b, c, d, rfl, ha, hb, hc, hd⟩ := Seat.four h
    exact rangeMeaning_alike hrun (Seat.eq_of_admits_role ha) hb hc (Seat.optional_cases hd)
  | transmute =>
    obtain ⟨a, b, c, d, rfl, -, hb, -, hd⟩ := Seat.four h
    exact transmuteMeaning_alike hrun hb hd
  | mayhaps =>
    obtain ⟨a, b, c, d, e, rfl, -, hb, hc, -, -⟩ := Seat.five h
    exact mayhapsMeaning_alike hrun (Seat.optional_cases hb) hc
  | eachCycle =>
    obtain ⟨a, b, c, d, e, rfl, -, hb, -, hd, he⟩ := Seat.five h
    exact eachCycleMeaning_alike hrun (Seat.eq_of_admits_role hb) hd he
  -- trees that are not run, or have no meaning
  | yore | parameters | arguments => cases hf
  | collection | tome | tomeContents =>
    have hlax : L.style.strict = false := by simpa [Form.fits] using h
    exact fail ⟨.inl rfl, fun hstrict => by simp [hlax] at hstrict⟩

end Forms

/-! ## Whole runs -/

/-- A name that is allowed is read as its renaming on the other side. -/
theorem nameWord_alike {x : String} (hx : L.style.allows x = true) :
    L.Spells (L.Data .nameWord) (liftM (nameWord x) : Spell Datum)
    (liftM (nameWord (L.rename x)) : Spell Datum) := by
  rw [nameWord, nameWord, L.keyword hx]
  split
  · exact .fail (.renamed rfl)
  · exact .pure ⟨x, hx, rfl, rfl⟩

/-- A token means the same on both sides, but for a name, which means its renaming. -/
theorem tokenMeaning_alike {t : Terminal} {s : String} (h : (t.role L.style s).isRun = true) :
    L.Spells (L.Data (t.role L.style s)) (tokenMeaning t s)
      (tokenMeaning t (if Mark.terminal t = .terminal .name then L.rename s else s)) := by
  by_cases ht : t = .name
  · subst ht
    simp only [Terminal.role, Terminal.use] at h ⊢
    split at h
    · rename_i hs
      rw [if_pos hs]
      exact nameWord_alike hs
    · cases h
  · rw [if_neg (fun h => ht (Mark.terminal.inj h))]
    have huse : t.use ≠ .name := fun h => ht (Terminal.eq_name_of_use h)
    unfold tokenMeaning
    unfold Terminal.role at h ⊢
    cases hu : t.use with
    | name => exact absurd hu huse
    | none => rw [hu] at h; cases h
    | ownText =>
      dsimp only
      split
      · rename_i hs
        exact .pure ⟨rfl, congrArg Datum.word hs⟩
      · exact .pure ⟨rfl, rfl⟩
    | nothing => exact .pure ⟨rfl, rfl⟩
    | shatter => exact .finish .shattered
    | persist => exact .finish .persisted
    | prose => exact .lift ((literalText_fine s).mono fun _ h => ⟨rfl, h⟩)
    | literal kind =>
      cases kind with
      | int => exact .lift_bind (Value.readInt_sane _ _) fun _ _ => .pure ⟨rfl, rfl⟩
      | float => exact .lift_bind (Value.readFloat_sane _ _) fun _ _ => .pure ⟨rfl, rfl⟩
      | truth => exact .pure ⟨rfl, rfl⟩
      | text =>
        refine .lift ((literalText_fine _).mono ?_)
        rintro _ ⟨u, rfl⟩
        exact ⟨rfl, rfl⟩

/-- **A tree that fits and the renamed tree do alike**, with any fuel. -/
theorem meaning_alike (L : Likeness) (fuel : Nat) :
    L.Runs (Tree.meaning fuel) (Tree.meaning fuel) := by
  induction fuel with
  | zero => exact fun _ _ => .finish .exhausted
  | succ fuel ih =>
    intro t ht
    cases t with
    | absent => cases ht
    | token mark text =>
      cases mark with
      | terminal t => exact tokenMeaning_alike ht
      | other name => cases ht
    | node label ts =>
      cases label with
      | other name => cases ht
      | form f =>
        rw [Tree.role] at ht ⊢
        split at ht
        · rename_i hfits
          rw [if_pos hfits]
          refine form_alike ih fuel hfits ht fun hlax => ?_
          cases fuel with
          | zero => exact .finish .exhausted
          | succ fuel => exact .fail ⟨.inl rfl, fun hstrict => by simp [hlax] at hstrict⟩
        · cases ht

end Likeness

end Spellbook
