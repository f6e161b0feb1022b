import Spellbook.Proofs.Law

/-!
# Forms that pass on what their parts do

For most kinds of node the meaning has every inherited property that the meanings of the parts have:
expressions, choices, blocks, speech and programs do nothing but run their parts and look at the
results (`Form.isPlain`). Tokens and other trees touch nothing either. To keep a sequential law is
such a property.

The induction over whole runs is here as well (`Tree.meaning_inherits_of_forms`). A theorem about
every run is then a property or a law, a check of the words, and a look at the forms that are not
plain.
-/

namespace Spellbook

section Plain

variable {P : (α : Type) → Spell α → Prop} (hP : Spell.Inherited P) {run : Run} {parts : List Tree}
  (h : ∀ t ∈ parts, P _ (run t))

/-! ## Running parts -/

section
include hP

/-- A form that asks for a part inherits what it inherits for each part in that place. -/
theorem part_bind_inherits {α : Type} {n : Nat} {k : Tree → Spell α}
    (hk : ∀ t, parts[n]? = some t → P _ (k t)) : P _ (part parts n >>= k) := by
  unfold part
  cases ht : parts[n]? with
  | none => exact hP.fail _
  | some t => exact hk t ht

/-- The run of a part inherits what the tree in that place does. -/
theorem runPart_inherits_at {n : Nat} (hn : ∀ t, parts[n]? = some t → P _ (run t)) :
    P _ (runPart run parts n) :=
  part_bind_inherits hP hn

/-- A part that may be left out stands for a datum of its own if it is. -/
theorem absentOr_inherits {t : Tree} {d : Datum} {k : Datum → Spell Datum} (ht : P _ (run t))
    (hk : ∀ d, P _ (k d)) : P _
      (match t with
        | .absent => (Pure.pure d : Spell Datum) >>= k
        | t => run t >>= k) := by
  split
  · exact hP.bind (hP.pure _) hk
  · exact hP.bind ht hk

include h

theorem runPart_inherits (n : Nat) : P _ (runPart run parts n) :=
  runPart_inherits_at hP fun t ht => h t (List.mem_of_getElem? ht)

theorem runKey_inherits (n : Nat) : P _ (runKey run parts n) :=
  hP.bind (runPart_inherits hP h n) fun _ => hP.lift _

theorem runValue_inherits (n : Nat) : P _ (runValue run parts n) :=
  hP.bind (runPart_inherits hP h n) fun _ => hP.lift _

theorem runAll_inherits : P _ (runAll run parts) := by
  induction parts with
  | nil => exact hP.pure _
  | cons t ts ih =>
      refine hP.bind (h t List.mem_cons_self) fun d => ?_
      refine hP.bind (ih fun t ht => h t (List.mem_cons_of_mem _ ht)) fun ds => ?_
      exact hP.pure _

theorem runThree_inherits : P _ (runThree run parts) := by
  refine hP.bind (runAll_inherits hP h) fun ds => ?_
  split
  · exact hP.pure _
  · split
    · exact hP.fail _
    · exact hP.fail _

theorem runEach_inherits : P _ (runEach run parts) := by
  induction parts with
  | nil => exact hP.pure _
  | cons t ts ih =>
      refine hP.bind (h t List.mem_cons_self) fun _ => ?_
      exact ih fun t ht => h t (List.mem_cons_of_mem _ ht)

theorem runWhere_inherits (declarations : Bool) : P _ (runWhere declarations run parts) := by
  induction parts with
  | nil => exact hP.pure _
  | cons t ts ih =>
      have hts : P _ (runWhere declarations run ts) :=
        ih fun t ht => h t (List.mem_cons_of_mem _ ht)
      refine hP.bind (hP.lift _) fun isOne => ?_
      dsimp only
      split
      · exact hP.bind (h t List.mem_cons_self) fun _ => hts
      · exact hts

theorem programMeaning_inherits : P _ (programMeaning run parts) :=
  hP.bind (runWhere_inherits hP h true) fun _ => runWhere_inherits hP h false

/-! ## Operators -/

theorem sumMeaning_inherits : P _ (sumMeaning run parts) := by
  refine hP.bind (runThree_inherits hP h) fun ⟨a, op, b⟩ => ?_
  refine hP.bind (hP.lift _) fun a => ?_
  refine hP.bind (hP.lift _) fun b => ?_
  refine hP.check ?_
  refine hP.bind (hP.lift _) fun op => ?_
  split
  · exact hP.fail _
  · exact hP.bind (hP.lift _) fun _ => hP.pure _

theorem productMeaning_inherits : P _ (productMeaning run parts) := by
  refine hP.bind (runThree_inherits hP h) fun ⟨a, op, b⟩ => ?_
  refine hP.bind (hP.lift _) fun a => ?_
  refine hP.bind (hP.lift _) fun b => ?_
  refine hP.bind (hP.lift _) fun op => ?_
  split
  · exact hP.fail _
  · exact hP.bind (hP.lift _) fun _ => hP.pure _

theorem powerMeaning_inherits : P _ (powerMeaning run parts) := by
  refine hP.bind (runPart_inherits hP h 0) fun a => ?_
  refine hP.bind (runPart_inherits hP h 1) fun b => ?_
  refine hP.bind (hP.lift _) fun a => ?_
  refine hP.bind (hP.lift _) fun b => ?_
  exact hP.lift _

theorem eitherMeaning_inherits : P _ (eitherMeaning run parts) := by
  refine hP.bind (runPart_inherits hP h 0) fun a => ?_
  refine hP.bind (runPart_inherits hP h 2) fun b => ?_
  refine hP.bind (hP.lift _) fun a => ?_
  refine hP.bind (hP.lift _) fun b => ?_
  refine hP.bind (hP.lift _) fun isTrue => ?_
  split
  · exact hP.pure _
  · exact hP.bind (hP.lift _) fun _ => hP.pure _

theorem bothMeaning_inherits : P _ (bothMeaning run parts) := by
  refine hP.bind (runPart_inherits hP h 0) fun a => ?_
  refine hP.bind (runPart_inherits hP h 2) fun b => ?_
  refine hP.bind (hP.lift _) fun a => ?_
  refine hP.bind (hP.lift _) fun b => ?_
  refine hP.bind (hP.lift _) fun isTrue => ?_
  split
  · exact hP.bind (hP.lift _) fun _ => hP.pure _
  · exact hP.pure _

theorem comparisonMeaning_inherits : P _ (comparisonMeaning run parts) := by
  refine hP.bind (runThree_inherits hP h) fun ⟨a, op, b⟩ => ?_
  refine hP.bind (hP.lift _) fun op => ?_
  split
  · exact hP.fail _
  · exact hP.bind (hP.lift _) fun _ => hP.pure _

theorem groupMeaning_inherits : P _ (groupMeaning run parts) :=
  hP.bind (runValue_inherits hP h 0) fun _ => hP.pure _

theorem negativeMeaning_inherits : P _ (negativeMeaning run parts) :=
  hP.bind (runValue_inherits hP h 0) fun _ => hP.lift _

theorem roundingMeaning_inherits : P _ (roundingMeaning run parts) := by
  refine hP.bind (runPart_inherits hP h 0) fun op => ?_
  refine hP.bind (runPart_inherits hP h 1) fun d => ?_
  refine hP.bind (hP.lift _) fun op => ?_
  split
  · exact hP.fail _
  · refine hP.bind (hP.lift _) fun v => ?_
    exact hP.bind (hP.lift _) fun _ => hP.pure _

theorem denialMeaning_inherits : P _ (denialMeaning run parts) := by
  refine hP.bind (runValue_inherits hP h 1) fun v => ?_
  exact hP.bind (hP.lift _) fun _ => hP.pure _

theorem measureMeaning_inherits : P _ (measureMeaning run parts) := by
  refine hP.bind (runPart_inherits hP h 1) fun d => ?_
  exact hP.bind (hP.lift _) fun _ => hP.pure _

/-! ## Runes that are looked at -/

theorem indexMeaning_inherits : P _ (indexMeaning run parts) := by
  refine hP.bind (runPart_inherits hP h 0) fun name => ?_
  refine hP.bind (runPart_inherits hP h 1) fun index => ?_
  refine hP.bind (hP.lift _) fun name => ?_
  refine hP.bind (hP.known name) fun e => ?_
  split
  · refine hP.bind (hP.lift _) fun v => ?_
    exact hP.bind (hP.lift _) fun _ => hP.pure _
  · refine hP.bind (hP.lift _) fun kind => ?_
    exact hP.bind (hP.lift _) fun _ => hP.fail _

theorem nameMeaning_inherits : P _ (nameMeaning run parts) := by
  refine hP.bind (runPart_inherits hP h 0) fun d => ?_
  exact hP.bind (hP.lift _) fun _ => hP.pure _

theorem runeMeaning_inherits : P _ (runeMeaning run parts) := by
  refine hP.bind (runPart_inherits hP h 0) fun d => ?_
  refine hP.bind (hP.lift _) fun name => ?_
  refine hP.bind (hP.written name) fun e => ?_
  split
  · exact hP.pure _
  · exact hP.fail _

theorem pastMeaning_inherits : P _ (pastMeaning run parts) := by
  refine hP.bind (runPart_inherits hP h 0) fun d => ?_
  refine hP.bind (hP.lift _) fun name => ?_
  refine hP.bind (hP.written name) fun e => ?_
  split
  · exact hP.pure _
  · exact hP.fail _

theorem transmuteMeaning_inherits : P _ (transmuteMeaning run parts) := by
  refine hP.bind (runValue_inherits hP h 1) fun v => ?_
  refine hP.bind (runPart_inherits hP h 3) fun d => ?_
  refine hP.bind (hP.lift _) fun target => ?_
  split
  · exact hP.pure _
  · exact hP.fail _

/-- A range refuses a rune that is written, but writes none. -/
theorem rangeMeaning_inherits : P _ (rangeMeaning run parts) := by
  refine hP.bind (runPart_inherits hP h 0) fun name => ?_
  refine hP.bind (runPart_inherits hP h 1) fun start => ?_
  refine hP.bind (runPart_inherits hP h 2) fun stop => ?_
  refine part_bind_inherits hP fun t ht => ?_
  refine absentOr_inherits hP (h t (List.mem_of_getElem? ht)) fun step => ?_
  refine hP.bind (hP.lift _) fun start => ?_
  refine hP.bind (hP.lift _) fun stop => ?_
  refine hP.bind (hP.lift _) fun step => ?_
  refine hP.check ?_
  refine hP.bind (hP.lift _) fun name => ?_
  refine hP.bind (hP.find? name) fun _ => ?_
  exact hP.check (hP.pure _)

/-! ## Choices -/

theorem branches_inherits : P _ (branches run parts) := by
  induction parts using branches.induct with
  | case1 => exact hP.pure _
  | case2 rest => exact hP.pure _
  | case3 t ht =>
      rw [branches.eq_3 _ _ ht]
      refine hP.bind (h t (by simp)) fun d => ?_
      exact hP.bind (hP.lift _) fun _ => hP.fail _
  | case4 t block ht =>
      rw [branches.eq_4 _ _ _ ht]
      refine hP.bind (h t (by simp)) fun d => ?_
      refine hP.bind (hP.lift _) fun isLast => ?_
      refine hP.bind (h block (by simp)) fun _ => ?_
      split
      · exact hP.pure _
      · exact hP.fail _
  | case5 t condition block rest ht ih =>
      rw [branches.eq_5 _ _ _ _ _ ht]
      refine hP.bind (h t (by simp)) fun d => ?_
      refine hP.bind (hP.lift _) fun isLast => ?_
      split
      · exact hP.bind (h condition (by simp)) fun _ => hP.pure _
      · refine hP.bind (h condition (by simp)) fun d => ?_
        refine hP.bind (hP.lift _) fun isTrue => ?_
        split
        · exact hP.bind (h block (by simp)) fun _ => hP.pure _
        · exact ih fun t ht => h t (by simp [ht])

theorem mayhapsMeaning_inherits : P _ (mayhapsMeaning run parts) := by
  refine part_bind_inherits hP fun t ht => ?_
  refine absentOr_inherits hP (h t (List.mem_of_getElem? ht)) fun ratio => ?_
  refine part_bind_inherits hP fun block hblock => ?_
  refine hP.bind hP.draw fun drawn => ?_
  refine hP.bind (hP.lift _) fun isBelow => ?_
  dsimp only
  split
  · exact hP.bind (h block (List.mem_of_getElem? hblock)) fun _ => hP.pure _
  · exact hP.pure _

/-! ## Speech -/

theorem revealMeaning_inherits : P _ (revealMeaning run parts) := by
  refine hP.bind (runPart_inherits hP h 1) fun d => ?_
  refine hP.bind (hP.lift _) fun s => ?_
  exact hP.bind (hP.reveal s) fun _ => hP.pure _

theorem promptedListenMeaning_inherits : P _ (promptedListenMeaning run parts) := by
  refine hP.bind (runPart_inherits hP h 1) fun d => ?_
  refine hP.bind (hP.lift _) fun s => ?_
  refine hP.bind (hP.reveal s) fun _ => ?_
  exact hP.bind hP.listen fun _ => hP.pure _

theorem interpolationMeaning_inherits : P _ (interpolationMeaning run parts) := by
  have hmiddle : ∀ t ∈ (parts.drop 1).dropLast, P _ (run t) :=
    fun t ht => h t (List.mem_of_mem_drop ((List.dropLast_sublist _).subset ht))
  refine hP.bind (runAll_inherits hP hmiddle) fun ds => ?_
  exact hP.bind (hP.lift _) fun _ => hP.pure _

theorem partMeaning_inherits : P _ (partMeaning run parts) := by
  refine hP.bind (runAll_inherits hP h) fun ds => ?_
  split
  · exact hP.pure _
  · exact hP.pure _
  · exact hP.fail _

end

/-! ## All plain forms -/

/-- The forms that do nothing but run their parts and look at what comes of it. -/
def Form.isPlain : Form → Bool
  | .declare | .declareSealed | .assign | .dispel | .sealRune | .step | .compound
  | .incantation | .cast | .proclaim
  | .rangeCycle | .endlessCycle | .lestCycle | .eachCycle => false
  | _ => true

include hP

theorem listenMeaning_inherits : P _ listenMeaning :=
  hP.bind hP.listen fun _ => hP.pure _

theorem ratioMeaning_inherits : P _ (ratioMeaning parts) := by
  refine part_bind_inherits hP fun left _ => ?_
  refine hP.bind (hP.lift _) fun left => ?_
  refine hP.bind (hP.lift _) fun left => ?_
  refine part_bind_inherits hP fun right _ => ?_
  refine hP.bind (hP.lift _) fun right => ?_
  refine hP.bind (hP.lift _) fun right => ?_
  exact hP.bind (hP.lift _) fun _ => hP.pure _

include h

/-- **A plain form inherits whatever its parts have.** -/
theorem Form.meaning_inherits_of_isPlain {f : Form} (fuel : Nat) (hf : f.isPlain = true) :
    P _ (f.meaning fuel run parts) := by
  cases f with
  | start => exact programMeaning_inherits hP h
  | declarations => exact runWhere_inherits hP h true
  | block => exact runEach_inherits hP h
  | foretell => exact branches_inherits hP h
  | mayhaps => exact mayhapsMeaning_inherits hP h
  | ratio => exact ratioMeaning_inherits hP
  | range => exact rangeMeaning_inherits hP h
  | interrupt => exact hP.bind (runPart_inherits hP h 0) fun _ => hP.pure _
  | either => exact eitherMeaning_inherits hP h
  | both => exact bothMeaning_inherits hP h
  | comparison => exact comparisonMeaning_inherits hP h
  | sum => exact sumMeaning_inherits hP h
  | product => exact productMeaning_inherits hP h
  | denial => exact denialMeaning_inherits hP h
  | negative => exact negativeMeaning_inherits hP h
  | rounding => exact roundingMeaning_inherits hP h
  | power => exact powerMeaning_inherits hP h
  | group => exact groupMeaning_inherits hP h
  | measure => exact measureMeaning_inherits hP h
  | index => exact indexMeaning_inherits hP h
  | name => exact nameMeaning_inherits hP h
  | past => exact pastMeaning_inherits hP h
  | rune => exact runeMeaning_inherits hP h
  | reveal => exact revealMeaning_inherits hP h
  | listen => exact listenMeaning_inherits hP
  | promptedListen => exact promptedListenMeaning_inherits hP h
  | transmute => exact transmuteMeaning_inherits hP h
  | interpolation => exact interpolationMeaning_inherits hP h
  | part => exact partMeaning_inherits hP h
  | yore | parameters | arguments | collection | tome | tomeContents => exact hP.fail _
  | declare | declareSealed | assign | dispel | sealRune | step | compound => cases hf
  | incantation | cast | proclaim => cases hf
  | rangeCycle | endlessCycle | lestCycle | eachCycle => cases hf

end Plain

/-! ## Names and words -/

/-- The name of a rune or of an incantation, as it stands in a program. -/
def Tree.named (name : String) : Tree := .node (.form .name) [.leaf .name name]

/-- A name evaluates to itself, unless it is a keyword. -/
theorem meaningWith_named (foreign : Foreign) (x : String) (n : Nat) (m : Machine) :
    (Tree.named x).meaningWith foreign (n + 2) m =
      (if isKeyword x then .failed (.fundamental x) else .done (.word x), m) := by
  have htoken : runPart (Tree.meaningWith foreign (n + 1)) [.leaf .name x] 0 m =
      (liftM (nameWord x) : Spell Datum) m := rfl
  show nameMeaning (Tree.meaningWith foreign (n + 1)) [.leaf .name x] m = _
  cases hx : isKeyword x with
  | true =>
    rw [nameWord, if_pos hx] at htoken
    exact Spell.bind_of_failed htoken
  | false =>
    rw [nameWord, if_neg (by rw [hx]; exact nofun)] at htoken
    exact Spell.bind_of_done htoken

theorem meaning_named (x : String) (n : Nat) (m : Machine) : (Tree.named x).meaning (n + 2) m =
    (if isKeyword x then .failed (.fundamental x) else .done (.word x), m) :=
  meaningWith_named unanswered x n m

/-- What a tree does by its name alone: a token, or a node that carries the name of one. -/
def Tree.use : Tree → WordUse
  | .token (.terminal t) _ => t.use
  | .node (.other name) _ =>
    match Terminal.ofLabel? name with
    | some t => t.use
    | none => .none
  | _ => .none

section Words

variable {P : (α : Type) → Spell α → Prop} (hP : Spell.Inherited P)
include hP

/-- A token inherits the property if the endings of the cycles do. -/
theorem tokenMeaning_inherits {t : Terminal} (s : String)
    (hshatter : t.use = .shatter → P Datum (Spell.finish .shattered))
    (hpersist : t.use = .persist → P Datum (Spell.finish .persisted)) : P _ (tokenMeaning t s) := by
  unfold tokenMeaning
  cases hu : t.use with
  | ownText => exact hP.pure _
  | nothing => exact hP.pure _
  | shatter => exact hshatter hu
  | persist => exact hpersist hu
  | name => exact hP.lift _
  | literal kind =>
      cases kind with
      | int => exact hP.bind (hP.lift _) fun _ => hP.pure _
      | float => exact hP.bind (hP.lift _) fun _ => hP.pure _
      | text => exact hP.lift _
      | truth => exact hP.pure _
  | prose => exact hP.lift _
  | none => exact hP.fail _

/-- A node that is read as a token inherits the property if the endings of the cycles do. -/
theorem nodeAsTokenMeaning_inherits {t : Terminal} (shown : String)
    (hshatter : t.use = .shatter → P Datum (Spell.finish .shattered))
    (hpersist : t.use = .persist → P Datum (Spell.finish .persisted)) :
    P _ (nodeAsTokenMeaning t shown) := by
  unfold nodeAsTokenMeaning
  split
  · exact hP.fail _
  · exact hP.fail _
  · exact hP.fail _
  · exact tokenMeaning_inherits hP shown hshatter hpersist

theorem Form.tokenMeaning_inherits (f : Form) : P _ f.tokenMeaning := by
  unfold Form.tokenMeaning
  split
  · exact listenMeaning_inherits hP
  · exact hP.fail _
  · exact hP.fail _
  · exact hP.fail _
  · exact hP.fail _
  · exact hP.fail _
  · exact hP.fail _
  · exact hP.fail _

/-- **A tree that is no node of the language touches nothing**: all it can do is end, and only two
words end by leaving a cycle. -/
theorem Tree.meaning_inherits_of_use {t : Tree} (fuel : Nat)
    (hform : ∀ f parts, t ≠ .node (.form f) parts)
    (hshatter : t.use = .shatter → P Datum (Spell.finish .shattered))
    (hpersist : t.use = .persist → P Datum (Spell.finish .persisted)) : P _ (t.meaning fuel) := by
  cases fuel with
  | zero => exact hP.outOfFuel
  | succ fuel =>
      cases t with
      | absent => exact hP.fail _
      | token mark s =>
          cases mark with
          | terminal t => exact tokenMeaning_inherits hP s hshatter hpersist
          | other name =>
              rw [Tree.meaning, Tree.meaningWith]
              split
              · exact Form.tokenMeaning_inherits hP _
              · exact hP.fail _
      | node label parts =>
          cases label with
          | form f => exact absurd rfl (hform f parts)
          | other name =>
              rw [Tree.meaning, Tree.meaningWith]
              split
              · rename_i t ht
                have huse : (Tree.node (.other name) parts).use = t.use := by rw [Tree.use, ht]
                rw [huse] at hshatter hpersist
                exact nodeAsTokenMeaning_inherits hP _ hshatter hpersist
              · exact hP.fail _

end Words

/-! ## Runs -/

/-- **Induction over runs.** Properties, one for each `s`, are had by all trees that are `ok` for
`s`, if the words have them and every form does whose parts do. Fuel is what the induction is on,
since the body of an incantation is no part of the cast that runs it. -/
theorem Tree.meaning_inherits_of_forms {σ : Type} (P : σ → (α : Type) → Spell α → Prop)
    (ok : σ → Tree → Prop) (hP : ∀ s, Spell.Inherited (P s))
    (hwords : ∀ {s t}, ok s t → (∀ f parts, t ≠ .node (.form f) parts) →
      (t.use = .shatter → P s Datum (Spell.finish .shattered)) ∧
        (t.use = .persist → P s Datum (Spell.finish .persisted)))
    (hforms : ∀ fuel, (∀ {s t}, ok s t → P s _ (t.meaning fuel)) →
      ∀ {s f parts}, ok s (.node (.form f) parts) →
        P s _ (f.meaning fuel (Tree.meaning fuel) parts))
    (fuel : Nat) {s : σ} {t : Tree} (ht : ok s t) : P s _ (t.meaning fuel) := by
  induction fuel generalizing s t with
  | zero => exact (hP s).outOfFuel
  | succ fuel ih =>
      by_cases hform : ∃ f parts, t = .node (.form f) parts
      · obtain ⟨f, parts, rfl⟩ := hform
        exact hforms fuel ih ht
      · have hword : ∀ f parts, t ≠ .node (.form f) parts := fun f parts h => hform ⟨f, parts, h⟩
        obtain ⟨hshatter, hpersist⟩ := hwords ht hword
        exact Tree.meaning_inherits_of_use (hP s) (fuel + 1) hword hshatter hpersist

/-! ## Laws -/

section Laws

variable {parts : List Tree}

/-- A part that is missing fails on the spot. -/
theorem part_bind_ends {α : Type} {P : Outcome → Machine → Prop} {m : Machine} {n : Nat}
    {k : Tree → Spell α} (hfail : P .failed m)
    (hk : ∀ t, parts[n]? = some t → (k t).Ends P m) : (part parts n >>= k).Ends P m := by
  unfold part
  cases ht : parts[n]? with
  | none => exact hfail
  | some t => exact hk t ht

variable {L : Law} (hL : L.Sequential) {run : Run}
include hL

/-- A form that asks for a part keeps the law if it does for each part in that place. -/
theorem part_bind_keeps {α : Type} {n : Nat} {k : Tree → Spell α}
    (hk : ∀ t, parts[n]? = some t → (k t).Keeps L) : (part parts n >>= k).Keeps L :=
  part_bind_inherits hL.inherited hk

theorem runPart_keeps_at {n : Nat} (hn : ∀ t, parts[n]? = some t → (run t).Keeps L) :
    (runPart run parts n).Keeps L :=
  runPart_inherits_at hL.inherited hn

section

variable (h : ∀ t ∈ parts, (run t).Keeps L)
include h

theorem runPart_keeps (n : Nat) : (runPart run parts n).Keeps L := runPart_inherits hL.inherited h n

theorem runKey_keeps (n : Nat) : (runKey run parts n).Keeps L := runKey_inherits hL.inherited h n

/-- A list of trees keeps the law if each of its trees does. -/
theorem runAll_keeps : (runAll run parts).Keeps L := runAll_inherits hL.inherited h

/-- **A plain form keeps whatever its parts keep.** -/
theorem Form.meaning_keeps_of_isPlain {f : Form} (fuel : Nat) (hf : f.isPlain = true) :
    (f.meaning fuel run parts).Keeps L :=
  Form.meaning_inherits_of_isPlain hL.inherited h fuel hf

end

omit hL

/-- Induction over runs, for laws. -/
theorem Tree.meaning_keeps_of_forms {σ : Type} (L : σ → Law) (ok : σ → Tree → Prop)
    (hL : ∀ s, (L s).Sequential)
    (hwords : ∀ {s t}, ok s t → (∀ f parts, t ≠ .node (.form f) parts) →
      (t.use = .shatter → ∀ m, L s m .shattered m) ∧ (t.use = .persist → ∀ m, L s m .persisted m))
    (hforms : ∀ fuel, (∀ {s t}, ok s t → (t.meaning fuel).Keeps (L s)) →
      ∀ {s f parts}, ok s (.node (.form f) parts) →
        (f.meaning fuel (Tree.meaning fuel) parts).Keeps (L s))
    (fuel : Nat) {s : σ} {t : Tree} (ht : ok s t) : (t.meaning fuel).Keeps (L s) :=
  Tree.meaning_inherits_of_forms (fun s _ x => x.Keeps (L s)) ok (fun s => (hL s).inherited)
    hwords hforms fuel ht

end Laws

end Spellbook
