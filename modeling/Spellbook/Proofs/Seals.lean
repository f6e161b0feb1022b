import Spellbook.Proofs.Check
import Spellbook.Proofs.Frames
import Spellbook.Proofs.Language

/-!
# Sealed runes

A sealed rune can only be dispelled. Statements that change a rune ask first whether it is sealed,
and a cast gives the caller's sealed runes back as they were, whatever the callee does with a rune
of that name. This leaves what never asks: dispelling and the runes of cycles. The rune of a cycle
is refused if its name is taken, so it is never the sealed one, as long as it is the cycle's own
range that says which rune it is.

The check `sparing x` asks for this: outside the bodies of incantations, what is dispelled is named
and is not `x`, and the cycles over a range have a range. Then `x` stays as it is until a fault,
however the tree ends, if no name occurs that is none of the language's (`sealed_rune_unchanged`).
-/

namespace Spellbook

/-! ## The check -/

/-- The name that a tree stands for, if it is one. -/
def Tree.name? : Tree → Option String
  | .node (.form .name) (.token (.terminal .name) y :: _) => some y
  | _ => none

def Tree.isRange : Tree → Bool
  | .node (.form .range) _ => true
  | _ => false

/-- Whatever is dispelled is named and is not `x`, and a cycle over a range has one. -/
def sparing (x : String) : Check Unit where
  here _ t :=
    match t with
    | .node (.form .dispel) parts => parts[1]?.all fun t => t.name?.any (· != x)
    | .node (.form .rangeCycle) parts => parts[1]?.all Tree.isRange
    | _ => true
  inside _ _ _ := ()
  body? := none

/-! ## Names and ranges -/

/-- A name that is read is its own word. -/
theorem nameWord_eq {y : String} {d : Datum} (h : nameWord y = .ok d) : d = .word y := by
  rw [nameWord] at h
  split at h
  · cases h
  · cases h
    rfl

/-- A name evaluates to itself. -/
theorem Tree.meaning_of_name? {t : Tree} {y : String} (ht : t.name? = some y) {fuel : Nat}
    {m m' : Machine} {d : Datum} (h : t.meaning fuel m = (.done d, m')) : d = .word y := by
  unfold Tree.name? at ht
  split at ht
  · rename_i word rest
    cases ht
    match fuel with
    | 0 => cases h
    | 1 => cases h
    | fuel + 2 =>
        obtain ⟨d₀, m₁, hword, h⟩ := Spell.exists_of_bind_done h
        rw [nameWord_eq (Spell.eq_of_lift_done hword).1] at h
        cases h
        rfl
  · cases ht

/-- The name of a tree is the one that is found by running it. -/
theorem runKey_of_name? {parts : List Tree} {n : Nat} {t : Tree} {y : String}
    (hn : parts[n]? = some t) (ht : t.name? = some y) {fuel : Nat} {m m' : Machine} {name : String}
    (h : runKey (Tree.meaning fuel) parts n m = (.done name, m')) : name = y := by
  obtain ⟨d, m₁, hd, h⟩ := Spell.exists_of_bind_done h
  rw [runPart, part, hn] at hd
  rw [Tree.meaning_of_name? ht hd] at h
  cases h
  rfl

theorem absentOr_gives {Q : Datum → Machine → Prop} {run : Run} {t : Tree} {d : Datum}
    {k : Datum → Spell Datum} {m : Machine} (hk : ∀ d m, (k d).Gives Q m) : Spell.Gives Q
      (match t with
        | .absent => (Pure.pure d : Spell Datum) >>= k
        | t => run t >>= k) m := by
  split
  · exact Spell.Gives.bind fun d m _ => hk d m
  · exact Spell.Gives.bind fun d m _ => hk d m

/-- The rune of a range is not written where the range has been evaluated. -/
theorem rangeMeaning_gives (run : Run) (parts : List Tree) (m : Machine) :
    (rangeMeaning run parts).Gives (fun d m' => ∀ r, Range.ofDatum d = .ok r →
      m'.scope.find? r.name = none) m := by
  refine Spell.Gives.bind fun name _ _ => ?_
  refine Spell.Gives.bind fun start _ _ => ?_
  refine Spell.Gives.bind fun stop _ _ => ?_
  refine Spell.Gives.bind fun t _ _ => ?_
  refine absentOr_gives fun step _ => ?_
  refine Spell.Gives.bind fun start _ _ => ?_
  refine Spell.Gives.bind fun stop _ _ => ?_
  refine Spell.Gives.bind fun step _ _ => ?_
  refine Spell.Gives.check fun _ => ?_
  refine Spell.Gives.bind fun name _ _ => ?_
  refine Spell.Gives.bind fun found m hfound => ?_
  cases hfound
  refine Spell.Gives.check fun hfree => ?_
  intro d m' h r hr
  cases h
  cases hr
  exact Option.not_isSome_iff_eq_none.mp hfree

/-- A range gives a rune that is not written yet. -/
theorem Tree.isRange_gives {t : Tree} (ht : t.isRange = true) (fuel : Nat) (m : Machine) :
    (t.meaning fuel).Gives (fun d m' => ∀ r, Range.ofDatum d = .ok r →
      m'.scope.find? r.name = none) m := by
  unfold Tree.isRange at ht
  split at ht
  · cases fuel with
    | zero => exact nofun
    | succ fuel => exact rangeMeaning_gives _ _ m
  · cases ht

/-! ## The law -/

/-- Unless there is a fault, the rune `x` stays as it is. -/
def sealLaw (x : String) (e : Entry) : Law := fun m o m' =>
  m.scope.find? x = some e → o ≠ .failed → m'.scope.find? x = some e

namespace sealLaw

variable {x : String} {e : Entry}

/-- The law of a run that leaves the runes alone. -/
theorem intro {m m' : Machine} {o : Outcome} (hscope : m'.scope = m.scope) :
    sealLaw x e m o m' := by
  intro hx _
  rw [hscope]
  exact hx

theorem isSequential : (sealLaw x e).Sequential where
  failed _ := intro rfl
  exhausted _ := intro rfl
  speech _ _ hscope _ := intro hscope
  trans h₁ h₂ hx := h₂ (h₁ hx (by decide))

/-- Whatever is done to another rune. -/
theorem other {m₀ m : Machine} {g : Scope → Scope} (hm : sealLaw x e m₀ .done m)
    (hother : m₀.scope.find? x = some e → ∀ s : Scope, (g s).find? x = s.find? x) :
    sealLaw x e m₀ .done (m.mapScope g) := by
  intro hx ho
  rw [Machine.mapScope_scope, hother hx]
  exact hm hx ho

/-- The law of a sealed rune lets runes be written that are new and changed that are not sealed. -/
theorem isRunic (he : e.isSealed = true) : (sealLaw x e).Runic where
  toSequential := isSequential
  write e' hm hfree := other hm fun hx s => by
    rw [Scope.find?_write, if_neg]
    rintro rfl
    rw [hfree] at hx
    cases hx
  modify g hm hfind hopen := other hm fun hx s => by
    refine Scope.find?_modify_of_ne g s ?_
    rintro rfl
    rw [hfind] at hx
    cases hx
    rw [he] at hopen
    cases hopen

/-- A run that begins without the sealed rune obeys the law. -/
theorem of_ne {m m' : Machine} {o : Outcome} (h : m.scope.find? x ≠ some e) :
    sealLaw x e m o m' :=
  fun hx => absurd hx h

/-- A cycle may have any rune that is not written. -/
theorem letsCycle (he : e.isSealed = true) {m : Machine} {name : String}
    (hfree : m.scope.find? name = none) {e' : Entry} (he' : e'.isSealed = false) :
    (sealLaw x e).LetsCycle m name e' := by
  by_cases hname : x = name
  · -- then the sealed rune is written neither before the cycle nor once it has its own
    subst hname
    have hbefore : m.scope.find? x ≠ some e := by
      rw [hfree]
      nofun
    have hafter : (m.scope.write x e').find? x ≠ some e := by
      rw [Scope.find?_write, if_pos rfl]
      rintro ⟨⟩
      rw [he] at he'
      cases he'
    exact ⟨of_ne hbefore, fun _ _ _ => of_ne hafter, fun _ _ => of_ne hafter⟩
  · exact {
      write := other (isSequential.done m) fun _ s => by rw [Scope.find?_write, if_neg hname]
      turn := fun _ g hm => other hm fun _ s => Scope.find?_modify_of_ne g s hname
      dispel := fun _ hm => other hm fun _ s => Scope.find?_dispel_of_ne s hname }

theorem caught {m m' : Machine} {o : Outcome} (h : sealLaw x e m o m') :
    sealLaw x e m o.caught m' :=
  fun hx ho => h hx (Outcome.ne_failed_of_caught ho)

/-- A call gives the caller's sealed rune back. -/
theorem callWith_ends (he : e.isSealed = true) (fuel : Nat) {i : Incantation} {ds : List Datum}
    (hcount : ds.length = i.parameters.length) {m₀ m : Machine} (hm : sealLaw x e m₀ .done m) :
    (callWith (Tree.meaning fuel) i ds).Ends (sealLaw x e m₀) m := by
  refine Spellbook.callWith_ends hcount (fun _ ho => absurd rfl ho) fun hbound => ?_
  obtain ⟨hkept, -⟩ := boundCall_kept (Tree.meaning_keeps_frameLaw fuel) hcount hbound m
  intro hx _
  exact hkept.find?_of_sealed (hm hx (by decide)) he

end sealLaw

/-! ## Every tree -/

section
variable {x : String} {e : Entry} {fuel : Nat}
  (hrun : ∀ {t : Tree}, t.passes (sparing x) () = true → (t.meaning fuel).Keeps (sealLaw x e))
  {parts : List Tree}
include hrun

/-- A dispelling that spares the rune keeps its seal. -/
theorem dispelMeaning_keeps_sealLaw
    (hf : (Tree.node (.form .dispel) parts).passes (sparing x) () = true) :
    (dispelMeaning (Tree.meaning fuel) parts).Keeps (sealLaw x e) := by
  have hS := sealLaw.isSequential (x := x) (e := e)
  have hhere : parts[1]?.all (fun t => t.name?.any (· != x)) = true := Tree.passes_here hf
  have hkey : (runKey (Tree.meaning fuel) parts 1).Keeps (sealLaw x e) :=
    hS.bind (runPart_keeps_at hS fun t ht => hrun (Tree.passes_part rfl hf ht)) fun _ => hS.lift _
  intro m₀
  refine Spell.Ends.bind (hkey m₀) fun name m hname hm => ?_
  refine Spell.Ends.bind (hS.ends hm (hS.written name)) fun _ m₁ _ hm₁ => ?_
  have hne : x ≠ name := by
    cases ht : parts[1]? with
    | none =>
        rw [runKey, runPart, part, ht] at hname
        cases hname
    | some t =>
        rw [ht, Option.all_some] at hhere
        obtain ⟨y, hy, hyx⟩ := (Option.any_eq_true _ _).mp hhere
        rw [runKey_of_name? ht hy hname]
        exact Ne.symm (bne_iff_ne.mp hyx)
  exact sealLaw.other hm₁ fun _ s => Scope.find?_dispel_of_ne s hne

/-- A cycle whose rune is another keeps the seal. -/
theorem cycle_keeps_sealLaw (he : e.isSealed = true) {f : Form}
    (hf : (Tree.node (.form f) parts).passes (sparing x) () = true) {n : Nat}
    (hn : f.bodyIndex? = some n) (turns : Nat) :
    (f.meaning turns (Tree.meaning fuel) parts).Keeps (sealLaw x e) := by
  have hpart : ∀ (i : Nat) (t : Tree), parts[i]? = some t → (t.meaning fuel).Keeps (sealLaw x e) :=
    fun i t ht => hrun (Tree.passes_part (Form.isDirect_of_cycle hn) hf ht)
  refine Form.meaning_keeps_of_cycle sealLaw.isSequential turns n (fun i _ => hpart i)
    (fun t ht => goesOn_keeps sealLaw.caught (hpart n t ht)) hn ?_
    fun m name hfree e' he' => sealLaw.letsCycle he hfree he'
  rintro rfl m₀ d m r hd hr e' he'
  have hhere : parts[1]?.all Tree.isRange = true := Tree.passes_here hf
  refine sealLaw.letsCycle he ?_ he'
  cases ht : parts[1]? with
  | none =>
      rw [runPart, part, ht] at hd
      cases hd
  | some t =>
      rw [runPart, part, ht] at hd
      rw [ht, Option.all_some] at hhere
      exact Tree.isRange_gives hhere fuel m₀ d m hd r hr

end

/-- Each form that spares the rune keeps its seal if its parts do. -/
theorem Form.meaning_keeps_sealLaw {x : String} {e : Entry} (he : e.isSealed = true) {fuel : Nat}
    (hrun : ∀ {t : Tree}, t.passes (sparing x) () = true → (t.meaning fuel).Keeps (sealLaw x e))
    {f : Form} {parts : List Tree}
    (hf : (Tree.node (.form f) parts).passes (sparing x) () = true) (turns : Nat) :
    (f.meaning turns (Tree.meaning fuel) parts).Keeps (sealLaw x e) := by
  have hparts : f.isDirect = true → ∀ t ∈ parts, (t.meaning fuel).Keeps (sealLaw x e) := by
    intro hdirect t ht
    obtain ⟨i, hi⟩ := List.mem_iff_getElem?.mp ht
    exact hrun (Tree.passes_part hdirect hf hi)
  rcases f.tame_or with htame | ⟨n, hn⟩ | rfl | rfl | rfl | rfl
  · exact htame.meaning_keeps (sealLaw.isRunic he) (hparts htame.isDirect) turns
  · exact cycle_keeps_sealLaw hrun he hf hn turns
  · exact dispelMeaning_keeps_sealLaw hrun hf
  · exact incantationMeaning_keeps sealLaw.isSequential
      (fun t ht => hrun (Tree.passes_name (.inl rfl) hf ht))
      (fun t ht => hrun (Tree.passes_listed (.inl rfl) hf ht)) fun _ _ _ _ => sealLaw.intro rfl
  · exact proclaimMeaning_keeps sealLaw.isSequential
      (fun t ht => hparts rfl t (List.mem_of_getElem? ht))
      fun _ => sealLaw.intro rfl
  · exact castMeaning_keeps sealLaw.isSequential
      (fun t ht => hrun (Tree.passes_name (.inr rfl) hf ht))
      (fun t ht => hrun (Tree.passes_listed (.inr rfl) hf ht))
      fun _ _ _ _ _ _ hm hcount => sealLaw.callWith_ends he fuel hcount hm

/-- **Unless there is a fault, a sealed rune that a tree spares stays as it is.** -/
theorem Tree.meaning_keeps_sealLaw {x : String} {e : Entry} (he : e.isSealed = true) {t : Tree}
    (ht : t.passes (sparing x) () = true) (fuel : Nat) : (t.meaning fuel).Keeps (sealLaw x e) := by
  refine Tree.meaning_keeps_of_forms (fun _ => sealLaw x e)
    (fun s t => t.passes (sparing x) s = true) (fun _ => sealLaw.isSequential) (fun _ _ => ?_)
    (fun fuel ih _ _ _ hf => Form.meaning_keeps_sealLaw he ih hf fuel) fuel ht
  exact ⟨fun _ _ => sealLaw.intro rfl, fun _ _ => sealLaw.intro rfl⟩

/-! ## Sealed runes -/

/-- **A sealed rune is not changed** by a tree of the language that spares it and does not fail: the
tree may come to a result, proclaim, shatter or persist, and it may cast what it likes. -/
theorem sealed_rune_unchanged {x : String} {e : Entry} {t : Tree}
    (ht : t.passes (sparing x) () = true) (hnative : t.isNative = true) {m : Machine}
    (hbook : Book.IsNative m.book) (hx : m.scope.find? x = some e) (he : e.isSealed = true)
    (foreign : Foreign) (fuel : Nat)
    (hend : (t.meaningWith foreign fuel m).1.outcome ≠ .failed) :
    (t.meaningWith foreign fuel m).2.scope.find? x = some e := by
  rw [Tree.meaningWith_of_native foreign fuel hnative hbook] at hend ⊢
  exact Tree.meaning_keeps_sealLaw he ht fuel m hx hend

/-- A sealed rune `x` and an open rune `y`. The parameter of `f` is called `x` as well, and the body
dispels it and writes it anew; `g` dispels the caller's `x` and proclaims a range over it. -/
def sealedCaller : Machine where
  scope := [{ own := [("x", .fresh (some (.truth true)) true),
                      ("y", .fresh (some (.truth true)) false)] }]
  book := [
    ("f", ⟨["x"], .node (.form .block) [
      .node (.form .dispel) [.leaf .dispel "dispel", .named "x"],
      .node (.form .declare) [.leaf .rune "rune", .named "x", .leaf .truth "Falsehood"]]⟩),
    ("g", ⟨[], .node (.form .block) [
      .node (.form .dispel) [.leaf .dispel "dispel", .named "x"],
      .node (.form .proclaim) [.leaf .proclaim "proclaim", .node (.form .range)
        [.named "x", .leaf .whole "1", .leaf .whole "1", .absent]]]⟩)]

/-- A statement that casts `f`, dispels `y` and shatters. -/
def castAndDispel : Tree :=
  .node (.form .block) [
    .node (.form .cast) [.leaf .castWord "cast", .named "f",
      .node (.form .arguments) [.leaf .truth "Falsehood"]],
    .node (.form .dispel) [.leaf .dispel "dispel", .named "y"],
    .node (.form .interrupt) [.leaf .shatter "shatter"]]

theorem sealed_rune_unchanged_castAndDispel :
    (castAndDispel.meaning 12 sealedCaller).2.scope.find? "x" =
      some (.fresh (some (.truth true)) true) := by
  have hbook : Book.IsNative sealedCaller.book := by
    intro name i hi
    rw [sealedCaller, Table.find?_cons, Table.find?_cons] at hi
    split at hi
    · cases hi
      decide
    · split at hi
      · cases hi
        decide
      · cases hi
  exact sealed_rune_unchanged (by decide) (by decide) hbook rfl rfl unanswered 12 (by decide)

/-- Nothing is dispelled outside the bodies of incantations. -/
def dispelFree : Check Unit where
  here _ t :=
    match t with
    | .node (.form .dispel) _ => false
    | _ => true
  inside _ _ _ := ()
  body? := none

/-- A cycle over the range that a cast of `g` proclaims. -/
def cycleOverCast : Tree :=
  .node (.form .rangeCycle) [.leaf .cycle "cycle",
    .node (.form .cast) [.leaf .castWord "cast", .named "g", .absent], .node (.form .block) []]

/-- The rune of a range was free where the range was evaluated. If this was in a callee that had
dispelled it, the cycle of the caller takes a sealed rune for its own. -/
theorem cycle_over_cast_takes_sealed_rune :
    cycleOverCast.passes dispelFree () = true ∧
      sealedCaller.scope.find? "x" = some (.fresh (some (.truth true)) true) ∧
      (cycleOverCast.meaning 12 sealedCaller).1.outcome = .done ∧
      (cycleOverCast.meaning 12 sealedCaller).2.scope.find? "x" = none :=
  ⟨by decide, rfl, rfl, rfl⟩

end Spellbook
