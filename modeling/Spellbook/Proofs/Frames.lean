import Spellbook.Proofs.Incantation

/-!
# What a run does to the frames

Every tree, run from any machine to whatever ending, leaves the frames beneath the running one as
`Scope.Evolves` says (`Tree.meaning_keeps_frameLaw`). The induction is over the fuel, and the cast
is its one hard case: the body runs in a frame of its own, so what it may do to the caller's frames
is what a run may do to the frames *beneath* it.

A call whose arguments are refused leaves its frame open. As that is a fault, and only a cast goes
on after a fault, such frames lie above all that matter and are closed by the next cast around them;
the law therefore speaks of the frames up to those that were there at the start.
-/

namespace Spellbook

/-- The frames that were there at the start have evolved, and only a fault leaves others open. -/
def frameLaw : Law := fun m o m' => m.scope ≠ [] →
  ∃ above s, m'.scope = above ++ s ∧ m.scope.Evolves s ∧ (o ≠ .failed → above = [])

namespace frameLaw

/-- The law of a run that leaves no frames open. -/
theorem intro {m m' : Machine} {o : Outcome}
    (h : m.scope ≠ [] → m.scope.Evolves m'.scope) : frameLaw m o m' :=
  fun hne => ⟨[], m'.scope, rfl, h hne, fun _ => rfl⟩

theorem evolves {m m' : Machine} {o : Outcome} (h : frameLaw m o m')
    (hne : m.scope ≠ []) (ho : o ≠ .failed) : m.scope.Evolves m'.scope := by
  obtain ⟨above, s, hs, hevolves, habove⟩ := h hne
  rw [hs, habove ho]
  exact hevolves

theorem refl (m : Machine) (o : Outcome) : frameLaw m o m := intro .refl

theorem isSequential : frameLaw.Sequential where
  failed m := refl m .failed
  exhausted m := refl m .exhausted
  speech m₀ m₁ hscope _ := intro fun hne => by
    rw [hscope]
    exact .refl hne
  trans {m₀ m₁ m₂ o} h₁ h₂ hne := by
    have hevolves := h₁.evolves hne (by decide)
    obtain ⟨above, s, hs, hs', habove⟩ := h₂ hevolves.ne_nil
    exact ⟨above, s, hs, hevolves.trans hs', habove⟩

theorem isLocal : frameLaw.Local where
  toSequential := isSequential
  write m name e := intro fun hne => (Scope.Evolves.refl hne).write name e
  dispel m name := intro fun hne => (Scope.Evolves.refl hne).dispel name
  modify {m₀ m name e} g hm hfind hopen := intro fun hne => by
    refine (hm.evolves hne (by decide)).modify g (.inr fun e' hfind' => ?_)
    rw [hfind] at hfind'
    rw [← Option.some.inj hfind']
    exact hopen
  turn {m₀ m name e} g hm := intro fun hne => by
    refine (hm.evolves hne (by decide)).modify g (.inl ?_)
    exact Scope.covers_write m₀.scope name e

theorem caught {m m' : Machine} {o : Outcome} (h : frameLaw m o m') : frameLaw m o.caught m' := by
  intro hne
  obtain ⟨above, s, hs, hevolves, habove⟩ := h hne
  exact ⟨above, s, hs, hevolves, fun ho => habove (Outcome.ne_failed_of_caught ho)⟩

end frameLaw

/-! ## Calls -/

/-- Closing the frames above `s` and the one on top of it. -/
theorem Scope.leaveTo_append (above : Scope) (f : Frame) (s : Scope) :
    Scope.leaveTo s.length (above ++ f :: s) = s := by
  have hlength : (above ++ f :: s).length - s.length = (above ++ [f]).length := by
    simp only [List.length_append, List.length_cons, List.length_nil]
    omega
  rw [Scope.leaveTo, hlength, List.append_cons above f s, List.drop_left]

/-- The frames of the caller after the body of a call that was opened by the frame `f`. -/
theorem castBody_kept {body : Spell Datum} (hbody : body.Keeps frameLaw) {m : Machine} {f : Frame}
    {s : Scope} (hm : m.scope = f :: s) :
    (castBody body s.length).Ends (fun _ m' => s.Kept m'.scope ∧
      ∀ x, f.covers x = true → m'.scope.find? x = s.find? x) m := by
  refine castBody_ends ?_
  obtain ⟨above, t, ht, hevolves, -⟩ := hbody m (by rw [hm]; exact List.cons_ne_nil _ _)
  rw [hm] at hevolves
  cases hevolves with
  | @intro _ f' _ s' hkept hreach _ =>
      have hleave : (body m).2.scope.leaveTo s.length = s' := by
        rw [ht, ← hkept.length_eq, Scope.leaveTo_append]
      show s.Kept ((body m).2.scope.leaveTo s.length) ∧
        ∀ x, f.covers x = true → ((body m).2.scope.leaveTo s.length).find? x = s.find? x
      rw [hleave]
      exact ⟨hkept, hreach⟩

section
variable {run : Run} (hrun : ∀ t, (run t).Keeps frameLaw)
include hrun

section
variable {i : Incantation} {ds : List Datum} (hcount : ds.length = i.parameters.length)
include hcount

/-- **A call gives its caller's frames back**, and of the runes that share their names with the
parameters it touches none. -/
theorem boundCall_kept (hbound : (toValues ds).2 = none) (m : Machine) :
    (castBody (run i.body) m.scope.length).Ends (fun _ m' => m.scope.Kept m'.scope ∧
      ∀ p ∈ i.parameters, m'.scope.find? p = m.scope.find? p) (m.mapScope (·.enterWith i ds)) := by
  obtain ⟨f, hf, hcovers⟩ := m.scope.enterWith_eq i ds
  obtain ⟨hkept, hreach⟩ := castBody_kept (hrun i.body) (m := m.mapScope (·.enterWith i ds)) hf
  exact ⟨hkept, fun p hp => hreach p (hcovers hbound hcount p hp)⟩

theorem frameLaw.callWith_ends {m₀ m : Machine} (hm : frameLaw m₀ .done m) :
    (callWith run i ds).Ends (frameLaw m₀) m := by
  refine Spellbook.callWith_ends hcount ?_ fun hbound => ?_
  · obtain ⟨f, hf, -⟩ := m.scope.enterWith_eq i ds
    intro hne
    exact ⟨[f], m.scope, hf, hm.evolves hne (by decide), fun ho => absurd rfl ho⟩
  · obtain ⟨hkept, -⟩ := boundCall_kept hrun hcount hbound m
    exact frameLaw.isSequential.trans hm (.intro (.of_kept hkept))

end

/-! ## Every tree -/

theorem Form.meaning_keeps_frameLaw (f : Form) (fuel : Nat) (parts : List Tree) :
    (f.meaning fuel run parts).Keeps frameLaw := by
  rcases f.tame_or with htame | ⟨n, hn⟩ | rfl | rfl | rfl | rfl
  · exact htame.meaning_keeps frameLaw.isLocal.runic (fun t _ => hrun t) fuel
  · exact frameLaw.isLocal.cycle_keeps fuel hn (fun _ _ t _ => hrun t)
      (fun t _ => goesOn_keeps frameLaw.caught (hrun t))
  · exact frameLaw.isLocal.dispelMeaning_keeps fun t _ => hrun t
  · exact incantationMeaning_keeps frameLaw.isSequential (fun t _ => hrun t) (fun t _ => hrun t)
      fun _ _ _ _ => .intro .refl
  · exact proclaimMeaning_keeps frameLaw.isSequential (fun t _ => hrun t)
      fun m => .refl m .proclaimed
  · exact castMeaning_keeps frameLaw.isSequential (fun t _ => hrun t) (fun t _ => hrun t)
      fun _ _ _ _ _ _ hm hcount => frameLaw.callWith_ends hrun hcount hm

end

/-- **Whatever a tree does, the frames evolve.** -/
theorem Tree.meaning_keeps_frameLaw (fuel : Nat) (t : Tree) : (t.meaning fuel).Keeps frameLaw := by
  refine Tree.meaning_keeps_of_forms (s := ()) (fun _ => frameLaw) (fun _ _ => True)
    (fun _ => frameLaw.isSequential) (fun _ _ => ?_) (fun fuel ih _ f parts _ => ?_) fuel trivial
  · exact ⟨fun _ m => .refl m .shattered, fun _ m => .refl m .persisted⟩
  · exact Form.meaning_keeps_frameLaw (fun t => ih (s := ()) trivial) f fuel parts

end Spellbook
