import Spellbook.Proofs.Check
import Spellbook.Session

/-!
# Words that leave something

`shatter` and `persist` leave a turn of a cycle and `proclaim` leaves an incantation. Where they
stand in a program decides whether there is anything to leave: the check `scoping` asks that every
such word has around it, in the same incantation, what it leaves. Each declaration is checked as a
body of its own, so a cycle around the declaration does not count.

The check is enough (`Tree.meaning_keeps_flowLaw`). The invariant of a run is that the bodies of all
incantations that have been declared passed it as well.
-/

namespace Spellbook

/-! ## The check -/

/-- What is around a tree, up to the incantation whose body it belongs to. -/
structure Surroundings where
  inCycle : Bool
  inIncantation : Bool

/-- There is nothing around a program. -/
def Surroundings.top : Surroundings := ⟨false, false⟩

/-- What is around the body of an incantation. -/
def Surroundings.body : Surroundings := ⟨false, true⟩

/-- Every word that leaves a cycle stands in one, and every proclamation in an incantation. -/
def scoping : Check Surroundings where
  here s t :=
    match t with
    | .node (.form .proclaim) _ => s.inIncantation
    | t => (t.use != .shatter && t.use != .persist) || s.inCycle
  inside s f i := ⟨s.inCycle || f.bodyIndex? == some i, s.inIncantation⟩
  body? := some .body

/-- What is asked of a tree that is no node of the language. -/
theorem scoping_here {t : Tree} (hform : ∀ f parts, t ≠ .node (.form f) parts) (s : Surroundings) :
    scoping.here s t = ((t.use != .shatter && t.use != .persist) || s.inCycle) := by
  cases t with
  | node label parts =>
      cases label with
      | form f => exact absurd rfl (hform f parts)
      | other name => rfl
  | token mark text => rfl
  | absent => rfl

/-- A part has around it what the whole has, unless it is the body of a cycle. -/
theorem scoping_inside {f : Form} {i : Nat} (h : f.bodyIndex? ≠ some i) (s : Surroundings) :
    scoping.inside s f i = s := by
  show (⟨s.inCycle || f.bodyIndex? == some i, s.inIncantation⟩ : Surroundings) = s
  rw [beq_eq_false_iff_ne.mpr h, Bool.or_false]

/-- The body of a cycle is inside of a cycle. -/
theorem scoping_inside_body {f : Form} {n : Nat} (h : f.bodyIndex? = some n) (s : Surroundings) :
    scoping.inside s f n = ⟨true, s.inIncantation⟩ := by
  show (⟨s.inCycle || f.bodyIndex? == some n, s.inIncantation⟩ : Surroundings) = _
  rw [h, beq_self_eq_true, Bool.or_true]

/-! ## The law -/

/-- Whether a tree with these surroundings may end in this way. -/
def Outcome.isAllowed (s : Surroundings) : Outcome → Bool
  | shattered | persisted => s.inCycle
  | proclaimed => s.inIncantation
  | done | failed | exhausted => true

/-- A cycle catches the outcomes that are allowed inside of it. -/
theorem Outcome.isAllowed_caught {s : Surroundings} {o : Outcome}
    (h : o.isAllowed ⟨true, s.inIncantation⟩ = true) : o.caught.isAllowed s = true := by
  cases o with
  | proclaimed => exact h
  | done | shattered | persisted | failed | exhausted => rfl

/-- A cast catches the outcomes that are allowed in a body. -/
theorem Outcome.isAllowed_returned {s : Surroundings} {o : Outcome} (h : o.isAllowed .body = true) :
    o.returned.isAllowed s = true := by
  cases o with
  | shattered | persisted => cases h
  | done | proclaimed | failed | exhausted => rfl

/-- All incantations of the book have passed the check. -/
def Machine.BookScoped (m : Machine) : Prop :=
  ∀ name i, m.book.find? name = some i → i.body.passes scoping .body = true

/-- The book stays scoped, and a run leaves only what there is to leave. -/
def flowLaw (s : Surroundings) : Law := fun m o m' =>
  m.BookScoped → m'.BookScoped ∧ o.isAllowed s = true

namespace flowLaw

variable {s : Surroundings}

/-- The law of a run that leaves the book alone. -/
theorem intro {m m' : Machine} {o : Outcome} (hbook : m'.book = m.book)
    (ho : o.isAllowed s = true) : flowLaw s m o m' := by
  intro hm
  refine ⟨fun name i hi => hm name i ?_, ho⟩
  rw [← hbook]
  exact hi

theorem isSequential : (flowLaw s).Sequential where
  failed _ := intro rfl rfl
  exhausted _ := intro rfl rfl
  speech _ _ _ hbook := intro hbook rfl
  trans h₁ h₂ hm := h₂ (h₁ hm).1

theorem isLocal : (flowLaw s).Local where
  toSequential := isSequential
  write _ _ _ := intro rfl rfl
  dispel _ _ := intro rfl rfl
  modify _ hm _ _ := isSequential.trans hm (intro rfl rfl)
  turn _ hm := isSequential.trans hm (intro rfl rfl)

theorem goesOn_keeps {body : Spell Datum} (hbody : body.Keeps (flowLaw ⟨true, s.inIncantation⟩)) :
    (goesOn body).Keeps (flowLaw s) :=
  Spellbook.goesOn_keeps (fun h hm => ⟨(h hm).1, Outcome.isAllowed_caught (h hm).2⟩) hbody

/-- Declaring an incantation whose body has passed the check. -/
theorem declare {m : Machine} {name : String} {i : Incantation}
    (hi : i.body.passes scoping .body = true) :
    flowLaw s m .done { m with book := m.book.put name i } := by
  intro hm
  refine ⟨fun name' i' hi' => ?_, rfl⟩
  rw [Table.find?_put] at hi'
  split at hi'
  · cases hi'
    exact hi
  · exact hm name' i' hi'

/-- A call of an incantation whose body leaves at most the call itself. -/
theorem callWith_ends {run : Run} {i : Incantation} (hbody : (run i.body).Keeps (flowLaw .body))
    {ds : List Datum} (hcount : ds.length = i.parameters.length) {m₀ m : Machine}
    (hm : flowLaw s m₀ .done m) : (callWith run i ds).Ends (flowLaw s m₀) m := by
  refine Spellbook.callWith_ends hcount (isSequential.trans hm (intro rfl rfl)) fun _ => ?_
  refine castBody_ends ?_
  intro hm₀
  obtain ⟨hbook, ho⟩ := hbody (m.mapScope (·.enterWith i ds)) (hm hm₀).1
  exact ⟨hbook, Outcome.isAllowed_returned ho⟩

end flowLaw

/-! ## Every tree -/

section
variable {run : Run}
  (hrun : ∀ {t : Tree} {s : Surroundings}, t.passes scoping s = true → (run t).Keeps (flowLaw s))
  {s : Surroundings} {f : Form} {parts : List Tree}
  (hf : (Tree.node (.form f) parts).passes scoping s = true)
include hrun hf

/-- The parts of a node that is no cycle and neither declares nor casts. -/
theorem parts_keep_flowLaw (hdirect : f.isDirect = true) (hcycle : f.bodyIndex? = none) :
    ∀ t ∈ parts, (run t).Keeps (flowLaw s) := by
  intro t ht
  obtain ⟨i, hi⟩ := List.mem_iff_getElem?.mp ht
  have hpart := Tree.passes_part hdirect hf hi
  rw [scoping_inside (by rw [hcycle]; nofun)] at hpart
  exact hrun hpart

/-- A cycle lets nothing out that is not allowed around it. -/
theorem cycle_keeps_flowLaw {n : Nat} (hn : f.bodyIndex? = some n) (fuel : Nat) :
    (f.meaning fuel run parts).Keeps (flowLaw s) := by
  have hdirect := Form.isDirect_of_cycle hn
  refine flowLaw.isLocal.cycle_keeps fuel hn (fun i hi t ht => hrun ?_)
    fun t ht => flowLaw.goesOn_keeps (hrun ?_)
  · have hcycle : f.bodyIndex? ≠ some i := fun h => hi (Option.some.inj (h.symm.trans hn))
    rw [← scoping_inside hcycle s]
    exact Tree.passes_part hdirect hf ht
  · rw [← scoping_inside_body hn]
    exact Tree.passes_part hdirect hf ht

/-- Each form lets nothing out that is not allowed around it, if its parts do not. -/
theorem Form.meaning_keeps_flowLaw (fuel : Nat) : (f.meaning fuel run parts).Keeps (flowLaw s) := by
  rcases f.tame_or with htame | ⟨n, hn⟩ | rfl | rfl | rfl | rfl
  · have hparts := parts_keep_flowLaw hrun hf htame.isDirect htame.bodyIndex?_eq
    exact htame.meaning_keeps flowLaw.isLocal.runic hparts fuel
  · exact cycle_keeps_flowLaw hrun hf hn fuel
  · exact flowLaw.isLocal.dispelMeaning_keeps (parts_keep_flowLaw hrun hf rfl rfl)
  · exact incantationMeaning_keeps flowLaw.isSequential
      (fun t ht => hrun (Tree.passes_name (.inl rfl) hf ht))
      (fun t ht => hrun (Tree.passes_listed (.inl rfl) hf ht))
      (fun m name parameters _ => flowLaw.declare (Tree.passes_body rfl rfl hf))
  · have hplace : s.inIncantation = true := Tree.passes_here hf
    have hparts := parts_keep_flowLaw hrun hf rfl rfl
    exact proclaimMeaning_keeps flowLaw.isSequential
      (fun t ht => hparts t (List.mem_of_getElem? ht)) (fun m => flowLaw.intro rfl hplace)
  · refine castMeaning_keeps flowLaw.isSequential
      (fun t ht => hrun (Tree.passes_name (.inr rfl) hf ht))
      (fun t ht => hrun (Tree.passes_listed (.inr rfl) hf ht)) fun m₀ name i hi ds m hm hcount => ?_
    -- that the body is scoped is known of the book at the time of the cast
    intro hm₀
    exact flowLaw.callWith_ends (hrun (hm₀ name i hi)) hcount hm hm₀

end

/-- **What a scoped tree leaves is around it.** -/
theorem Tree.meaning_keeps_flowLaw {s : Surroundings} {t : Tree} (ht : t.passes scoping s = true)
    (fuel : Nat) : (t.meaning fuel).Keeps (flowLaw s) := by
  refine Tree.meaning_keeps_of_forms flowLaw (fun s t => t.passes scoping s = true)
    (fun _ => flowLaw.isSequential) (fun {s t} ht hword => ?_)
    (fun fuel ih _ _ _ hf => Form.meaning_keeps_flowLaw ih hf fuel) fuel ht
  have hhere := Tree.passes_here ht
  rw [scoping_here hword] at hhere
  refine ⟨fun hu _ => flowLaw.intro rfl ?_, fun hu _ => flowLaw.intro rfl ?_⟩
  · rw [hu] at hhere
    exact hhere
  · rw [hu] at hhere
    exact hhere

/-! ## Programs -/

/-- The reports of words that had nothing to leave. -/
def leavingTitles : List String := ["ShatterError", "PersistenceError", "ReturnValue"]

/-- No fault is titled as a way to leave. -/
theorem Fault.title_not_mem_leavingTitles (f : Fault) : f.title ∉ leavingTitles := by
  unfold Fault.title
  split
  all_goals decide

/-- An ending that is allowed at the top is not told as a way to leave. -/
theorem Ending.title_not_mem_leavingTitles {α : Type} {e : Ending α} {k : Complaint}
    (he : e.outcome.isAllowed .top = true) (hk : e.complaint? = some k) :
    k.title ∉ leavingTitles := by
  cases e with
  | done a => cases hk
  | proclaimed d | shattered | persisted => cases he
  | failed f =>
      cases hk
      exact f.title_not_mem_leavingTitles
  | exhausted =>
      cases hk
      decide

/-- **A scoped program leaves nothing that is not there.** Whatever it listens to and chance draws,
it does not end by shattering, persisting or proclaiming, and no such word is reported. -/
theorem scoped_program_never_escapes {t : Tree} (ht : t.passes scoping .top = true) (fuel : Nat)
    (input : String) (draws : List Float) :
    let ending := (t.meaning fuel (Machine.fresh input draws)).1
    ending.outcome ∉ [.shattered, .persisted, .proclaimed] ∧
      ∀ k, ending.complaint? = some k → k.title ∉ leavingTitles := by
  have hfresh : (Machine.fresh input draws).BookScoped := nofun
  obtain ⟨-, hallowed⟩ := Tree.meaning_keeps_flowLaw ht fuel _ hfresh
  refine ⟨fun hmem => ?_, fun k => Ending.title_not_mem_leavingTitles hallowed⟩
  simp only [List.mem_cons, List.not_mem_nil, or_false] at hmem
  rcases hmem with ho | ho | ho
  all_goals
    rw [ho] at hallowed
    cases hallowed

def endless (body : List Tree) : Tree :=
  .node (.form .endlessCycle) [.leaf .cycle "cycle", .leaf .ad "AD", .leaf .infinitum "infinitum",
    .node (.form .block) body]

/-- A cycle within an incantation and a cycle that casts it, each of which is shattered. -/
def nestedCycles : Tree :=
  .node (.form .start) [
    .node (.form .incantation) [.leaf .incantation "incantation", .named "f", .absent,
      .node (.form .block) [
        endless [.node (.form .interrupt) [.leaf .shatter "shatter"]],
        .node (.form .proclaim) [.leaf .proclaim "proclaim", .leaf .truth "Truthsung"]]],
    endless [
      .node (.form .cast) [.leaf .castWord "cast", .named "f", .absent],
      .node (.form .interrupt) [.leaf .shatter "shatter"]]]

theorem scoped_program_never_escapes_nestedCycles :
    let ending := (nestedCycles.meaning 20 (Machine.fresh "" [])).1
    ending.outcome ∉ [.shattered, .persisted, .proclaimed] ∧
      ∀ k, ending.complaint? = some k → k.title ∉ leavingTitles :=
  scoped_program_never_escapes (by decide) 20 "" []

/-- A cycle around a declaration is no cycle for the body. -/
example :
    (endless [.node (.form .incantation) [.leaf .incantation "incantation", .named "f", .absent,
    .node (.form .interrupt) [.leaf .shatter "shatter"]]]).passes scoping .top = false := by decide

end Spellbook
