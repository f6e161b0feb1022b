import Spellbook.Proofs.Statements
import Spellbook.Proofs.Scope

/-!
# Declaring, casting and proclaiming

What a cast does apart from the spell it runs. Binding the arguments writes the parameters up to
the first argument that is refused (`bindArguments_apply`), and whatever the body comes to, the
frames above the caller's are closed (`castBody_ends`).

From this follow the rules for laws: a cast keeps a law if its name and its arguments do, and if the
law allows for the call of every incantation that the book may hold (`castMeaning_keeps`).
-/

namespace Spellbook

/-! ## Lists of names and arguments -/

def Tree.listed : Tree → List Tree
  | .node _ ts => ts
  | _ => []

theorem members_bind_ends {α : Type} {P : Outcome → Machine → Prop} {t : Tree} {m : Machine}
    {k : List Tree → Spell α} (hfail : P .failed m) (hk : (k t.listed).Ends P m) :
    (members t >>= k).Ends P m := by
  cases t with
  | node label ts => exact hk
  | absent => exact hk
  | token mark s =>
      rw [members]
      by_cases hs : s.isEmpty = true
      · rw [if_pos hs]
        exact hk
      · rw [if_neg hs]
        exact hfail

section Lists

variable {L : Law} (hL : L.Sequential) {run : Run}
include hL

/-- What goes on with the members of a list keeps the law if it does for what is listed. -/
theorem members_bind_keeps {α : Type} {t : Tree} {k : List Tree → Spell α}
    (hk : (k t.listed).Keeps L) : (members t >>= k).Keeps L :=
  fun m => members_bind_ends (hL.failed m) (hk m)

theorem runKeys_keeps {ts : List Tree} (h : ∀ t ∈ ts, (run t).Keeps L) :
    (runKeys run ts).Keeps L := by
  induction ts with
  | nil => exact hL.pure _
  | cons t ts ih =>
      refine hL.bind (h t List.mem_cons_self) fun d => ?_
      refine hL.bind (hL.lift _) fun name => ?_
      refine hL.bind (ih fun t ht => h t (List.mem_cons_of_mem _ ht)) fun names => ?_
      exact hL.pure _

end Lists

/-! ## Declaring and proclaiming -/

section Declaring

variable {L : Law} (hL : L.Sequential) {run : Run} {parts : List Tree}
include hL

/-- An incantation keeps the law if its name, its parameters and its entry into the book do. -/
theorem incantationMeaning_keeps
    (hname : ∀ t, parts[1]? = some t → (run t).Keeps L)
    (hparameters : ∀ t ∈ (optionalPart parts 2).listed, (run t).Keeps L)
    (hdeclare : ∀ m name parameters, m.book.find? name = none → L m .done
      { m with book := m.book.put name ⟨parameters, parts.getLast?.getD .absent⟩ }) :
    (incantationMeaning run parts).Keeps L := by
  refine hL.bind (runPart_keeps_at hL hname) fun name => ?_
  refine members_bind_keeps hL ?_
  refine hL.bind (runKeys_keeps hL hparameters) fun parameters => ?_
  refine hL.bind (hL.lift _) fun name m => ?_
  refine Spell.Ends.look_bind ?_
  refine Spell.Ends.check (hL.failed m) fun hfree => ?_
  exact hdeclare m name parameters (Option.not_isSome_iff_eq_none.mp hfree)

/-- A proclamation keeps the law if its value does and the law lets it proclaim. -/
theorem proclaimMeaning_keeps (h : ∀ t, parts[1]? = some t → (run t).Keeps L)
    (hproclaim : ∀ m, L m .proclaimed m) : (proclaimMeaning run parts).Keeps L := by
  unfold proclaimMeaning
  split
  · exact hproclaim
  · rename_i t ht
    exact hL.bind (h t ht) fun d => hproclaim

end Declaring

/-! ## Binding arguments -/

/-- The values of the arguments up to the first that is refused, and why it is. -/
def toValues : List Datum → List Value × Option Fault
  | [] => ([], none)
  | d :: ds =>
    match d.toValue with
    | .error f => ([], some f)
    | .ok v => (v :: (toValues ds).1, (toValues ds).2)

/-- Writes fresh runes, one after the other. -/
def Scope.writeAll (s : Scope) (pairs : List (String × Value)) : Scope :=
  pairs.foldl (fun s p => s.write p.1 (.fresh (some p.2) false)) s

/-- **Binding writes the parameters before the first argument that is refused.** -/
theorem bindArguments_apply {names : List String} {ds : List Datum}
    (hlength : ds.length = names.length) (m : Machine) :
    bindArguments names ds m =
      ((match (toValues ds).2 with
        | none => .done ()
        | some f => .failed f), m.mapScope (·.writeAll (names.zip (toValues ds).1))) := by
  induction ds generalizing names m with
  | nil =>
      cases names with
      | nil => rfl
      | cons name names => cases hlength
  | cons d ds ih =>
      cases names with
      | nil => cases hlength
      | cons name names =>
          rw [bindArguments, toValues]
          cases hd : d.toValue with
          | error f => rfl
          | ok v =>
              have hlength' : ds.length = names.length := Nat.succ.inj hlength
              exact ih hlength' (m.mapScope (·.write name (.fresh (some v) false)))

/-- Data that all are values give as many. -/
theorem toValues_length {ds : List Datum} (h : (toValues ds).2 = none) :
    (toValues ds).1.length = ds.length := by
  induction ds with
  | nil => rfl
  | cons d ds ih =>
      rw [toValues] at h ⊢
      cases hd : d.toValue with
      | error f =>
          rw [hd] at h
          cases h
      | ok v =>
          rw [hd] at h
          rw [List.length_cons, List.length_cons, ih h]

theorem toValues_of_forall {ds : List Datum} (h : ∀ d ∈ ds, ∃ v, d.toValue = .ok v) :
    (toValues ds).2 = none := by
  induction ds with
  | nil => rfl
  | cons d ds ih =>
      obtain ⟨v, hv⟩ := h d List.mem_cons_self
      rw [toValues, hv]
      exact ih fun d hd => h d (List.mem_cons_of_mem _ hd)

/-- Writing in the running frame leaves the frames beneath alone. -/
theorem Scope.writeAll_cons (f : Frame) (fs : Scope) (pairs : List (String × Value)) :
    ∃ f', Scope.writeAll (f :: fs) pairs = f' :: fs ∧
      ∀ x, f.covers x = true ∨ x ∈ pairs.map Prod.fst → f'.covers x = true := by
  induction pairs generalizing f with
  | nil =>
      refine ⟨f, rfl, fun x hx => ?_⟩
      rcases hx with hx | hx
      · exact hx
      · cases hx
  | cons p pairs ih =>
      obtain ⟨f', hf', hcovers⟩ :=
        ih { f with own := Table.put p.1 (.fresh (some p.2) false) f.own }
      refine ⟨f', hf', fun x hx => hcovers x ?_⟩
      rw [Frame.covers, Table.find?_put]
      rcases hx with hx | hx
      · left
        split
        · rfl
        · exact hx
      · rcases List.mem_cons.mp hx with rfl | hx
        · exact .inl (by rw [if_pos rfl]; rfl)
        · exact .inr hx

/-- The value that is written last under a name. -/
def lastBound (pairs : List (String × Value)) (x : String) : Option Value :=
  pairs.reverse.lookup x

/-- After several runes are written, a name is found in the last of them that has it. -/
theorem Scope.find?_writeAll (s : Scope) (pairs : List (String × Value)) (x : String) :
    (s.writeAll pairs).find? x =
      ((lastBound pairs x).map fun v => .fresh (some v) false).or (s.find? x) := by
  induction pairs generalizing s with
  | nil => rfl
  | cons p pairs ih =>
      obtain ⟨name, v⟩ := p
      have hlookup : List.lookup x [(name, v)] = if x = name then some v else none :=
        Table.find?_cons name x v []
      show Scope.find? ((s.write name (.fresh (some v) false)).writeAll pairs) x = _
      rw [ih, find?_write, lastBound, lastBound, List.reverse_cons, List.lookup_append, hlookup]
      cases pairs.reverse.lookup x with
      | some w => rfl
      | none =>
          by_cases hx : x = name
          · rw [if_pos hx, if_pos hx]
            rfl
          · rw [if_neg hx, if_neg hx]
            rfl

/-! ## Casting -/

/-- What a cast makes of the way in which the body ended. -/
def Outcome.returned : Outcome → Outcome
  | proclaimed => done
  | o => o

/-- What a cast makes of the ending of the body. -/
def Ending.returned : Ending Datum → Ending Datum
  | .done _ => .done .nothing
  | .proclaimed d => .done d
  | e => e

theorem Ending.outcome_returned (e : Ending Datum) : e.returned.outcome = e.outcome.returned := by
  cases e with
  | done | proclaimed | shattered | persisted | failed | exhausted => rfl

/-- A cast runs the body, catches its proclamation and leaves its frames. -/
theorem castBody_apply (body : Spell Datum) (depth : Nat) (m : Machine) :
    castBody body depth m = ((body m).1.returned, (body m).2.mapScope (·.leaveTo depth)) := by
  rw [castBody, Spell.bind_apply, Spell.bind, Spell.attempt]
  rcases body m with ⟨e, m'⟩
  cases e with
  | done | proclaimed | shattered | persisted | failed | exhausted => rfl

/-- **Whatever the body comes to, the frames above the caller's are closed.** -/
theorem castBody_ends {P : Outcome → Machine → Prop} {body : Spell Datum} {depth : Nat}
    {m : Machine} (h : body.Ends (fun o m => P o.returned (m.mapScope (·.leaveTo depth))) m) :
    (castBody body depth).Ends P m := by
  unfold Spell.Ends at h ⊢
  rw [castBody_apply, Ending.outcome_returned]
  exact h

/-- What is left of a cast once its arguments have been evaluated and counted. -/
def callWith (run : Run) (i : Incantation) (ds : List Datum) : Spell Datum := do
  let depth ← Spell.look fun m => m.scope.length
  Spell.change fun m => { m with scope := m.scope.enter }
  bindArguments i.parameters ds
  castBody (run i.body) depth

/-- The frame of a call, with the parameters before the first refused argument bound in it. -/
def Scope.enterWith (s : Scope) (i : Incantation) (ds : List Datum) : Scope :=
  s.enter.writeAll (i.parameters.zip (toValues ds).1)

/-- A call whose arguments are refused ends at once, with its frame open. -/
theorem callWith_of_refused {run : Run} {i : Incantation} {ds : List Datum} {f : Fault}
    (hcount : ds.length = i.parameters.length) (hrefused : (toValues ds).2 = some f)
    (m : Machine) : callWith run i ds m = (.failed f, m.mapScope (·.enterWith i ds)) := by
  have hbind := bindArguments_apply hcount (m.mapScope Scope.enter)
  rw [hrefused] at hbind
  show (bindArguments i.parameters ds >>= fun _ => castBody (run i.body) m.scope.length)
    (m.mapScope Scope.enter) = _
  exact Spell.bind_of_failed hbind

/-- A call whose arguments are all bound goes on with the body. -/
theorem callWith_of_bound {run : Run} {i : Incantation} {ds : List Datum}
    (hcount : ds.length = i.parameters.length) (hbound : (toValues ds).2 = none) (m : Machine) :
    callWith run i ds m =
      castBody (run i.body) m.scope.length (m.mapScope (·.enterWith i ds)) := by
  have hbind := bindArguments_apply hcount (m.mapScope Scope.enter)
  rw [hbound] at hbind
  show (bindArguments i.parameters ds >>= fun _ => castBody (run i.body) m.scope.length)
    (m.mapScope Scope.enter) = _
  exact Spell.bind_of_done hbind

/-- The rule for calls: they fail with their frame open, or come to what the body comes to. -/
theorem callWith_ends {P : Outcome → Machine → Prop} {run : Run} {i : Incantation}
    {ds : List Datum} {m : Machine} (hcount : ds.length = i.parameters.length)
    (hrefused : P .failed (m.mapScope (·.enterWith i ds)))
    (hbound : (toValues ds).2 = none →
      (castBody (run i.body) m.scope.length).Ends P (m.mapScope (·.enterWith i ds))) :
    (callWith run i ds).Ends P m := by
  unfold Spell.Ends
  cases hvalues : (toValues ds).2 with
  | some f =>
      rw [callWith_of_refused hcount hvalues]
      exact hrefused
  | none =>
      rw [callWith_of_bound hcount hvalues]
      exact hbound hvalues

/-- The frame of a call lies on top of its caller's, and covers the parameters it has bound. -/
theorem Scope.enterWith_eq (s : Scope) (i : Incantation) (ds : List Datum) :
    ∃ f, s.enterWith i ds = f :: s ∧ ((toValues ds).2 = none → ds.length = i.parameters.length →
      ∀ p ∈ i.parameters, f.covers p = true) := by
  obtain ⟨f, hf, hcovers⟩ := Scope.writeAll_cons {} s (i.parameters.zip (toValues ds).1)
  refine ⟨f, hf, fun hbound hcount p hp => hcovers p (.inr ?_)⟩
  have hlength : i.parameters.length ≤ (toValues ds).1.length :=
    Nat.le_of_eq (hcount.symm.trans (toValues_length hbound).symm)
  rw [List.map_fst_zip hlength]
  exact hp

/-- A cast keeps a law if its name and its arguments do, and if a run that obeyed the law since the
incantation was looked up may go on to call it. -/
theorem castMeaning_keeps {L : Law} (hL : L.Sequential) {run : Run} {parts : List Tree}
    (hname : ∀ t, parts[1]? = some t → (run t).Keeps L)
    (harguments : ∀ t ∈ (optionalPart parts 2).listed, (run t).Keeps L)
    (hcall : ∀ m₀ name i, m₀.book.find? name = some i → ∀ ds m, L m₀ .done m →
      ds.length = i.parameters.length → (callWith run i ds).Ends (L m₀) m) :
    (castMeaning run parts).Keeps L := by
  have hkey : (runKey run parts 1).Keeps L :=
    hL.bind (runPart_keeps_at hL hname) fun _ => hL.lift _
  refine hL.bind hkey fun name m₀ => ?_
  refine Spell.Ends.look_bind ?_
  cases hi : m₀.book.find? name with
  | none => exact hL.failed m₀
  | some i =>
      refine members_bind_ends (hL.failed m₀) ?_
      refine Spell.Ends.bind (runAll_keeps hL harguments m₀) fun ds m _ hm => ?_
      refine Spell.Ends.check (hL.trans hm (hL.failed m)) fun hcount => ?_
      exact hcall m₀ name i hi ds m hm (Decidable.not_not.mp hcount)

end Spellbook
