import Spellbook.Proofs.Cast
import Spellbook.Proofs.Reaching

/-!
# Proclaiming

`proclaim` ends a call. However deep it stands in blocks, choices and cycles of the body, nothing of
the body is run after it, no cycle takes its rune a step further or dispels it, and what is
proclaimed is what the cast comes to (`proclaim_ends_call`).

This takes something to proclaim. Without an expression the node still has a part, which is absent,
and to run that is a fault (`bare_proclaim_fails`).
-/

namespace Spellbook

/-! ### Proclaiming something -/

/-- Only the frame of the call is above the frames of the caller, unless the body fails. -/
theorem leaveTo_of_body {n : Nat} {i : Incantation} {ds : List Datum} {t : Tree} {e : Ending Datum}
    {m₁ m' : Machine} (h : t.meaning n (m₁.mapScope (·.enterWith i ds)) = (e, m'))
    (he : e.outcome ≠ .failed) :
    m'.scope.leaveTo m₁.scope.length = m'.scope.tail := by
  obtain ⟨f, hf, -⟩ := m₁.scope.enterWith_eq i ds
  -- The law of frames: a body that does not fail leaves one frame on those of its caller.
  have hlaw := Tree.meaning_keeps_frameLaw n t (m₁.mapScope (·.enterWith i ds))
  rw [Spell.Ends, h] at hlaw
  have hevolves := hlaw.evolves (by rw [Machine.mapScope_scope, hf]; exact List.cons_ne_nil _ _) he
  rw [Machine.mapScope_scope, hf] at hevolves
  generalize m'.scope = s' at hevolves
  cases hevolves with
  | @intro _ f' _ s hkept _ _ =>
    rw [← hkept.length_eq]
    exact Scope.leaveTo_append [] f' s

theorem meaning_proclaim {k : Nat} {parts : List Tree} {e : Tree} {v : Datum} {m m' : Machine}
    (he : parts[1]? = some e) (hv : e.meaning k m = (.done v, m')) :
    (Tree.form .proclaim parts).meaning (k + 1) m = (.proclaimed v, m') := by
  show proclaimMeaning (Tree.meaning k) parts m = _
  rw [proclaimMeaning, he]
  exact Spell.bind_of_done hv

/-- **A proclamation ends the call.** If the body, run in the frame of the call, reaches a
`proclaim` whose expression evaluates to `v`, then the body ends there and the cast comes to `v`.
The machine is the one that the expression has left, without the frame of the call. And among all
kinds of nodes it is only the cast that stops a proclamation: any other that runs a part which
proclaims something ends with that, as otherwise it would not matter to it what the part does in
that machine. -/
theorem proclaim_ends_call {n k : Nat} {parts ps : List Tree} {e : Tree} {m m₁ m₂ m₃ : Machine}
    {name : String} {i : Incantation} {ds : List Datum} {v : Datum}
    (hcall : ReachesCall (Tree.meaning n) parts m name i ds m₁)
    (hcount : ds.length = i.parameters.length) (hvalues : ∀ d ∈ ds, ∃ v, d.toValue = .ok v)
    (hreaches : Reaches n i.body (m₁.mapScope (·.enterWith i ds)) (k + 1) (.form .proclaim ps) m₂)
    (he : ps[1]? = some e) (hv : e.meaning k m₂ = (.done v, m₃)) :
    i.body.meaning n (m₁.mapScope (·.enterWith i ds)) = (.proclaimed v, m₃) ∧
    (Tree.form .cast parts).meaning (n + 1) m = (.done v, m₃.mapScope List.tail) ∧
    ∀ f : Form, f ≠ .cast → ∀ (fuel : Nat) (run : Run) (parts : List Tree) (t : Tree)
    (m m₁ m₂ : Machine) (d : Datum),
      run t m₁ = (.proclaimed d, m₂) → f.meaning fuel run parts m = (.proclaimed d, m₂) ∨
        ∀ run' : Run, (∀ u m', u ≠ t ∨ m' ≠ m₁ → run' u m' = run u m') →
          f.meaning fuel run' parts m = f.meaning fuel run parts m := by
  have hbody := hreaches.meaning_eq (meaning_proclaim he hv) rfl
  refine ⟨hbody, ?_, fun f hf fuel run parts t m m₁ m₂ d ht =>
    Form.meaning_of_proclaimed hf ht fuel parts m⟩
  rw [hcall.meaning_cast hcount hvalues, castBody_apply, hbody]
  show (Ending.done v, { m₃ with scope := m₃.scope.leaveTo m₁.scope.length }) = _
  rw [leaveTo_of_body hbody nofun]
  rfl

/-- The machine in which a body without parameters is run. -/
def Machine.entered (m : Machine) (body : Tree) : Machine := m.mapScope (·.enterWith ⟨[], body⟩ [])

/-- A body in which a proclamation stands in a choice, by chance, in all four kinds of cycle. -/
def deepBody : Tree :=
  .form .block [eachCycle "c" (runeValue "s") (.form .block [
    rangeCycle "i" (.leaf .whole "1") (.leaf .whole "2") .absent (.form .block [
      lestCycle (.leaf .truth "Falsehood") (.form .block [
        .form .endlessCycle [.leaf .cycle "cycle", .leaf .ad "AD", .leaf .infinitum "infinitum",
          .form .block [ .form .mayhaps [.leaf .mayhaps "mayhaps", .absent, .form .block [
            .form .foretell [.leaf .foretell "foretell", .leaf .truth "Truthsung", .form .block [
              .form .proclaim [.leaf .proclaim "proclaim", runeValue "c"]], .absent, .absent]],
            .absent, .absent]]]])])])]

/-- A caller that knows the incantation with that body. -/
def deepCaller : Machine where
  scope := [{ own := [("s", .fresh (some (.text (String.ofList ['a', 'b']))) false)] }]
  book := [("f", ⟨[], deepBody⟩)]
  draws := [0.25]

theorem deepBody_reaches : ∃ m m', Reaches 20 deepBody (deepCaller.entered deepBody) 7
      (.form .proclaim [.leaf .proclaim "proclaim", runeValue "c"]) m ∧
    (runeValue "c").meaning 6 m = (.done (.rune (letter 'a')), m') := by
  have hletter (body : Spell Datum) : TurnBegins body (pure ())
      ((String.ofList ['a', 'b']).toList.map (askEach "c"))
        ((deepCaller.entered deepBody).withLetters "c")
      (((deepCaller.entered deepBody).withLetters "c").advance "c" (letter 'a')) := by
    rw [String.toList_ofList]
    exact .first rfl
  exact ⟨_, _, .inside .head <| .inside (.eachCycle rfl rfl rfl rfl rfl (hletter _)) <|
    .inside .head <| .inside (.rangeCycle rfl rfl rfl (.first rfl)) <|
    .inside .head <| .inside (.lestCycle rfl (.first rfl)) <|
    .inside .head <| .inside (.endlessCycle rfl (.first rfl)) <|
    .inside .head <| .inside (.mayhaps rfl rfl) <|
    .inside .head <| .inside (.foretell (.isTrue rfl rfl rfl rfl)) <|
    .inside .head .here, rfl⟩

/-- The first character is proclaimed. -/
theorem proclaim_ends_call_deep : ∃ m₂ m₃, Reaches 20 deepBody (deepCaller.entered deepBody) 7
      (.form .proclaim [.leaf .proclaim "proclaim", runeValue "c"]) m₂ ∧
    (runeValue "c").meaning 6 m₂ = (.done (.rune (letter 'a')), m₃) ∧
    deepBody.meaning 20 (deepCaller.entered deepBody) = (.proclaimed (.rune (letter 'a')), m₃) ∧
    (Tree.form .cast [.leaf .castWord "cast", .named "f", .absent]).meaning 21 deepCaller =
      (.done (.rune (letter 'a')), m₃.mapScope List.tail) := by
  obtain ⟨m₂, m₃, hreaches, hv⟩ := deepBody_reaches
  have hcall : ReachesCall (Tree.meaning 20) [.leaf .castWord "cast", .named "f", .absent]
      deepCaller "f" ⟨[], deepBody⟩ [] deepCaller := ⟨deepCaller, rfl, rfl, rfl⟩
  obtain ⟨hbody, hcast, -⟩ := proclaim_ends_call hcall rfl nofun hreaches rfl hv
  exact ⟨m₂, m₃, hreaches, hv, hbody, hcast⟩

/-! ### Proclaiming nothing -/

/-- A `proclaim` that is read has two parts, also if there is no expression. -/
theorem proclaim_parts_of_read {source : String} {program : Tree} {ps : List Tree}
    (hread : Tree.read source = .ok program) (ht : Tree.form .proclaim ps ∈ program.subtrees) :
    ∃ t, ps = [.leaf .proclaim "proclaim", t] := by
  have htwo : Grammar.productions.filter (·.shape == .node .proclaim) =
      [[.part .expression], [.gap]].map fun rest =>
        Grammar.rule .proclaim .proclaim (.kept .proclaim :: rest) := by
    decide
  refine Tree.parts_of_read (P := fun ps => ∃ t, ps = [.leaf .proclaim "proclaim", t])
    (fun _ => productions_laid) (fun p hp ts ls h => ?_) hread ht
  rw [htwo] at hp
  simp only [List.map_cons, List.map_nil, List.mem_cons, List.not_mem_nil, or_false] at hp
  obtain rfl | rfl := hp
  · obtain ⟨text, _, _, hspelled, rfl, -, _, _, _, _, rfl, -, hpart, rfl, -⟩ := h
    obtain ⟨e, rfl⟩ := hpart.1 rfl
    rw [hspelled.text_eq rfl]
    exact ⟨e, rfl⟩
  -- Where there is no expression, the production has a gap, and a gap is a part.
  · obtain ⟨text, _, _, hspelled, rfl, -, _, rfl, rfl, -⟩ := h
    rw [hspelled.text_eq rfl]
    exact ⟨.absent, rfl⟩

/-- **A bare proclamation is a fault.** If a body that is read reaches a `proclaim` without an
expression, then its part for the expression is absent and is run all the same. The body ends there,
and so does the call, but it comes to no result. -/
theorem bare_proclaim_fails {source : String} {program : Tree}
    {declaration parts ps : List Tree} {n k : Nat} {m m₁ m₂ : Machine} {name : String}
    {i : Incantation} {ds : List Datum} (hread : Tree.read source = .ok program)
    (hdeclaration : Tree.form .incantation declaration ∈ program.subtrees)
    (hbody : declaration.getLast? = some i.body)
    (hcall : ReachesCall (Tree.meaning n) parts m name i ds m₁)
    (hcount : ds.length = i.parameters.length) (hvalues : ∀ d ∈ ds, ∃ v, d.toValue = .ok v)
    (hreaches : Reaches n i.body (m₁.mapScope (·.enterWith i ds)) (k + 2) (.form .proclaim ps) m₂)
    (hbare : ∀ t ∈ ps.tail, t = .absent) :
    ps = [.leaf .proclaim "proclaim", .absent] ∧
    i.body.meaning n (m₁.mapScope (·.enterWith i ds)) =
      (.failed (.noAttribute "NoneType" "data"), m₂) ∧
    (Tree.form .cast parts).meaning (n + 1) m =
      (.failed (.noAttribute "NoneType" "data"), m₂.mapScope (·.leaveTo m₁.scope.length)) := by
  have hmem :=
    hreaches.mem_subtrees (Tree.part_mem_subtrees (List.mem_of_getLast? hbody) hdeclaration)
  obtain ⟨t, rfl⟩ := proclaim_parts_of_read hread hmem
  obtain rfl : t = .absent := hbare t (List.mem_singleton_self t)
  have hfails := hreaches.meaning_eq (r := (.failed (.noAttribute "NoneType" "data"), m₂)) rfl rfl
  refine ⟨rfl, hfails, ?_⟩
  rw [hcall.meaning_cast hcount hvalues, castBody_apply, hfails]
  rfl

def callerOf (body : Tree) : Machine where
  book := [("f", ⟨[], body⟩)]

/-- The second branch of a choice is bare. -/
theorem bare_proclaim_fails_shifted :
    leavingBody.meaning 9 ((callerOf leavingBody).entered leavingBody) =
      (.failed (.noAttribute "NoneType" "data"), (callerOf leavingBody).entered leavingBody) ∧
    (Tree.form .cast [.leaf .castWord "cast", .named "f", .absent]).meaning 10
      (callerOf leavingBody) =
      (.failed (.noAttribute "NoneType" "data"), callerOf leavingBody) := by
  have hreaches : Reaches 9 leavingBody ((callerOf leavingBody).entered leavingBody) 6
      (.form .proclaim [.leaf .proclaim "proclaim", .absent])
        ((callerOf leavingBody).entered leavingBody) :=
    .inside .head <| .inside (.foretell (.isFalse rfl rfl rfl rfl (.isTrue rfl rfl rfl rfl))) <|
      .inside .head .here
  have hcall : ReachesCall (Tree.meaning 9) [.leaf .castWord "cast", .named "f", .absent]
      (callerOf leavingBody) "f" ⟨[], leavingBody⟩ [] (callerOf leavingBody) := ⟨_, rfl, rfl, rfl⟩
  have hdeclaration : leavingDeclaration ∈ (Tree.form .start [leavingDeclaration]).subtrees := by
    simp [Tree.subtrees, Tree.subtreesAll, Tree.self_mem_subtrees]
  exact (bare_proclaim_fails read_leavingDeclaration hdeclaration rfl hcall rfl nofun
    hreaches (by simp)).2

/-- A call whose body runs off its end comes to nothing, but one whose body proclaims nothing
fails. -/
theorem bare_proclaim_is_no_end :
    (Tree.form .cast [.leaf .castWord "cast", .named "f", .absent]).meaning 5
      (callerOf (.form .block [])) = (.done .nothing, callerOf (.form .block [])) ∧
    (Tree.form .cast [.leaf .castWord "cast", .named "f", .absent]).meaning 5
        (callerOf (.form .block [.form .proclaim [.leaf .proclaim "proclaim", .absent]])) =
      (.failed (.noAttribute "NoneType" "data"),
        callerOf (.form .block [.form .proclaim [.leaf .proclaim "proclaim", .absent]])) :=
  ⟨rfl, rfl⟩

end Spellbook
