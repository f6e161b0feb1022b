import Spellbook.Proofs.Frames

/-!
# Casting and the caller's runes

What the caller sees of a call. From the moment its arguments have been evaluated (`ReachesCall`)
a cast can come to three things:

* it fails as the arguments are too many or too few, and nothing has happened;
* it fails as one of the arguments is no value of a rune. The frame of the call has been opened by
  then and nothing closes it, so the parameters before that argument stay written
  (`refused_cast_scope`);
* the body is run, and whatever it comes to, the caller has its names back, its runes under the
  names of the parameters are as they were, and so are its sealed runes (`cast_restores_scope`).
-/

namespace Spellbook

/-! ## The moment of the call -/

/-- Cast from `m`, the parts name the incantation `i` and give it the arguments `ds`, and the
machine is `m₁` by then. -/
def ReachesCall (run : Run) (parts : List Tree) (m : Machine) (name : String) (i : Incantation)
    (ds : List Datum) (m₁ : Machine) : Prop :=
  ∃ m₀, runKey run parts 1 m = (.done name, m₀) ∧ m₀.book.find? name = some i ∧
    (members (optionalPart parts 2) >>= runAll run) m₀ = (.done ds, m₁)

/-- What is left of the cast is the count of the arguments and the call. -/
theorem ReachesCall.castMeaning_eq {run : Run} {parts : List Tree} {m m₁ : Machine} {name : String}
    {i : Incantation} {ds : List Datum} (h : ReachesCall run parts m name i ds m₁) :
    castMeaning run parts m =
      if ds.length ≠ i.parameters.length then
        (.failed (.wrongCount name i.parameters.length ds.length), m₁)
      else callWith run i ds m₁ := by
  obtain ⟨m₀, hkey, hi, harguments⟩ := h
  rw [castMeaning, Spell.bind_of_done hkey, Spell.look_bind_apply, hi]
  dsimp only
  rw [← Spell.bind_assoc, Spell.bind_of_done harguments]
  split
  · rfl
  · rfl

/-! ## Calls that reach the body -/

/-- A cast whose arguments are values of runes is the call of the body. -/
theorem ReachesCall.meaning_cast {fuel : Nat} {parts : List Tree} {m m₁ : Machine} {name : String}
    {i : Incantation} {ds : List Datum}
    (hcall : ReachesCall (Tree.meaning fuel) parts m name i ds m₁)
    (hcount : ds.length = i.parameters.length) (hvalues : ∀ d ∈ ds, ∃ v, d.toValue = .ok v) :
    (Tree.form .cast parts).meaning (fuel + 1) m =
      castBody (i.body.meaning fuel) m₁.scope.length (m₁.mapScope (·.enterWith i ds)) :=
  (hcall.castMeaning_eq.trans (if_neg (not_not_intro hcount))).trans
    (callWith_of_bound hcount (toValues_of_forall hvalues) m₁)

/-- **A call gives the caller its scope back**, whatever the body comes to: the same names are
written, the runes that share their names with parameters are as they were, and so is every sealed
rune. -/
theorem cast_restores_scope {fuel : Nat} {parts : List Tree} {m m₁ : Machine} {name : String}
    {i : Incantation} {ds : List Datum}
    (hcall : ReachesCall (Tree.meaning fuel) parts m name i ds m₁)
    (hcount : ds.length = i.parameters.length) (hvalues : ∀ d ∈ ds, ∃ v, d.toValue = .ok v) :
    let after := ((Tree.node (.form .cast) parts).meaning (fuel + 1) m).2.scope
    (∀ x, after.isWritten x = m₁.scope.isWritten x) ∧
      (∀ p ∈ i.parameters, after.find? p = m₁.scope.find? p) ∧
      ∀ x e, m₁.scope.find? x = some e → e.isSealed = true → after.find? x = some e := by
  have hbound := toValues_of_forall hvalues
  have hmeaning : (Tree.node (.form .cast) parts).meaning (fuel + 1) m =
      castBody (i.body.meaning fuel) m₁.scope.length (m₁.mapScope (·.enterWith i ds)) :=
    (hcall.castMeaning_eq.trans (if_neg (not_not_intro hcount))).trans
      (callWith_of_bound hcount hbound m₁)
  obtain ⟨hkept, hparameters⟩ := boundCall_kept (Tree.meaning_keeps_frameLaw fuel) hcount hbound m₁
  rw [hmeaning]
  exact ⟨hkept.isSome_find?, hparameters, fun x e => hkept.find?_of_sealed⟩

/-- An incantation whose parameter is called like a rune of the caller. The body copies it to `b`,
dispels it, writes it anew and proclaims something from within a cycle. -/
def shadowing : Incantation where
  parameters := ["a"]
  body := .node (.form .block) [
    .node (.form .assign) [.named "b", .node (.form .rune) [.leaf .name "a"]],
    .node (.form .dispel) [.leaf .dispel "dispel", .named "a"],
    .node (.form .declare) [.leaf .rune "rune", .named "a", .absent],
    .node (.form .endlessCycle) [.leaf .cycle "cycle", .leaf .ad "AD", .leaf .infinitum "infinitum",
      .node (.form .block) [.node (.form .proclaim) [.leaf .proclaim "proclaim",
        .leaf .truth "Truthsung"]]]]

/-- A caller with a sealed rune `a` and an open rune `b`. -/
def shadowedCaller : Machine where
  scope := [{ own := [("a", .fresh (some (.truth false)) true),
                      ("b", .fresh (some (.truth false)) false)] }]
  book := [("f", shadowing)]

/-- `cast f ~: Truthsung :~` -/
def shadowingCast : List Tree :=
  [.leaf .castWord "cast", .named "f", .node (.form .arguments) [.leaf .truth "Truthsung"]]

theorem cast_restores_scope_shadowed :
    let after := ((Tree.node (.form .cast) shadowingCast).meaning 9 shadowedCaller).2.scope
    (∀ x, after.isWritten x = shadowedCaller.scope.isWritten x) ∧
      (∀ p ∈ shadowing.parameters, after.find? p = shadowedCaller.scope.find? p) ∧
      ∀ x e, shadowedCaller.scope.find? x = some e → e.isSealed = true →
        after.find? x = some e := by
  have hcall : ReachesCall (Tree.meaning 8) shadowingCast shadowedCaller "f" shadowing
      [.rune (.truth true)] shadowedCaller := ⟨shadowedCaller, rfl, rfl, rfl⟩
  refine cast_restores_scope hcall rfl fun d hd => ⟨.truth true, ?_⟩
  rw [List.mem_singleton.mp hd]
  rfl

/-- The rune `b` is the caller's, so the body changes it for good. -/
example : ((Tree.node (.form .cast) shadowingCast).meaning 9 shadowedCaller).2.scope.find? "b" =
    some ⟨some (.truth true), some .truth, false, some (.truth false)⟩ := rfl

/-! ## Calls that do not -/

def twoParameters : Incantation := ⟨["a", "b"], .node (.form .block) []⟩

/-- A machine on which nothing is written. It knows `f`, and `v` that gives nothing. -/
def bareCaller : Machine where
  book := [("v", ⟨[], .node (.form .block) []⟩), ("f", twoParameters)]

/-- `cast f ~: Truthsung, t :~` -/
def castWith (t : Tree) : List Tree :=
  [.leaf .castWord "cast", .named "f", .node (.form .arguments) [.leaf .truth "Truthsung", t]]

/-- A range that stands alone evaluates to something, but not to a value of a rune. A call that is
given one as its second argument leaves its first parameter written. -/
theorem range_argument_leaves_parameter :
    let range := Tree.node (.form .range)
      [.named "i", .leaf .whole "1", .leaf .whole "2", .absent]
    ∃ ds, ReachesCall (Tree.meaning 8) (castWith range) bareCaller "f" twoParameters ds bareCaller ∧
      ds.length = twoParameters.parameters.length ∧ (∀ d ∈ ds, d ≠ .nothing) ∧
      bareCaller.scope.isWritten "a" = false ∧
      ((Tree.node (.form .cast) (castWith range)).meaning 9 bareCaller).2.scope.isWritten "a" =
        true := by
  refine ⟨[.rune (.truth true), Range.toDatum ⟨"i", .int, .int 1, .int 2, .int 1⟩],
    ⟨bareCaller, rfl, rfl, rfl⟩, rfl, fun d hd => ?_, rfl, rfl⟩
  simp only [List.mem_cons, List.not_mem_nil, or_false] at hd
  rcases hd with rfl | rfl
  · exact Datum.noConfusion
  · exact Datum.noConfusion

/-- **A call that fails before its body.** If the number of arguments is wrong, nothing has
happened. If an argument is refused, the frame of the call stays open: of the names that the caller
sees, those of the parameters before that argument are bound to what they were given, and all others
mean what they did. -/
theorem refused_cast_scope {fuel : Nat} {parts : List Tree} {m m₁ : Machine} {name : String}
    {i : Incantation} {ds : List Datum}
    (hcall : ReachesCall (Tree.meaning fuel) parts m name i ds m₁) :
    (ds.length ≠ i.parameters.length →
      (Tree.node (.form .cast) parts).meaning (fuel + 1) m =
        (.failed (.wrongCount name i.parameters.length ds.length), m₁)) ∧
    (ds.length = i.parameters.length → ∀ f, (toValues ds).2 = some f →
      ∃ after, (Tree.node (.form .cast) parts).meaning (fuel + 1) m =
          (.failed f, { m₁ with scope := after }) ∧
        (∀ x, after.find? x = ((lastBound (i.parameters.zip (toValues ds).1) x).map
          fun v => .fresh (some v) false).or (m₁.scope.find? x)) ∧
        ((∀ x, after.find? x = m₁.scope.find? x) ↔
          ∀ x v, lastBound (i.parameters.zip (toValues ds).1) x = some v →
            m₁.scope.find? x = some (.fresh (some v) false))) := by
  refine ⟨fun hcount => hcall.castMeaning_eq.trans (if_pos hcount), fun hcount f hrefused => ?_⟩
  have hfind := Scope.find?_writeAll m₁.scope.enter (i.parameters.zip (toValues ds).1)
  refine ⟨m₁.scope.enterWith i ds, ?_, hfind, fun hsame x v hv => ?_, fun hbound x => ?_⟩
  · exact (hcall.castMeaning_eq.trans (if_neg (not_not_intro hcount))).trans
      (callWith_of_refused hcount hrefused m₁)
  · rw [← hsame x, Scope.enterWith, hfind, hv]
    rfl
  · rw [Scope.enterWith, hfind]
    cases hv : lastBound (i.parameters.zip (toValues ds).1) x with
    | none => rfl
    | some v => exact (hbound x v hv).symm

/-- `cast v ~::~` -/
def castOfNothing : Tree := .node (.form .cast) [.leaf .castWord "cast", .named "v", .absent]

theorem refused_cast_scope_nothing :
    ∃ after, (Tree.node (.form .cast) (castWith castOfNothing)).meaning 9 bareCaller =
        (.failed .nothingToWrap, { bareCaller with scope := after }) ∧
      after.find? "a" = some (.fresh (some (.truth true)) false) ∧ after.find? "b" = none := by
  have hcall : ReachesCall (Tree.meaning 8) (castWith castOfNothing) bareCaller "f" twoParameters
      [.rune (.truth true), .nothing] bareCaller := ⟨bareCaller, rfl, rfl, rfl⟩
  obtain ⟨after, hmeaning, hfind, -⟩ := (refused_cast_scope hcall).2 rfl .nothingToWrap rfl
  exact ⟨after, hmeaning, hfind "a", hfind "b"⟩

/-- The scope after a refused argument need not be the scope from before the call. -/
theorem nothing_argument_leaves_parameter :
    ∃ ds, ReachesCall (Tree.meaning 8) (castWith castOfNothing) bareCaller "f" twoParameters ds
        bareCaller ∧
      ((Tree.node (.form .cast) (castWith castOfNothing)).meaning 9 bareCaller).1.outcome =
        .failed ∧
      ¬ ∀ x, ((Tree.node (.form .cast) (castWith castOfNothing)).meaning 9 bareCaller).2.scope.find?
        x = bareCaller.scope.find? x := by
  refine ⟨[.rune (.truth true), .nothing], ⟨bareCaller, rfl, rfl, rfl⟩, rfl, fun hsame => ?_⟩
  have ha : some (Entry.fresh (some (.truth true)) false) = none := hsame "a"
  cases ha

end Spellbook
