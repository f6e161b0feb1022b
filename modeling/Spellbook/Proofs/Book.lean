import Spellbook.Proofs.Cast
import Spellbook.Proofs.Language

/-!
# The book of incantations

A run never takes an incantation out of the book and never changes one, whatever it comes to
(`Tree.meaning_keeps_bookLaw`). Names outside the language may do anything, so this is said of trees
and books without such names. Frames are opened and closed around a call, but there is only one
book: a call leaves the book behind that its body left (`ReachesCall.book_eq`).

A declaration evaluates its name and its parameters before it looks into the book. If the name is
there it fails, and nothing has happened since (`ReachesDeclaration.meaning_eq`).
-/

namespace Spellbook

/-! ## Growing books -/

/-- Every incantation of the first book is in the second, as it was. -/
def Book.Grows (b b' : Table Incantation) : Prop :=
  ∀ name i, b.find? name = some i → b'.find? name = some i

namespace Book.Grows

variable {b b' b'' : Table Incantation}

theorem refl (b : Table Incantation) : Grows b b := fun _ _ h => h

theorem trans (h : Grows b b') (h' : Grows b' b'') : Grows b b'' :=
  fun name i hi => h' name i (h name i hi)

theorem put {name : String} (hfree : b.find? name = none) (i : Incantation) :
    Grows b (b.put name i) := by
  intro other j hj
  have hne : other ≠ name := by
    rintro rfl
    rw [hfree] at hj
    cases hj
  rw [Table.find?_put_of_ne b i hne]
  exact hj

end Book.Grows

/-- The book grows, whatever a run comes to. -/
def bookLaw : Law := fun m _ m' => Book.Grows m.book m'.book

namespace bookLaw

/-- The law of a run that leaves the book alone. -/
theorem intro {m m' : Machine} {o : Outcome} (h : m'.book = m.book) : bookLaw m o m' := by
  rw [bookLaw, h]
  exact .refl m.book

theorem isSequential : bookLaw.Sequential where
  failed _ := intro rfl
  exhausted _ := intro rfl
  speech _ _ _ hbook := intro hbook
  trans h₁ h₂ := Book.Grows.trans h₁ h₂

theorem isLocal : bookLaw.Local where
  toSequential := isSequential
  write _ _ _ := intro rfl
  dispel _ _ := intro rfl
  modify _ hm _ _ := hm
  turn _ hm := hm

theorem callWith_ends {run : Run} (hrun : ∀ t, (run t).Keeps bookLaw) {i : Incantation}
    {ds : List Datum} (hcount : ds.length = i.parameters.length) {m₀ m : Machine}
    (hm : bookLaw m₀ .done m) : (callWith run i ds).Ends (bookLaw m₀) m := by
  refine Spellbook.callWith_ends hcount hm fun _ => castBody_ends ?_
  exact Book.Grows.trans hm (hrun i.body (m.mapScope (·.enterWith i ds)))

end bookLaw

/-! ## Every tree -/

theorem Form.meaning_keeps_bookLaw {run : Run} (hrun : ∀ t, (run t).Keeps bookLaw) (f : Form)
    (fuel : Nat) (parts : List Tree) : (f.meaning fuel run parts).Keeps bookLaw := by
  rcases f.tame_or with htame | ⟨n, hn⟩ | rfl | rfl | rfl | rfl
  · exact htame.meaning_keeps bookLaw.isLocal.runic (fun t _ => hrun t) fuel
  · exact bookLaw.isLocal.cycle_keeps fuel hn (fun _ _ t _ => hrun t)
      (fun t _ => goesOn_keeps id (hrun t))
  · exact bookLaw.isLocal.dispelMeaning_keeps fun t _ => hrun t
  · exact incantationMeaning_keeps bookLaw.isSequential (fun t _ => hrun t) (fun t _ => hrun t)
      fun _ _ _ hfree => .put hfree _
  · exact proclaimMeaning_keeps bookLaw.isSequential (fun t _ => hrun t) fun _ => .intro rfl
  · exact castMeaning_keeps bookLaw.isSequential (fun t _ => hrun t) (fun t _ => hrun t)
      fun _ _ _ _ _ _ hm hcount => bookLaw.callWith_ends hrun hcount hm

/-- **Whatever a tree does, the book grows.** -/
theorem Tree.meaning_keeps_bookLaw (fuel : Nat) (t : Tree) : (t.meaning fuel).Keeps bookLaw := by
  refine Tree.meaning_keeps_of_forms (s := ()) (fun _ => bookLaw) (fun _ _ => True)
    (fun _ => bookLaw.isSequential) (fun _ _ => ?_) (fun fuel ih _ f parts _ => ?_) fuel trivial
  · exact ⟨fun _ _ => .intro rfl, fun _ _ => .intro rfl⟩
  · exact Form.meaning_keeps_bookLaw (fun t => ih (s := ()) trivial) f fuel parts

/-! ## Calls and declarations -/

/-- A call leaves the book behind that its body left. -/
theorem ReachesCall.book_eq {run : Run} {parts : List Tree} {m m₁ : Machine} {name : String}
    {i : Incantation} {ds : List Datum} (h : ReachesCall run parts m name i ds m₁)
    (hcount : ds.length = i.parameters.length) (hvalues : ∀ d ∈ ds, ∃ v, d.toValue = .ok v) :
    (castMeaning run parts m).2.book = (run i.body (m₁.mapScope (·.enterWith i ds))).2.book := by
  rw [h.castMeaning_eq, if_neg (not_not_intro hcount),
    callWith_of_bound hcount (toValues_of_forall hvalues), castBody_apply]
  rfl

/-- Declared from `m`, the parts give the incantation its name and its parameters, and the machine
is `m₁` by then. -/
def ReachesDeclaration (run : Run) (parts : List Tree) (m : Machine) (name : String)
    (parameters : List String) (m₁ : Machine) : Prop :=
  ∃ d m₀, runPart run parts 1 m = (.done d, m₀) ∧ keyOf d = .ok name ∧
    (members (optionalPart parts 2) >>= runKeys run) m₀ = (.done parameters, m₁)

/-- What is left of the declaration is to look for the name in the book. -/
theorem ReachesDeclaration.meaning_eq {run : Run} {parts : List Tree} {m m₁ : Machine}
    {name : String} {parameters : List String}
    (h : ReachesDeclaration run parts m name parameters m₁) :
    incantationMeaning run parts m =
      if (m₁.book.find? name).isSome then (.failed (.alreadyDeclared name), m₁)
      else (.done .nothing,
        { m₁ with book := m₁.book.put name ⟨parameters, parts.getLast?.getD .absent⟩ }) := by
  obtain ⟨d, m₀, hname, hkey, hparameters⟩ := h
  rw [incantationMeaning, Spell.bind_of_done hname, ← Spell.bind_assoc,
    Spell.bind_of_done hparameters, hkey]
  have hok : (liftM (Except.ok name : Fallible String) : Spell String) m₁ = (.done name, m₁) := rfl
  have hlook : (Spell.look fun m => m.book.find? name) m₁ = (.done (m₁.book.find? name), m₁) := rfl
  rw [Spell.bind_of_done hok, Spell.bind_of_done hlook]
  cases m₁.book.find? name with
  | none => rfl
  | some i => rfl

/-! ### Declarations by name -/

/-- The tree lists the parameters of an incantation, as it stands in a program. -/
def Tree.Lists (t : Tree) (xs : List String) : Prop :=
  (t = .absent ∧ xs = []) ∨ t = .form .parameters (xs.map .named)

/-- The names that a declaration gives, or the first of them that is a keyword. -/
theorem runKeys_named (foreign : Foreign) (xs : List String) (n : Nat) (m : Machine) :
    runKeys (Tree.meaningWith foreign (n + 2)) (xs.map .named) m =
      (match xs.find? isKeyword with
        | some x => .failed (.fundamental x)
        | none => .done xs, m) := by
  induction xs with
  | nil => rfl
  | cons x xs ih =>
    have hname := meaningWith_named foreign x n m
    rw [List.map_cons, runKeys, List.find?_cons]
    cases hx : isKeyword x with
    | true =>
      rw [hx, if_pos rfl] at hname
      exact Spell.bind_of_failed hname
    | false =>
      rw [hx, if_neg Bool.false_ne_true] at hname
      rw [Spell.bind_of_done hname]
      show (runKeys (Tree.meaningWith foreign (n + 2)) (xs.map .named) >>=
        fun names => pure (x :: names)) m = _
      cases hxs : xs.find? isKeyword with
      | some y =>
        rw [hxs] at ih
        exact Spell.bind_of_failed ih
      | none =>
        rw [hxs] at ih
        exact Spell.bind_of_done ih

/-- A declaration by names refuses keywords, and then looks for its name in the book. -/
theorem incantationMeaning_named {w list body : Tree} {name : String} {xs : List String}
    (hlist : list.Lists xs) (foreign : Foreign) (n : Nat) (m : Machine) :
    incantationMeaning (Tree.meaningWith foreign (n + 2)) [w, .named name, list, body] m =
      match (name :: xs).find? isKeyword with
      | some x => (.failed (.fundamental x), m)
      | none =>
        if (m.book.find? name).isSome then (.failed (.alreadyDeclared name), m)
        else (.done .nothing, { m with book := m.book.put name ⟨xs, body⟩ }) := by
  have hname : runPart (Tree.meaningWith foreign (n + 2)) [w, .named name, list, body] 1 m = _ :=
    meaningWith_named foreign name n m
  cases hkeyword : isKeyword name with
  | true =>
    rw [List.find?_cons_of_pos hkeyword]
    rw [hkeyword, if_pos rfl] at hname
    exact Spell.bind_of_failed hname
  | false =>
    rw [List.find?_cons_of_neg (by rw [hkeyword]; exact Bool.false_ne_true)]
    rw [hkeyword, if_neg Bool.false_ne_true] at hname
    have hkeys : (members (optionalPart [w, .named name, list, body] 2) >>=
        runKeys (Tree.meaningWith foreign (n + 2))) m =
          runKeys (Tree.meaningWith foreign (n + 2)) (xs.map .named) m := by
      rcases hlist with ⟨rfl, rfl⟩ | rfl
      · rfl
      · rfl
    rw [runKeys_named] at hkeys
    cases hwords : xs.find? isKeyword with
    | some x =>
      rw [hwords] at hkeys
      rw [incantationMeaning, Spell.bind_of_done hname, ← Spell.bind_assoc]
      exact Spell.bind_of_failed hkeys
    | none =>
      rw [hwords] at hkeys
      exact ReachesDeclaration.meaning_eq ⟨.word name, m, hname, rfl, hkeys⟩

/-! ## What becomes of the book -/

/-- **The book only grows**, whatever a tree of the language comes to. After a call it is the book
that the body left. A declaration of a name that is in the book by the time its name and parameters
have been evaluated fails, and nothing has happened since; if it gives them by name, nothing happens
at all. -/
theorem book_only_grows (foreign : Foreign) (fuel : Nat) (m : Machine) :
    (Book.IsNative m.book → ∀ t : Tree, t.isNative = true → ∀ name i, m.book.find? name = some i →
      (t.meaningWith foreign fuel m).2.book.find? name = some i) ∧
    (∀ parts name i ds m₁, ReachesCall (Tree.meaningWith foreign fuel) parts m name i ds m₁ →
      ds.length = i.parameters.length → (∀ d ∈ ds, ∃ v, d.toValue = .ok v) →
      ((Tree.form .cast parts).meaningWith foreign (fuel + 1) m).2.book =
        (i.body.meaningWith foreign fuel (m₁.mapScope (·.enterWith i ds))).2.book) ∧
    (∀ parts name parameters m₁,
      ReachesDeclaration (Tree.meaningWith foreign fuel) parts m name parameters m₁ →
      (m₁.book.find? name).isSome →
        (Tree.form .incantation parts).meaningWith foreign (fuel + 1) m =
        (.failed (.alreadyDeclared name), m₁)) ∧
    (∀ w name list xs body, list.Lists xs → (m.book.find? name).isSome →
      ∃ f, (Tree.form .incantation [w, .named name, list, body]).meaningWith foreign (fuel + 3) m =
        (.failed f, m)) := by
  refine ⟨fun hm t ht => ?_, ?_, ?_, ?_⟩
  · rw [Tree.meaningWith_of_native foreign fuel ht hm]
    exact Tree.meaning_keeps_bookLaw fuel t m
  · intro parts name i ds m₁ hcall hcount hvalues
    exact hcall.book_eq hcount hvalues
  · intro parts name parameters m₁ hreaches hpresent
    exact hreaches.meaning_eq.trans (if_pos hpresent)
  · intro w name list xs body hlist hpresent
    have hmeaning : incantationMeaning (Tree.meaningWith foreign (fuel + 2))
        [w, .named name, list, body] m = _ := incantationMeaning_named hlist foreign fuel m
    cases hwords : (name :: xs).find? isKeyword with
    | some x =>
      rw [hwords] at hmeaning
      exact ⟨.fundamental x, hmeaning⟩
    | none =>
      rw [hwords] at hmeaning
      exact ⟨.alreadyDeclared name, hmeaning.trans (if_pos hpresent)⟩

/-- An incantation that declares `g` and then fails. -/
def declaring : Incantation where
  parameters := []
  body := .form .block [
    .form .incantation [.leaf .incantation "incantation", .named "g", .absent, .form .block []],
    .form .dispel [.leaf .dispel "dispel", .named "a"]]

/-- A machine that knows `f`, which declares `g`. -/
def declaringCaller : Machine where
  book := [("f", declaring)]

/-- A cast of `f` fails, and `f` and `g` are in the book. To declare `f` once more fails and changes
nothing. -/
theorem book_only_grows_declaring :
    let after :=
      (Tree.form .cast [.leaf .castWord "cast", .named "f", .absent]).meaning 9 declaringCaller
    after.1.outcome = .failed ∧ after.2.book.find? "f" = some declaring ∧
      (after.2.book.find? "g").isSome = true ∧
      ∃ f, (Tree.form .incantation [.leaf .incantation "incantation", .named "f", .absent,
        .form .block []]).meaning 11 declaringCaller = (.failed f, declaringCaller) := by
  have hnative : Book.IsNative declaringCaller.book := by
    intro name i hi
    rw [declaringCaller, Table.find?_cons] at hi
    split at hi
    · cases hi
      decide
    · cases hi
  have hcall : ReachesCall (Tree.meaning 8) [.leaf .castWord "cast", .named "f", .absent]
      declaringCaller "f" declaring [] declaringCaller := ⟨declaringCaller, rfl, rfl, rfl⟩
  have hbook := (book_only_grows unanswered 8 declaringCaller).2.1 _ _ _ _ _ hcall rfl (by simp)
  refine ⟨rfl, ?_, ?_, ?_⟩
  · exact (book_only_grows unanswered 9 declaringCaller).1 hnative _ (by decide) "f" declaring rfl
  · exact (congrArg (fun b => (Table.find? b "g").isSome) hbook).trans rfl
  · exact (book_only_grows unanswered 8 declaringCaller).2.2.2 _ "f" .absent []
      _ (.inl ⟨rfl, rfl⟩) rfl

/-- A machine with a rune `y` that knows `f`, and `g` that changes `y` and proclaims the name of
`f`. -/
def namingCaller : Machine where
  scope := [{ own := [("y", .fresh (some (.truth false)) false)] }]
  book := [("f", ⟨[], .form .block []⟩), ("g", ⟨[], .form .block [
    .form .assign [.named "y", .leaf .truth "Truthsung"],
    .form .proclaim [.leaf .proclaim "proclaim", .named "f"]]⟩)]

-- No program has such a declaration: in a program the name of an incantation stands there.
theorem declaration_by_cast_changes_rune :
    let again := (Tree.form .incantation [.leaf .incantation "incantation",
      .form .cast [.leaf .castWord "cast", .named "g", .absent], .absent,
      .form .block []]).meaning 9 namingCaller
    (namingCaller.book.find? "f").isSome = true ∧ again.1 = .failed (.alreadyDeclared "f") ∧
      again.2.scope.find? "y" ≠ namingCaller.scope.find? "y" := by
  refine ⟨rfl, rfl, fun h => ?_⟩
  have hvalue := congrArg (Option.map Entry.value) h
  cases hvalue

end Spellbook
