import Mathlib.Data.List.Induction
import Spellbook.Proofs.RangeCycle

/-!
# Cycles over the characters of a text

A cycle over a text gives its rune one character after the other. The text is evaluated once, before
the first turn, so the body may do what it likes to the runes that it was read from. `EachTurned`
follows such a cycle turn by turn, whatever the body does, and `EachEnds` says how the turns come to
an end: all of them are done, or the body shatters one. A run that completes has done one or the
other (`eachTurn_done`).

If the body goes on and leaves the rune alone, the characters come in order, each with the one
before as its past (`text_cycle`).
-/

namespace Spellbook

/-! ### Turns -/

def letter (c : Char) : Value := .text (String.singleton c)

/-- `EachTurned block x cs m m'`: the block does a turn for each of the characters `cs` and leads
from `m` to `m'`. The rune `x` takes the character before the block is run. -/
inductive EachTurned (block : Tree) (x : String) : List Char → Machine → Machine → Prop
  | nil {m : Machine} : EachTurned block x [] m m
  | cons {c : Char} {cs : List Char} {m m₁ m' : Machine} (hwritten : m.scope.isWritten x = true)
      (hturned : Turned block (m.advance x (letter c)) m₁) (hrest : EachTurned block x cs m₁ m') :
      EachTurned block x (c :: cs) m m'

/-- How the turns for the characters `cs` come to an end in `m'`: all of them are done, or the block
shatters the cycle in one of them. -/
inductive EachEnds (block : Tree) (x : String) (cs : List Char) (m m' : Machine) : Prop
  | through (h : EachTurned block x cs m m')
  | shattered {before after : List Char} {c : Char} {m₁ : Machine} {n : Nat}
      (hcs : cs = before ++ c :: after)
      (hbefore : EachTurned block x before m m₁) (hwritten : m₁.scope.isWritten x = true)
      (hshattered : block.meaning n (m₁.advance x (letter c)) = (.shattered, m'))

section
variable {block : Tree} {x : String} {m m₁ m' : Machine} {c : Char} {cs before after : List Char}

/-- A turn has one machine as its result. -/
theorem Turned.unique (h : Turned block m m₁) (h' : Turned block m m') : m₁ = m' := by
  obtain ⟨n, h⟩ := h.meaning_of_le
  obtain ⟨n', h'⟩ := h'.meaning_of_le
  obtain ⟨d, hd⟩ | hp := h _ (Nat.le_max_left n n')
  · obtain ⟨d', hd'⟩ | hp' := h' _ (Nat.le_max_right n n')
    · exact congrArg Prod.snd (hd.symm.trans hd')
    · exact congrArg Prod.snd (hd.symm.trans hp')
  · obtain ⟨d', hd'⟩ | hp' := h' _ (Nat.le_max_right n n')
    · exact congrArg Prod.snd (hp.symm.trans hd')
    · exact congrArg Prod.snd (hp.symm.trans hp')

/-- The turns over two texts are those over both. -/
theorem EachTurned.append (h : EachTurned block x before m m₁)
    (h' : EachTurned block x after m₁ m') :
    EachTurned block x (before ++ after) m m' := by
  induction h with
  | nil => exact h'
  | cons hwritten hturned _ ih => exact .cons hwritten hturned (ih h')

/-- A turn before a cycle that ends is part of it. -/
theorem EachEnds.cons (hwritten : m.scope.isWritten x = true)
    (hturned : Turned block (m.advance x (letter c)) m₁) (h : EachEnds block x cs m₁ m') :
    EachEnds block x (c :: cs) m m' := by
  cases h with
  | through h => exact .through (.cons hwritten hturned h)
  | shattered hcs hbefore hwritten' hshattered =>
    exact .shattered (congrArg (c :: ·) hcs) (.cons hwritten hturned hbefore) hwritten' hshattered

/-- The rune takes the next character and the block is run. -/
theorem eachTurn_cons (body : Spell Datum) (hwritten : m.scope.isWritten x = true) :
    eachTurn body x (c :: cs) m = (goesOn body >>= fun goes =>
      if goes then eachTurn body x cs else pure ()) (m.advance x (letter c)) := by
  obtain ⟨e, he⟩ := Scope.isWritten_iff.mp hwritten
  exact Spell.bind_of_done (Spell.known_of_find? he)

/-- With enough fuel for the block, the turns that are done can be taken off. -/
theorem EachTurned.eachTurn_append (h : EachTurned block x before m m₁) :
    ∃ n, ∀ fuel, n ≤ fuel → ∀ after,
    eachTurn (block.meaning fuel) x (before ++ after) m =
      eachTurn (block.meaning fuel) x after m₁ := by
  induction h with
  | nil => exact ⟨0, fun _ _ _ => rfl⟩
  | cons hwritten hturned _ ih =>
    obtain ⟨n, hn⟩ := hturned.meaning_of_le
    obtain ⟨n', hn'⟩ := ih
    refine ⟨max n n', fun fuel hfuel after => ?_⟩
    rw [List.cons_append, eachTurn_cons _ hwritten,
      Spell.bind_of_done (goesOn_of_turn (hn fuel (by omega)))]
    exact hn' fuel (by omega) after

/-- A cycle goes on after a block that came to its end or persisted, and ends with one that
shattered it. -/
theorem goesOn_done {body : Spell Datum} {goes : Bool} (h : goesOn body m = (.done goes, m')) :
    (goes = true ∧ ((∃ d, body m = (.done d, m')) ∨ body m = (.persisted, m'))) ∨
      (goes = false ∧ body m = (.shattered, m')) := by
  rw [goesOn, Spell.bind_apply, Spell.bind, Spell.attempt] at h
  rcases hbody : body m with ⟨e, m₁⟩
  rw [hbody] at h
  cases e with
  | done d =>
    cases h
    exact .inl ⟨rfl, .inl ⟨d, rfl⟩⟩
  | persisted =>
    cases h
    exact .inl ⟨rfl, .inr rfl⟩
  | shattered =>
    cases h
    exact .inr ⟨rfl, rfl⟩
  | proclaimed | failed | exhausted => cases h

/-- Turns that come to an end have all been done, or the block has shattered one. -/
theorem eachTurn_done {fuel : Nat} (h : eachTurn (block.meaning fuel) x cs m = (.done (), m')) :
    EachEnds block x cs m m' := by
  induction cs generalizing m with
  | nil =>
    cases h
    exact .through .nil
  | cons c cs ih =>
    obtain ⟨e, m₁, hknown, -⟩ := Spell.exists_of_bind_done h
    have hwritten : m.scope.isWritten x = true := by
      rw [Spell.known_apply] at hknown
      split at hknown
      · exact Scope.isWritten_iff.mpr ⟨_, by assumption⟩
      · cases hknown
    rw [eachTurn_cons _ hwritten] at h
    obtain ⟨goes, m₂, hgoes, h⟩ := Spell.exists_of_bind_done h
    obtain ⟨rfl, hturned⟩ | ⟨rfl, hshattered⟩ := goesOn_done hgoes
    · exact .cons hwritten ⟨fuel, hturned⟩ (ih h)
    · cases h
      exact .shattered (List.nil_append (c :: cs)).symm .nil hwritten hshattered

end

/-! ### The cycle -/

/-- The tree of `cycle (x betwixt e) block`. -/
def eachCycle (x : String) (e block : Tree) : Tree :=
  .form .eachCycle [.leaf .cycle "cycle", .named x, .leaf .betwixt "betwixt", e, block]

/-- With enough fuel, the tree evaluates to the text of a rune. -/
def Tree.EvaluatesText (t : Tree) (m : Machine) (w : String) (m' : Machine) : Prop :=
  ∃ n, t.meaning n m = (.done (.rune (.text w)), m')

/-- The machine in which the turns over a text begin: the rune is written and holds nothing yet. -/
def Machine.withLetters (m : Machine) (x : String) : Machine :=
  m.mapScope (·.write x ⟨none, some .text, false, none⟩)

/-- What a cycle over a datum does once it has been evaluated. -/
def eachRest (run : Run) (x : String) (block : Tree) (d : Datum) : Spell Datum := do
  if (← Spell.find? x).isSome then Spell.fail (.alreadyWritten x)
  if (← d.length) == 0 then return .nothing
  let first ← d.item (.bare (.int 0))
  let kind ← first.kind
  Spell.write x ⟨none, some kind, false, none⟩
  match d with
  | .rune (.text s) => eachTurn (run block) x s.toList
  | _ => pure ()
  return .nothing

section
variable {x w : String} {e block : Tree} {m m₁ m' : Machine} {d : Datum} {fuel : Nat}

/-- The name of the rune and the datum are evaluated before anything else. -/
theorem meaning_eachCycle_eq_rest (hx : isKeyword x = false) {n : Nat}
    (he : e.meaning n m = (.done d, m₁)) (block : Tree) (hfuel : n + 2 ≤ fuel) :
    (eachCycle x e block).meaning (fuel + 1) m = eachRest (Tree.meaning fuel) x block d m₁ := by
  obtain ⟨j, rfl⟩ : ∃ j, fuel = j + 2 := ⟨fuel - 2, by omega⟩
  have hname := meaning_named x j m
  rw [hx] at hname
  have hpart : runPart (Tree.meaning (j + 2))
      [.leaf .cycle "cycle", .named x, .leaf .betwixt "betwixt", e, block] 3 m = (.done d, m₁) :=
    Tree.meaning_of_le (by omega) nofun he
  exact (Spell.bind_of_done hname).trans (Spell.bind_of_done hpart)

/-- A cycle over a text does not take a rune that is there. -/
theorem eachRest_of_written (run : Run) (h : m.scope.isWritten x = true) :
    eachRest run x block d m = (.failed (.alreadyWritten x), m) := by
  rw [eachRest, Spell.find?, Spell.look_bind_apply]
  exact congrFun (if_pos h) m

theorem eachRest_of_empty (run : Run) (h : m.scope.find? x = none) (hd : d.length = .ok 0) :
    eachRest run x block d m = (.done .nothing, m) := by
  rw [eachRest, Spell.find?, Spell.look_bind_apply, h, hd]
  rfl

theorem item_zero_of_text (hw : w ≠ "") :
    ∃ c, (Datum.rune (.text w)).item (.bare (.int 0)) = .ok (.rune (letter c)) := by
  cases hcs : w.toList with
  | nil => exact absurd (String.toList_eq_nil_iff.mp hcs) hw
  | cons c cs =>
    refine ⟨c, ?_⟩
    simp only [Datum.item, Datum.charAt, Datum.index?, Datum.member, hcs]
    rfl

/-- A cycle over a nonempty text takes its characters in turn. -/
theorem eachRest_of_text (run : Run) (h : m.scope.find? x = none) (hw : w ≠ "") :
    eachRest run x block (.rune (.text w)) m =
      (eachTurn (run block) x w.toList >>= fun _ => pure .nothing) (m.withLetters x) := by
  have hlength : ((w.length : Int) == 0) = false := by
    rw [beq_eq_false_iff_ne, ne_eq, Int.natCast_eq_zero, String.length_eq_zero_iff]
    exact hw
  obtain ⟨c, hfirst⟩ := item_zero_of_text hw
  rw [eachRest, Spell.find?, Spell.look_bind_apply, h, hfirst]
  show (if (w.length : Int) == 0 then _ else _ : Spell Datum) m = _
  rw [hlength]
  rfl

/-- With enough fuel, a cycle over a text that is not empty is its turns. -/
theorem meaning_eachCycle_eq (hx : isKeyword x = false) (he : e.EvaluatesText m w m₁)
    (hfree : m₁.scope.find? x = none) (hw : w ≠ "") (block : Tree) : ∃ n, ∀ fuel, n ≤ fuel →
      (eachCycle x e block).meaning (fuel + 1) m =
        (eachTurn (block.meaning fuel) x w.toList >>= fun _ => pure .nothing)
        (m₁.withLetters x) := by
  obtain ⟨n, he⟩ := he
  refine ⟨n + 2, fun fuel hfuel => ?_⟩
  rw [meaning_eachCycle_eq_rest hx he block hfuel, eachRest_of_text _ hfree hw]

theorem isKeyword_of_named_done {n : Nat} (h : (Tree.named x).meaning n m = (.done d, m')) :
    isKeyword x = false := by
  match n with
  | 0 => cases h
  | 1 => cases h
  | n + 2 =>
    rw [meaning_named] at h
    cases hx : isKeyword x with
    | false => rfl
    | true =>
      rw [hx] at h
      cases h

/-- A cycle that completes has found its rune free, and has done its turns if there were any to
do. -/
theorem eachCycle_done {n : Nat} {d₁ : Datum} (he : e.meaning n m = (.done d₁, m₁))
    (h : (eachCycle x e block).meaning fuel m = (.done d, m')) :
    isKeyword x = false ∧ m₁.scope.find? x = none ∧ (d₁.length = .ok 0 → m' = m₁) ∧
      ∀ w, d₁ = .rune (.text w) → w ≠ "" → EachEnds block x w.toList (m₁.withLetters x) m' := by
  have hx : isKeyword x = false := by
    cases fuel with
    | zero => cases h
    | succ fuel =>
      obtain ⟨_, _, hname, -⟩ := Spell.exists_of_bind_done h
      exact isKeyword_of_named_done hname
  -- with more fuel the cycle completes in the same way, and its parts are known
  have hlong : (eachCycle x e block).meaning (fuel + n + 2 + 1) m = (.done d, m') :=
    Tree.meaning_of_le (by omega) nofun h
  rw [meaning_eachCycle_eq_rest hx he block (by omega)] at hlong
  have hfree : m₁.scope.find? x = none := by
    cases hwritten : m₁.scope.isWritten x with
    | false => exact Option.isNone_iff_eq_none.mp (Option.isSome_eq_false_iff.mp hwritten)
    | true =>
      rw [eachRest_of_written _ hwritten] at hlong
      cases hlong
  refine ⟨hx, hfree, fun hempty => ?_, fun w hd hw => ?_⟩
  · rw [eachRest_of_empty _ hfree hempty] at hlong
    cases hlong
    rfl
  · subst hd
    rw [eachRest_of_text _ hfree hw] at hlong
    obtain ⟨_, m₂, hturns, hlong⟩ := Spell.exists_of_bind_done hlong
    cases hlong
    exact eachTurn_done hturns

end

/-! ### Bodies that leave the rune alone -/

/-- The entry of the rune when it has taken the characters `cs`, one after the other. -/
def textEntry (cs : List Char) : Entry :=
  ⟨cs.getLast?.map letter, some .text, false, cs.dropLast.getLast?.map letter⟩

/-- A rune that goes on to the next character has the character before as its past. -/
theorem textEntry_advance (cs : List Char) (c : Char) :
    (textEntry cs).advance (letter c) = textEntry (cs ++ [c]) := by
  rw [textEntry, textEntry, List.getLast?_concat, List.dropLast_concat]
  rfl

/-- A block that comes to its end or persists wherever a turn over the characters `cs` begins, and
leaves the rune `x` alone. -/
def GoesOnEach (block : Tree) (x : String) (cs : List Char) (m₀ : Machine) : Prop :=
  ∀ before c after m, cs = before ++ c :: after → EachTurned block x before m₀ m →
    ∃ m', Turned block (m.advance x (letter c)) m' ∧
      m'.scope.find? x = (m.advance x (letter c)).scope.find? x

section
variable {block : Tree} {x : String} {cs before after : List Char} {m₀ m m' : Machine}

/-- The turns over a text have one machine as their result. -/
theorem EachTurned.unique (h : EachTurned block x cs m₀ m) (h' : EachTurned block x cs m₀ m') :
    m = m' := by
  induction h with
  | nil =>
    cases h'
    rfl
  | cons _ hturned _ ih =>
    cases h' with
    | cons _ hturned' h' =>
      rw [hturned'.unique hturned] at h'
      exact ih h'

/-- All turns are done, and the rune takes one character after the other. -/
theorem GoesOnEach.exists_turned (hbody : GoesOnEach block x cs m₀)
    (h₀ : m₀.scope.find? x = some (textEntry [])) (hcs : cs = before ++ after) :
    ∃ m, EachTurned block x before m₀ m ∧ m.scope.find? x = some (textEntry before) := by
  induction before using List.reverseRecOn generalizing after with
  | nil => exact ⟨m₀, .nil, h₀⟩
  | append_singleton before c ih =>
    rw [List.append_assoc] at hcs
    obtain ⟨m, hm, hseen⟩ := ih hcs
    obtain ⟨m', hturned, hkept⟩ := hbody before c after m hcs hm
    refine ⟨m', hm.append (.cons (Scope.isWritten_iff.mpr ⟨_, hseen⟩) hturned .nil), ?_⟩
    rw [hkept, Machine.find?_advance hseen, textEntry_advance]

/-- In each turn the rune holds its character, and the character before as its past. -/
theorem GoesOnEach.seen (hbody : GoesOnEach block x cs m₀)
    (h₀ : m₀.scope.find? x = some (textEntry [])) {c : Char} (hcs : cs = before ++ c :: after)
    (h : EachTurned block x before m₀ m) :
    (m.advance x (letter c)).scope.find? x =
      some ⟨some (letter c), some .text, false, before.getLast?.map letter⟩ := by
  obtain ⟨m', hm', hseen⟩ := hbody.exists_turned h₀ hcs
  rw [h.unique hm', Machine.find?_advance hseen]
  rfl

end

/-! ### A body that reveals the rune -/

/-- The block of `{ reveal x; }`. -/
def revealing (x : String) : Tree := .form .block [revelation (runeValue x)]

section
variable {x : String} (hx : isKeyword x = false) {m m' : Machine} {cs : List Char}
include hx

theorem turned_revealing (hwritten : m.scope.isWritten x = true) (c : Char) :
    Turned (revealing x) (m.advance x (letter c))
      { m.advance x (letter c) with output := m.output ++ String.singleton c } := by
  obtain ⟨e, he⟩ := Scope.isWritten_iff.mp hwritten
  have hvalue : (runeValue x).meaning 2 (m.advance x (letter c)) =
      (.done (.rune (letter c)), m.advance x (letter c)) :=
        meaning_rune hx (Machine.find?_advance he _) rfl
  have hreveal := meaning_revelation hvalue (s := String.singleton c) rfl
  exact ⟨4, .inl ⟨.nothing, Spell.bind_of_done hreveal⟩⟩

/-- A cycle that reveals each character reveals the text. -/
theorem EachTurned.output_revealing (h : EachTurned (revealing x) x cs m m') :
    m'.output = m.output ++ String.ofList cs := by
  induction h with
  | nil => exact String.append_empty.symm
  | @cons c cs m m₁ m' hwritten hturned _ ih =>
    rw [ih, hturned.unique (turned_revealing hx hwritten c), ← List.singleton_append,
      String.ofList_append, ← String.append_assoc]
    rfl

theorem EachTurned.isWritten_revealing (h : EachTurned (revealing x) x cs m m')
    (hwritten : m.scope.isWritten x = true) : m'.scope.isWritten x = true := by
  induction h with
  | nil => exact hwritten
  | @cons c _ _ _ _ hwritten hturned _ ih =>
    refine ih ?_
    rw [hturned.unique (turned_revealing hx hwritten c)]
    exact Machine.isWritten_advance hwritten _

/-- A cycle that reveals each character goes on to the end. -/
theorem goesOnEach_revealing (cs : List Char) (hwritten : m.scope.isWritten x = true) :
    GoesOnEach (revealing x) x cs m := by
  intro before c after m₁ _ h
  exact ⟨_, turned_revealing hx (h.isWritten_revealing hx hwritten) c, rfl⟩

end

/-! ### Every text -/

section
variable {x w : String} {e block : Tree} {m m₁ m' : Machine}

theorem Machine.find?_withLetters (m : Machine) (x : String) :
    (m.withLetters x).scope.find? x = some (textEntry []) := by
  rw [Machine.withLetters, Machine.mapScope_scope, Scope.find?_write, if_pos rfl]
  rfl

/-- A cycle whose turns can all be done completes and leaves what the last one left. -/
theorem EachTurned.meaning_eachCycle (hx : isKeyword x = false) (he : e.EvaluatesText m w m₁)
    (hfree : m₁.scope.find? x = none) (hw : w ≠ "")
    (h : EachTurned block x w.toList (m₁.withLetters x) m') :
    ∃ n, ∀ fuel, n ≤ fuel → (eachCycle x e block).meaning fuel m = (.done .nothing, m') := by
  obtain ⟨n, hn⟩ := meaning_eachCycle_eq hx he hfree hw block
  obtain ⟨n', hn'⟩ := h.eachTurn_append
  refine ⟨n + n' + 1, fun fuel hfuel => ?_⟩
  obtain ⟨j, rfl⟩ : ∃ j, fuel = j + 1 := ⟨fuel - 1, by omega⟩
  have hturns := hn' j (by omega) []
  rw [List.append_nil] at hturns
  rw [hn j (by omega)]
  exact Spell.bind_of_done hturns

/-- **A cycle over a text.** The text is evaluated first, and what the body does to other runes does
not change it. If it is empty, the cycle does nothing else. Otherwise a body that goes on and leaves
the rune alone is run once for each character, in order: the rune holds the character, its kind is
that of a text and its past is the character before, if there is one. In particular, a body that
reveals the rune reveals the text. -/
theorem text_cycle (hx : isKeyword x = false) (he : e.EvaluatesText m w m₁)
    (hfree : m₁.scope.find? x = none) :
    (w = "" → ∀ block, ∃ n, ∀ fuel, n ≤ fuel →
      (eachCycle x e block).meaning fuel m = (.done .nothing, m₁)) ∧
    (w ≠ "" → ∀ block, GoesOnEach block x w.toList (m₁.withLetters x) →
      (∃ m', EachTurned block x w.toList (m₁.withLetters x) m' ∧
        ∃ n, ∀ fuel, n ≤ fuel → (eachCycle x e block).meaning fuel m = (.done .nothing, m')) ∧
      ∀ before c after m₂, w.toList = before ++ c :: after →
        EachTurned block x before (m₁.withLetters x) m₂ →
        (m₂.advance x (letter c)).scope.find? x =
          some ⟨some (letter c), some .text, false, before.getLast?.map letter⟩) ∧
    ∃ m', m'.output = m₁.output ++ w ∧
      ∃ n, ∀ fuel, n ≤ fuel → (eachCycle x e (revealing x)).meaning fuel m =
        (.done .nothing, m') := by
  have h₀ := m₁.find?_withLetters x
  have hempty (hw : w = "") (block : Tree) : ∃ n, ∀ fuel, n ≤ fuel →
      (eachCycle x e block).meaning fuel m = (.done .nothing, m₁) := by
    subst hw
    obtain ⟨n, he⟩ := he
    refine ⟨n + 3, fun fuel hfuel => ?_⟩
    obtain ⟨j, rfl⟩ : ∃ j, fuel = j + 1 := ⟨fuel - 1, by omega⟩
    rw [meaning_eachCycle_eq_rest hx he block (by omega), eachRest_of_empty _ hfree rfl]
  have hfull (hw : w ≠ "") (block : Tree) (hbody : GoesOnEach block x w.toList (m₁.withLetters x)) :
      ∃ m', EachTurned block x w.toList (m₁.withLetters x) m' ∧
        ∃ n, ∀ fuel, n ≤ fuel → (eachCycle x e block).meaning fuel m = (.done .nothing, m') := by
    obtain ⟨m', hm', -⟩ := hbody.exists_turned h₀ (List.append_nil _).symm
    exact ⟨m', hm', hm'.meaning_eachCycle hx he hfree hw⟩
  refine ⟨hempty, fun hw block hbody => ⟨hfull hw block hbody, ?_⟩, ?_⟩
  · intro before c after m₂ hcs hm₂
    exact hbody.seen h₀ hcs hm₂
  · by_cases hw : w = ""
    · refine ⟨m₁, ?_, hempty hw _⟩
      rw [hw, String.append_empty]
    · have hwritten : (m₁.withLetters x).scope.isWritten x = true := Scope.isWritten_iff.mpr ⟨_, h₀⟩
      obtain ⟨m', hm', hmeaning⟩ := hfull hw _ (goesOnEach_revealing hx w.toList hwritten)
      refine ⟨m', ?_, hmeaning⟩
      rw [hm'.output_revealing hx, String.ofList_toList]
      rfl

end

/-- The machine in which the rune `s` holds a text. -/
def textHeld : Machine := { scope := [{ own := [("s", .fresh (some (.text "ab")) false)] }] }

/-- A body that changes the rune `s`. -/
def forgetting : Tree := .form .block [assignment "s" (.leaf .truth "Falsehood")]

theorem forgetting_goesOnEach :
    GoesOnEach forgetting "c" "ab".toList (textHeld.withLetters "c") := by
  intro before c after m hcs hm
  match before with
  | [] =>
    cases hm
    cases hcs
    exact ⟨_, ⟨5, .inl ⟨.nothing, rfl⟩⟩, rfl⟩
  | [a] =>
    cases hcs
    cases hm with
    | cons _ hturned hrest =>
      cases hrest
      obtain rfl := hturned.unique ⟨5, .inl ⟨.nothing, rfl⟩⟩
      exact ⟨_, ⟨5, .inl ⟨.nothing, rfl⟩⟩, rfl⟩
  | a :: b :: before => simp at hcs

/-- The body is run for both characters, though it takes the text from the rune that held it. -/
theorem text_cycle_forgetting :
    (∃ m', EachTurned forgetting "c" ['a', 'b'] (textHeld.withLetters "c") m' ∧
      ∃ n, ∀ fuel, n ≤ fuel →
        (eachCycle "c" (runeValue "s") forgetting).meaning fuel textHeld = (.done .nothing, m')) ∧
    ∃ m', m'.output = "ab" ∧ ∃ n, ∀ fuel, n ≤ fuel →
      (eachCycle "c" (runeValue "s") (revealing "c")).meaning fuel textHeld =
        (.done .nothing, m') := by
  have he : (runeValue "s").EvaluatesText textHeld "ab" textHeld := ⟨2, rfl⟩
  obtain ⟨-, hfull, hrevealed⟩ := text_cycle (x := "c") (by decide) he rfl
  exact ⟨(hfull (by decide) forgetting forgetting_goesOnEach).1, hrevealed⟩

end Spellbook
