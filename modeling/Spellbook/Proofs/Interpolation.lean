import Spellbook.Proofs.GivenText
import Spellbook.Proofs.Literals
import Spellbook.Proofs.Output

/-!
# Texts with parts in them

A text may have expressions in braces between its prose. Each part evaluates to what it would by
itself, prose as the literal of the same text (`TextPart.meaning_tree`), and all parts are evaluated
before the texts of what they evaluate to are joined.

Revealing such a text is compared to revealing its parts one after the other. There a part is
evaluated after the parts before it have been revealed, and in the text before any has; that this is
all the same is where the output is only added to (`Tree.meaning_blind`).
-/

namespace Spellbook

/-- A part of a text: prose, or an expression in braces. -/
inductive TextPart where
  | prose (text : String)
  | braced (e : Tree)

namespace TextPart

def tree : TextPart → Tree
  | prose s => prosePart s
  | braced e => .form .part [.leaf .openBrace "\x7b", e, .leaf .closeBrace "\x7d"]

/-- The part as an expression by itself. For prose this is the literal. -/
def value : TextPart → Tree
  | prose s => .leaf .quoted (String.ofList ('"' :: s.toList ++ ['"']))
  | braced e => e

theorem meaning_value_prose (s : String) (n : Nat) :
    (prose s).value.meaning (n + 1) = (liftM (literalText s) : Spell Datum) := by
  rw [value, meaning_quoted, String.ofList_toList]

/-- **A part evaluates to what it does by itself.** -/
theorem meaning_tree (p : TextPart) (n : Nat) : p.tree.meaning (n + 1) = p.value.meaning n := by
  funext m
  cases n with
  | zero => cases p <;> rfl
  | succ n =>
    cases p with
    | prose s =>
      have hprose : (Tree.leaf .prose s).meaning (n + 1) m =
          (liftM (literalText s) : Spell Datum) m := rfl
      show partMeaning (Tree.meaning (n + 1)) [.leaf .prose s] m = _
      rw [meaning_value_prose]
      cases hdecode : Text.Escape.decode s with
      | error b =>
        rw [literalText, hdecode] at hprose ⊢
        rw [partMeaning, runAll, Spell.bind_assoc, Spell.bind_of_failed hprose]
        rfl
      | ok t =>
        rw [literalText, hdecode] at hprose ⊢
        rw [partMeaning, runAll, Spell.bind_assoc, Spell.bind_of_done hprose]
        rfl
    | braced e =>
      show partMeaning (Tree.meaning (n + 1)) [.leaf .openBrace "\x7b", e, .leaf .closeBrace "\x7d"]
        m = e.meaning (n + 1) m
      have hopen : (Tree.leaf .openBrace "\x7b").meaning (n + 1) m = (.done .nothing, m) := rfl
      rw [partMeaning, runAll, Spell.bind_assoc, Spell.bind_of_done hopen, runAll, Spell.bind_assoc,
        Spell.bind_assoc, Spell.bind_apply, Spell.bind]
      rcases e.meaning (n + 1) m with ⟨ending, m'⟩
      cases ending with
      | done d => rfl
      | proclaimed | shattered | persisted | failed | exhausted => rfl

theorem runAll_tree (ps : List TextPart) (n : Nat) :
    runAll (Tree.meaning (n + 1)) (ps.map tree) = runAll (Tree.meaning n) (ps.map value) := by
  induction ps with
  | nil => rfl
  | cons p ps ih => rw [List.map_cons, List.map_cons, runAll, runAll, ih, meaning_tree]

end TextPart

/-- The texts of what the parts evaluate to are joined when all have been evaluated. -/
theorem meaning_interpolated (ps : List TextPart) (n : Nat) :
    (interpolated (ps.map TextPart.tree)).meaning (n + 2) = do
      let ds ← runAll (Tree.meaning n) (ps.map TextPart.value)
      return .rune (.text (String.join (← textsOf ds))) := by
  have hparts :
      ((Tree.leaf .openText "$\"" :: (ps.map TextPart.tree ++ [.leaf .quote "\""])).drop
        1).dropLast =
      ps.map TextPart.tree := by
    rw [List.drop_one, List.tail_cons, List.dropLast_concat]
  show interpolationMeaning (Tree.meaning (n + 1)) _ = _
  rw [interpolationMeaning, hparts, TextPart.runAll_tree]

theorem meaning_revelation_eq (t : Tree) (n : Nat) : (revelation t).meaning (n + 1) = do
    let d ← t.meaning n
    Spell.reveal (← d.text)
    return .nothing := rfl

/-! ## Evaluating without revealing -/

/-- To give something for the result of a spell does not touch the machine. -/
theorem Spell.bind_pure_snd {α β : Type} (x : Spell α) (f : α → β) (m : Machine) :
    ((x >>= fun a => Pure.pure (f a)) m).2 = (x m).2 := by
  rw [Spell.bind_apply, Spell.bind]
  rcases x m with ⟨e, m'⟩
  cases e with
  | done a => rfl
  | proclaimed | shattered | persisted | failed | exhausted => rfl

/-- If trees reveal nothing, the first does not, nor do those behind it. Nothing that is revealed
could be taken back. -/
theorem silent_of_cons {run : Run} (hrun : ∀ t, (run t).Blind) {t : Tree}
    {ts : List Tree} {m : Machine} (hsilent : (runAll run (t :: ts) m).2.output = m.output) :
    (run t m).2.output = m.output ∧
      ∀ d m₁, run t m = (.done d, m₁) → (runAll run ts m₁).2.output = m₁.output := by
  rcases ht : run t m with ⟨e, m₁⟩
  rw [runAll, Spell.bind_apply, Spell.bind, ht] at hsilent
  cases e with
  | proclaimed | shattered | persisted | failed | exhausted =>
    exact ⟨hsilent, fun _ _ h => by cases h⟩
  | done d =>
    obtain ⟨s, hs, -⟩ := (hrun t).exists_revealed ht
    have hblind : (runAll run ts).Blind := runAll_blind hrun
    obtain ⟨s', hs', -⟩ := hblind.exists_revealed (m := m₁) rfl
    have hall : m.output ++ (s ++ s') = m.output ++ "" := by
      rw [String.append_empty, ← String.append_assoc, ← hs, ← hs', ← hsilent]
      exact (congrArg Machine.output (Spell.bind_pure_snd ..)).symm
    have hnone : s.toList ++ s'.toList = [] := by
      rw [← String.toList_append, (String.append_right_inj _).mp hall]
      rfl
    obtain ⟨hempty, hempty'⟩ := List.append_eq_nil_iff.mp hnone
    rw [String.toList_eq_nil_iff.mp hempty, String.append_empty] at hs
    rw [String.toList_eq_nil_iff.mp hempty', String.append_empty] at hs'
    refine ⟨hs, ?_⟩
    rintro _ _ ⟨⟩
    exact hs'

/-- Trees that are revealed one after the other, whatever was revealed before, evaluate to data with
texts, and their texts are revealed. -/
theorem runAll_of_revelations {n : Nat} {ts : List Tree} {m m' : Machine} {o : String} {d : Datum}
    (hsilent : (runAll (Tree.meaning n) ts m).2.output = m.output)
    (h : runEach (Tree.meaning (n + 1)) (ts.map revelation) { m with output := o } =
      (.done d, m')) :
    d = .nothing ∧ ∃ ds ss m₁, runAll (Tree.meaning n) ts m = (.done ds, m₁) ∧ textsOf ds = .ok ss ∧
      m' = { m₁ with output := o ++ String.join ss } := by
  induction ts generalizing m o with
  | nil =>
    cases h
    exact ⟨rfl, [], [], m, rfl, rfl, by rw [String.join_nil, String.append_empty]⟩
  | cons t ts ih =>
    obtain ⟨hfirst, hothers⟩ := silent_of_cons (Tree.meaning_blind n) hsilent
    obtain ⟨_, _, hreveal, hrest⟩ := Spell.exists_of_bind_done h
    rw [meaning_revelation_eq] at hreveal
    obtain ⟨a, _, ht, htext⟩ := Spell.exists_of_bind_done hreveal
    obtain ⟨s, _, hlift, hspeak⟩ := Spell.exists_of_bind_done htext
    obtain ⟨hs, rfl⟩ := Spell.eq_of_lift_done hlift
    cases hspeak
    -- The tree does the same in the machine where nothing has been revealed.
    rcases hm : t.meaning n m with ⟨e, m₁⟩
    rw [hm] at hfirst
    rw [(Tree.meaning_blind n t).of_silent hm hfirst o] at ht
    cases ht
    obtain ⟨rfl, ds, ss, m₂, hall, htexts, rfl⟩ := ih (hothers a m₁ hm) hrest
    refine ⟨rfl, a :: ds, s :: ss, m₂, ?_, ?_, ?_⟩
    · rw [runAll, Spell.bind_of_done hm, Spell.bind_of_done hall]
      rfl
    · rw [textsOf, hs, htexts]
      rfl
    · rw [String.join_cons, String.append_assoc]

/-- A tree without a result ends the evaluation of a list, and all that was to follow. -/
theorem runAll_bind_of_left {run : Run} {ts : List Tree} {t : Tree} {m m₁ m₂ : Machine}
    {ds : List Datum} {e : Ending Datum} (hts : runAll run ts m = (.done ds, m₁))
    (ht : run t m₁ = (e, m₂)) (he : ∀ d, e ≠ .done d) (rest : List Tree)
    (k : List Datum → Spell Datum) : (runAll run (ts ++ t :: rest) >>= k) m = (e, m₂) := by
  induction ts generalizing m ds k with
  | nil =>
    cases hts
    rw [List.nil_append, runAll, Spell.bind_assoc, Spell.bind_apply, Spell.bind, ht]
    cases e with
    | done d => exact absurd rfl (he d)
    | proclaimed | shattered | persisted | failed | exhausted => rfl
  | cons u ts ih =>
    obtain ⟨d, m₃, hu, hrest⟩ := Spell.exists_of_bind_done hts
    obtain ⟨ds', m₄, hts', hdone⟩ := Spell.exists_of_bind_done hrest
    cases hdone
    rw [List.cons_append, runAll, Spell.bind_assoc, Spell.bind_of_done hu, Spell.bind_assoc]
    exact ih hts' fun ds => k (d :: ds)

/-! ## Revealing -/

/-- **A text reveals what its parts reveal.** Let the parts reveal nothing when they are evaluated.
If they can be revealed one after the other, then to reveal the text does just the same. If one of
them comes to no result, then this is how the text ends, and nothing is revealed. -/
theorem interpolation_reveals_parts {n : Nat} {ps : List TextPart} {m : Machine}
    (hsilent : (runAll (Tree.meaning n) (ps.map TextPart.value) m).2.output = m.output) :
    (∀ d m', runEach (Tree.meaning (n + 1)) (ps.map fun p => revelation p.value) m = (.done d, m') →
      (revelation (interpolated (ps.map TextPart.tree))).meaning (n + 3) m = (.done d, m')) ∧
    ∀ qs p rs ds m₁ e m₂, ps = qs ++ p :: rs →
      runAll (Tree.meaning n) (qs.map TextPart.value) m = (.done ds, m₁) →
      p.value.meaning n m₁ = (e, m₂) → (∀ d, e ≠ .done d) →
        (revelation (interpolated (ps.map TextPart.tree))).meaning (n + 3) m = (e, m₂) ∧
          m₂.output = m.output := by
  rw [meaning_revelation_eq, meaning_interpolated]
  constructor
  · intro d m' h
    have hmap : ps.map (fun p => revelation p.value) = (ps.map TextPart.value).map revelation := by
      rw [List.map_map]
      rfl
    rw [hmap] at h
    obtain ⟨rfl, ds, ss, m₁, hall, htexts, rfl⟩ := runAll_of_revelations (o := m.output) hsilent h
    rw [hall] at hsilent
    rw [Spell.bind_assoc, Spell.bind_of_done hall, htexts, ← hsilent]
    rfl
  · rintro qs p rs ds m₁ e m₂ rfl hqs hp he
    have hleft := runAll_bind_of_left hqs hp he (rs.map TextPart.value)
    rw [List.map_append, List.map_cons] at hsilent ⊢
    rw [Spell.bind_assoc, hleft]
    refine ⟨rfl, ?_⟩
    rw [← hsilent, ← Spell.bind_pure_snd _ fun _ => Datum.nothing, hleft]

/-- A machine that has revealed something and has two lines to listen to. -/
def prompted : Machine := { Machine.fresh "yes\nno" [] with output := "> " }

/-- A part that listens to a line. -/
def heardPart : TextPart := .braced (.form .listen [.leaf .listen "listen"])

def runePart (x : String) : TextPart := .braced (.form .rune [.leaf .name x])

/-- Prose with escapes and a line that is heard are revealed as they would be one after the other.
Where a rune that is not written follows the line, the line has been heard, but nothing is
revealed. -/
theorem interpolation_reveals_parts_heard :
    (revelation
      (interpolated ([.prose (String.ofList (Text.Escape.writtenText "é\n")), heardPart].map
      TextPart.tree))).meaning 5 prompted =
        (.done .nothing, { prompted with output := "> é\nyes", input := "no".toList }) ∧
    (revelation (interpolated ([heardPart, runePart "x"].map TextPart.tree))).meaning 5 prompted =
        (.failed (.notWritten "x"), { prompted with input := "no".toList }) := by
  have hprose (m : Machine) :
      (TextPart.prose (String.ofList (Text.Escape.writtenText "é\n"))).value.meaning 2 m =
        (.done (.rune (.text "é\n")), m) := by
    rw [TextPart.meaning_value_prose, literalText, Text.Escape.decode_writtenText]
    rfl
  constructor
  · refine (interpolation_reveals_parts (n := 2) ?_).1 _ _ ?_
    · rw [List.map_cons, runAll, Spell.bind_of_done (hprose _)]
      rfl
    · rw [List.map_cons, runEach, meaning_revelation_eq, Spell.bind_assoc,
        Spell.bind_of_done (hprose _)]
      rfl
  · have hheard : runAll (Tree.meaning 2) ([heardPart].map TextPart.value) prompted =
        (.done [.word "yes"], { prompted with input := "no".toList }) := rfl
    have hrune : (runePart "x").value.meaning 2 { prompted with input := "no".toList } =
        (.failed (.notWritten "x"), { prompted with input := "no".toList }) := rfl
    exact ((interpolation_reveals_parts rfl).2 [heardPart] (runePart "x") []
      _ _ _ _ rfl hheard hrune fun _ h => by cases h).1

end Spellbook
