import Spellbook.Proofs.Precedence
import Spellbook.Proofs.Scope
import Spellbook.Proofs.Statements
import Spellbook.Session

/-!
# Names

Which names a rune can have. A name has to be free: the reader takes a word of the language wherever
it can stand, even if a longer name goes on behind it. And it must not be a keyword, which is only
noticed when the name is evaluated. Every other name can be declared, assigned to and revealed
(`free_name_usable`).
-/

namespace Spellbook

/-! ### Running plain instructions -/

section
variable {x : String} {n : Nat} {m : Machine} {v : Value} {value : Tree}

/-- A numeral that can be read gives its number. -/
theorem meaning_numeral {w : String} {k : Int} (h : ∀ shown, Value.readInt w shown = .ok k) :
    (Tree.leaf .whole w).meaning (n + 1) m = (.done (.rune (.int k)), m) := by
  show (liftM (Value.readInt w _) >>= fun k => pure (.rune (.int k)) : Spell Datum) m = _
  rw [h]
  rfl

/-- A numeral that cannot be read fails with the reason. -/
theorem meaning_numeral_of_error {w : String} {f : Fault}
    (h : ∀ shown, Value.readInt w shown = .error f) :
    (Tree.leaf .whole w).meaning (n + 1) m = (.failed f, m) := by
  show (liftM (Value.readInt w _) >>= fun k => pure (.rune (.int k)) : Spell Datum) m = _
  rw [h]
  rfl

/-- A declaration of a new name writes the rune. -/
theorem meaning_declaration (hx : isKeyword x = false)
    (hvalue : value.meaning (n + 2) m = (.done (.rune v), m)) (hnew : m.scope.find? x = none) :
    (declaration x value).meaning (n + 3) m =
      (.done .nothing, m.mapScope (·.write x (.fresh (some v) false))) := by
  have hkey : runKey (Tree.meaning (n + 2)) [.leaf .rune "rune", Tree.named x, value] 1 m =
      (.done x, m) := by
    have hname := meaning_named x n m
    rw [hx] at hname
    exact Spell.bind_of_done hname
  show declareMeaning false 1 (Tree.meaning (n + 2)) [.leaf .rune "rune", Tree.named x, value] m = _
  rw [declareMeaning, Spell.bind_of_done hkey, Spell.find?, Spell.look_bind_apply, hnew]
  cases value with
  | absent => cases hvalue
  | node label parts => exact Spell.bind_of_done hvalue
  | token mark text => exact Spell.bind_of_done hvalue

/-- An assignment to an open rune changes it. -/
theorem meaning_assignment {m₁ : Machine} {e : Entry} (hx : isKeyword x = false)
    (hvalue : value.meaning (n + 2) m = (.done (.rune v), m₁)) (hold : m₁.scope.find? x = some e)
    (hopen : e.isSealed = false) :
    (assignment x value).meaning (n + 3) m =
      (.done .nothing, m₁.mapScope (·.modify (Entry.assign v) x)) := by
  have hname : runPart (Tree.meaning (n + 2)) [Tree.named x, value] 0 m = (.done (.word x), m) := by
    have hname := meaning_named x n m
    rw [hx] at hname
    exact hname
  have hpart : runPart (Tree.meaning (n + 2)) [Tree.named x, value] 1 m = (.done (.rune v), m₁) :=
    hvalue
  have hchangeable : Spell.changeable x m₁ = (.done e, m₁) := by
    rw [Spell.changeable_apply, hold]
    exact if_neg (by rw [hopen]; exact nofun)
  show assignMeaning (Tree.meaning (n + 2)) [Tree.named x, value] m = _
  rw [assignMeaning, Spell.bind_of_done hname, Spell.bind_of_done hpart]
  exact Spell.bind_of_done hchangeable

/-- A rune is revealed as its value. -/
theorem meaning_revelation {s : String} (hvalue : value.meaning (n + 1) m = (.done (.rune v), m))
    (hs : v.runeText = .ok s) :
    (revelation value).meaning (n + 2) m =
      (.done .nothing, { m with output := m.output ++ s }) := by
  have hpart : runPart (Tree.meaning (n + 1)) [.leaf .reveal "reveal", value] 1 m =
      (.done (.rune v), m) := hvalue
  show revealMeaning (Tree.meaning (n + 1)) [.leaf .reveal "reveal", value] m = _
  rw [revealMeaning, Spell.bind_of_done hpart, Datum.text, hs]
  rfl

/-- A rune gives the value that it holds. -/
theorem meaning_rune {e : Entry} (hx : isKeyword x = false) (hold : m.scope.find? x = some e)
    (hv : e.value = some v) :
    (Tree.form .rune [.leaf .name x]).meaning (n + 2) m = (.done (.rune v), m) := by
  have htoken : runPart (Tree.meaning (n + 1)) [.leaf .name x] 0 m = (.done (.word x), m) := by
    show (liftM (nameWord x) : Spell Datum) m = _
    rw [nameWord, hx]
    rfl
  show runeMeaning (Tree.meaning (n + 1)) [.leaf .name x] m = _
  have hwritten : Spell.written x m = (.done e, m) := by
    rw [Spell.written, Spell.find?, Spell.look_bind_apply, hold]
    rfl
  rw [runeMeaning, Spell.bind_of_done htoken]
  refine (Spell.bind_of_done hwritten).trans ?_
  rw [hv]
  rfl

end

/-! ### A rune is declared, assigned to and revealed -/

/-- The instructions that use a name. -/
def usage (x : String) : List Tree :=
  [declaration x (.leaf .whole "1"), assignment x (.leaf .whole "2"),
   revelation (.form .rune [.leaf .name x])]

def usageText (x : String) : String := "rune " ++ x ++ " = 1; " ++ x ++ " = 2; reveal " ++ x ++ ";"

/-- Their text, cut into its tokens. -/
def usageCut (x : String) : Cut :=
  .cons ⟨[], ⟨.rune, "rune".toList⟩⟩
    (.cons ⟨[' '], ⟨.name, x.toList⟩⟩ (.cons ⟨[' '], ⟨.equals, ['=']⟩⟩
    (.cons ⟨[' '], ⟨.whole, ['1']⟩⟩ (.cons ⟨[], ⟨.semicolon, [';']⟩⟩
  (.cons ⟨[' '], ⟨.name, x.toList⟩⟩ (.cons ⟨[' '], ⟨.equals, ['=']⟩⟩ (.cons ⟨[' '], ⟨.whole, ['2']⟩⟩
    (.cons ⟨[], ⟨.semicolon, [';']⟩⟩
  (.cons ⟨[' '], ⟨.reveal, "reveal".toList⟩⟩ (.cons ⟨[' '], ⟨.name, x.toList⟩⟩
    (.cons ⟨[], ⟨.semicolon, [';']⟩⟩ (.tail []))))))))))))

theorem Reckoning.of_primary {t : Tree} (h : Reckoning .primary t) : Reckoning .eitherExpr t :=
  .looser rfl (.looser rfl (.looser rfl (.looser rfl (.looser rfl (.looser rfl (.looser rfl h))))))

section
variable {x : String} (hx : isFreeName x.toList = true)
include hx

/-- The text that uses a name is plain. -/
theorem plain_usageCut : PlainText (usageCut x) := by
  have hname {c : Char} {v : List Char} (hc : isNamePart c = false) :
      PlainToken ⟨.name, x.toList⟩ (c :: v) := .name hx fun d hd => by cases hd; exact hc
  have hnumeral {w v : List Char} (hw : isNumeral w = true) : PlainToken ⟨.whole, w⟩ (';' :: v) :=
    .numeral hw fun d hd => by cases hd; decide
  have hsign {l : Lexeme} {v : List Char} (hl : l ∈ signs) : PlainToken l (' ' :: v) :=
    .sign hl (.cons rfl)
  exact .cons (.inl rfl) (hsign (by decide)) (.cons (.inr rfl) (hname rfl)
    (.cons (.inr rfl) (hsign (by decide)) (.cons (.inr rfl) (hnumeral (by decide))
    (.cons (.inl rfl) (.mark (by decide)) (.cons (.inr rfl) (hname rfl)
    (.cons (.inr rfl) (hsign (by decide)) (.cons (.inr rfl) (hnumeral (by decide))
    (.cons (.inl rfl) (.mark (by decide)) (.cons (.inr rfl) (hsign (by decide))
    (.cons (.inr rfl) (hname rfl) (.cons (.inl rfl) (.mark (by decide)) .tail)))))))))))

theorem derives_usageCut : DerivesPlain .start (.form .start (usage x)) (usageCut x).lexemes := by
  have hnumeral {w : String}
      (hw : isNumeral w.toList = true) : DerivesPlain .expression (.leaf .whole w) _ :=
    (Reckoning.of_primary (.numeral hw)).written.expression.derives
  have hrune : DerivesPlain .expression (.form .rune [.leaf .name x]) _ :=
    (Reckoning.of_primary (.rune hx)).written.expression.derives
  have h : ∀ i ∈ [(_, _), (_, _), (_, _)], DerivesPlain .instruction i.1 i.2 :=
    List.forall_mem_cons.mpr ⟨derives_declaration (x := x) (hnumeral (w := "1") (by decide)),
      List.forall_mem_cons.mpr ⟨derives_assignment (x := x) (hnumeral (w := "2") (by decide)),
        List.forall_mem_singleton.mpr (derives_revelation hrune)⟩⟩
  exact derives_program h

/-- The program that uses a name is read. -/
theorem read_usage : Tree.read (usageText x) = .ok (.form .start (usage x)) := by
  have hread := Tree.read_plain (plain_usageCut hx) (derives_usageCut hx)
  have htext : String.ofList (usageCut x).text = usageText x := by
    apply String.toList_injective
    simp [usageCut, usageText, Cut.text]
  rwa [htext] at hread

end

theorem digit_lt_pow {n k : Nat} (hn : n < 10) (hk : 1 ≤ k) : ¬ Nat.pow 10 k ≤ n :=
  Nat.not_le.mpr (Nat.lt_of_lt_of_le hn (Nat.pow_le_pow_right (by decide) hk : 10 ^ 1 ≤ 10 ^ k))

/-- A number of one digit is written as it. -/
theorem intText?_digit {n : Int} (hn : n.natAbs < 10) :
    Numeral.intText? n = some (signText (n < 0) ++ Decimal.natText n.natAbs) := by
  unfold Numeral.intText?
  exact if_neg (digit_lt_pow hn (by decide))

/-- A digit is revealed as such. -/
theorem runeText_digit {n : Int} (hn : n.natAbs < 10) :
    (Value.int n).runeText = .ok (signText (n < 0) ++ Decimal.natText n.natAbs) := by
  rw [Value.runeText]
  unfold Value.intText
  rw [intText?_digit hn]

section
variable {x : String} {n : Nat}

/-- Nothing among the instructions is an incantation, so they run in their order. -/
theorem meaning_program_usage (m : Machine) :
    (Tree.form .start (usage x)).meaning (n + 1) m = runEach (Tree.meaning n) (usage x) m := rfl

/-- A name that is no keyword is declared, changed and revealed. -/
theorem meaning_usage {m : Machine} (hx : isKeyword x = false) (hnew : m.scope.find? x = none) :
    (Tree.form .start (usage x)).meaning (n + 4) m = (.done .nothing, { m with
      scope := (m.scope.write x (.fresh (some (.int 1)) false)).modify (Entry.assign (.int 2)) x
      output := m.output ++ "2" }) := by
  have hdeclare :=
    meaning_declaration (n := n) hx (meaning_numeral (w := "1") (k := 1) fun _ => rfl) hnew
  have hwritten : (m.mapScope (·.write x (.fresh (some (.int 1)) false))).scope.find? x =
      some (.fresh (some (.int 1)) false) := by
    rw [Machine.mapScope_scope, Scope.find?_write, if_pos rfl]
  have hassign :=
    meaning_assignment (n := n) hx (meaning_numeral (w := "2") (k := 2) fun _ => rfl) hwritten rfl
  have hchanged : ((m.mapScope (·.write x (.fresh (some (.int 1)) false))).mapScope
      (·.modify (Entry.assign (.int 2)) x)).scope.find? x =
        some (Entry.assign (.int 2) (.fresh (some (.int 1)) false)) := by
    rw [Machine.mapScope_scope, Scope.find?_modify_self, hwritten, Option.map_some]
  have hreveal :=
    meaning_revelation (meaning_rune (n := n) hx hchanged rfl) (runeText_digit (by decide))
  rw [meaning_program_usage, usage, runEach, Spell.bind_of_done hdeclare, runEach,
    Spell.bind_of_done hassign, runEach, Spell.bind_of_done hreveal]
  rfl

/-- A keyword fails at its declaration. -/
theorem meaning_usage_keyword {m : Machine} (hx : isKeyword x = true) :
    (Tree.form .start (usage x)).meaning (n + 4) m = (.failed (.fundamental x), m) := by
  have hname := meaning_named x n m
  rw [if_pos hx] at hname
  have hdeclare : (declaration x (.leaf .whole "1")).meaning (n + 3) m =
      (.failed (.fundamental x), m) :=
    Spell.bind_of_failed (Spell.bind_of_failed hname)
  rw [meaning_program_usage, usage, runEach, Spell.bind_of_failed hdeclare]

end

/-- A source that is read is performed by running its tree. -/
theorem Machine.perform_of_read {source : String} {t : Tree} {m : Machine}
    (h : Tree.read source = .ok t) :
    m.perform source = (.ended (m.run t).1, (m.run t).2) := by
  rw [Machine.perform, h]

section
variable {x : String} (hx : isFreeName x.toList = true) (input : String) (draws : List Float)
include hx

theorem perform_usage : (Machine.fresh input draws).perform (usageText x) =
    if isKeyword x then (.ended (.failed (.fundamental x)), Machine.fresh input draws)
    else (.ended (.done .nothing), { Machine.fresh input draws with
      scope := [{ own := [(x, ⟨some (.int 2), some .int, false, some (.int 1)⟩)] }]
      output := "2" }) := by
  obtain ⟨n, hn⟩ : ∃ n, endurance = n + 4 :=
    ⟨endurance - 4, (Nat.sub_add_cancel (by decide)).symm⟩
  rw [Machine.perform_of_read (read_usage hx), Machine.run, hn]
  split
  case isTrue hkeyword => rw [meaning_usage_keyword hkeyword]
  case isFalse hkeyword =>
    rw [meaning_usage (Bool.not_eq_true _ ▸ hkeyword) rfl]
    simp [Machine.fresh, Scope.empty, Scope.write, Scope.modify, Table.put,
      Table.find?, Entry.assign, Entry.fresh, Value.kind]

/-- **Free names are usable.** If the name of a rune starts with no word that can stand in its place
and is no keyword, the rune is declared, assigned to and revealed, and nothing else is written. -/
theorem free_name_usable (hword : isKeyword x = false) :
    (Machine.fresh input draws).perform (usageText x) =
      (.ended (.done .nothing), { Machine.fresh input draws with
        scope := [{ own := [(x, ⟨some (.int 2), some .int, false, some (.int 1)⟩)] }]
        output := "2" }) := by
  rw [perform_usage hx, hword, if_neg Bool.false_ne_true]

end

/-- A name that starts with a word of the language, but with none that can stand in its place. -/
theorem free_name_usable_offering :
    isFreeName "offering".toList = true ∧ isKeyword "offering" = false ∧
      (Machine.fresh "" []).perform "rune offering = 1; offering = 2; reveal offering;" =
        (.ended (.done .nothing), { Machine.fresh "" [] with
          scope := [{ own := [("offering", ⟨some (.int 2), some .int, false, some (.int 1)⟩)] }]
          output := "2" }) := by
  have hfree : isFreeName "offering".toList = true := by decide
  have hword : isKeyword "offering" = false := by decide
  exact ⟨hfree, hword, free_name_usable hfree "" [] hword⟩

/-- A keyword that the grammar does not have: it is read as the name of a rune and then refused. -/
theorem capital_ad_refused :
    (∀ t ∈ Terminal.trialOrder, t.pattern.takesAll "AD".toList = true → t = .name ∨ t = .prose) ∧
      (Machine.fresh "" []).perform "rune AD = 1; AD = 2; reveal AD;" =
        (.ended (.failed (.fundamental "AD")), Machine.fresh "" []) := by
  have hfree : isFreeName "AD".toList = true := by decide
  have hword : isKeyword "AD" = true := by decide
  refine ⟨by decide, ?_⟩
  have hperform := perform_usage hfree "" []
  rwa [if_pos hword] at hperform

end Spellbook
