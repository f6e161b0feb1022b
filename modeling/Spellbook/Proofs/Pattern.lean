import Spellbook.Grammar.Pattern

/-!
# Cutting and blanks

A blank ends a token. What a pattern cuts off the front of `u ++ v`, where `v` is empty or starts
with a blank, it cuts off the front of `u` (`Pattern.split_stop`). So what is cut off one text is
cut off any other that agrees with it up to a blank behind the lexeme (`Pattern.split_left`), and
what does not fit one does not fit the other (`Pattern.split_none_stop`).
-/

namespace Spellbook

/-- A text that is empty or starts with a blank. -/
def Stops (v : List Char) : Prop := ∀ c ∈ v.head?, isBlank c = true

theorem Stops.nil : Stops [] := by
  intro c hc
  cases hc

theorem Stops.cons {b : Char} {v : List Char} (hb : isBlank b = true) : Stops (b :: v) := by
  intro c hc
  cases hc
  exact hb

def blankFree (w : List Char) : Bool := w.all (!isBlank ·)

def blankChars : List Char := [' ', '\t', '\x0c', '\r', '\n']

theorem mem_blankChars {b : Char} (h : isBlank b = true) : b ∈ blankChars := by
  simpa [isBlank, blankChars, or_assoc] using h

/-- What holds of the listed blanks holds of every blank. -/
theorem forall_blank {q : Char → Bool} (hq : blankChars.all q = true) {b : Char}
    (h : isBlank b = true) :
    q b = true :=
  List.all_eq_true.mp hq b (mem_blankChars h)

theorem isDigit_blank {b : Char} (h : isBlank b = true) : isDigit b = false := by
  simpa using forall_blank (q := (!isDigit ·)) (by decide) h

theorem isNamePart_blank {b : Char} (h : isBlank b = true) : isNamePart b = false := by
  simpa using forall_blank (q := (!isNamePart ·)) (by decide) h

theorem isProse_blank {b : Char} (h : isBlank b = true) : isProse b = true :=
  forall_blank (by decide) h

/-! ### Runs -/

section
variable {p : Char → Bool} {u v l y : List Char}

/-- A run does not reach beyond a character that stops it. -/
theorem takeWhile_stop (h : ∀ c ∈ v.head?, p c = false) : (u ++ v).takeWhile p = u.takeWhile p := by
  induction u with
  | nil =>
    cases v with
    | nil => rfl
    | cons c v => simp [h c rfl]
  | cons a u ih => simp only [List.cons_append, List.takeWhile_cons, ih]

/-- What stands behind the stop is left over. -/
theorem dropWhile_stop (h : ∀ c ∈ v.head?, p c = false) :
    (u ++ v).dropWhile p = u.dropWhile p ++ v := by
  induction u with
  | nil =>
    cases v with
    | nil => rfl
    | cons c v => simp [h c rfl]
  | cons a u ih =>
    simp only [List.cons_append, List.dropWhile_cons, ih]
    split <;> rfl

/-- The longest run of a class is followed by a character outside of the class, or by nothing. -/
theorem span_eq_iff {cs r : List Char} :
    cs.takeWhile p = l ∧ cs.dropWhile p = r ↔
      cs = l ++ r ∧ (∀ c ∈ l, p c = true) ∧ ∀ c ∈ r.head?, p c = false := by
  constructor
  · rintro ⟨rfl, rfl⟩
    refine ⟨List.takeWhile_append_dropWhile.symm, List.all_eq_true.mp List.all_takeWhile, ?_⟩
    intro c hc
    have := List.head?_dropWhile_not p cs
    rw [hc] at this
    simpa using this
  · rintro ⟨rfl, hl, hr⟩
    rw [List.takeWhile_append_of_pos hl, List.dropWhile_append_of_pos hl]
    cases r with
    | nil => simp
    | cons c r => simp [hr c rfl]

theorem head?_left {r : List Char} {q : Char → Prop} (h : ∀ c ∈ (r ++ y).head?, q c) :
    ∀ c ∈ r.head?, q c := by
  intro c hc
  apply h
  cases r with
  | nil => cases hc
  | cons a r => exact hc

theorem cutRun_cons (p : Char → Bool) (c : Char) (cs : List Char) :
    cutRun p (c :: cs) = if p c then some (c :: cs.takeWhile p, cs.dropWhile p) else none := by
  cases hc : p c <;> simp [cutRun, hc]

/-- A run of characters that are no blanks is cut off the same if a blank follows. -/
theorem cutRun_stop (hp : ∀ b, isBlank b = true → p b = false) (hv : Stops v) :
    cutRun p (u ++ v) = (cutRun p u).map fun (l, r) => (l, r ++ v) := by
  have hstop : ∀ c ∈ v.head?, p c = false := fun c hc => hp c (hv c hc)
  cases u with
  | nil =>
    cases v with
    | nil => rfl
    | cons b v => simp [hstop b rfl, cutRun]
  | cons c u =>
    rw [List.cons_append, cutRun_cons, cutRun_cons, takeWhile_stop hstop, dropWhile_stop hstop]
    cases p c <;> rfl

/-- A run that can be cut off can be cut off a longer text. -/
theorem cutRun_isSome_append (h : (cutRun p u).isSome = true) :
    (cutRun p (u ++ y)).isSome = true := by
  cases u with
  | nil => cases h
  | cons c u =>
    rw [cutRun_cons] at h
    rw [List.cons_append, cutRun_cons]
    split at h
    · next hc => rw [if_pos hc]; rfl
    · cases h

/-- A run is nonempty and as long as it can be. -/
theorem cutRun_eq_some {cs r : List Char} :
    cutRun p cs = some (l, r) ↔
      l ≠ [] ∧ cs = l ++ r ∧ (∀ c ∈ l, p c = true) ∧ ∀ c ∈ r.head?, p c = false := by
  rw [← span_eq_iff]
  unfold cutRun
  split
  · next hrun =>
    constructor
    · exact nofun
    · rintro ⟨hl, rfl, -⟩
      exact absurd hrun hl
  · next hrun =>
    simp only [Option.some.injEq, Prod.mk.injEq]
    constructor
    · rintro ⟨rfl, hr⟩
      exact ⟨hrun, rfl, hr⟩
    · rintro ⟨-, hl, hr⟩
      exact ⟨hl, hr⟩

/-- A run that ends in a text ends there whatever follows the text. -/
theorem cutRun_right {c : Char} {r : List Char} (h : cutRun p u = some (l, c :: r)) :
    cutRun p (u ++ y) = some (l, c :: r ++ y) := by
  rw [cutRun_eq_some] at h ⊢
  obtain ⟨hne, rfl, hl, hr⟩ := h
  exact ⟨hne, List.append_assoc .., hl, hr⟩

/-- A run that ends in a text ends there in each front of the text that holds it. -/
theorem cutRun_left (h : cutRun p (l ++ u ++ y) = some (l, u ++ y)) :
    cutRun p (l ++ u) = some (l, u) := by
  rw [cutRun_eq_some] at h ⊢
  obtain ⟨hne, -, hl, hr⟩ := h
  exact ⟨hne, rfl, hl, head?_left hr⟩

end

/-! ### Texts -/

section
variable {p : Char → Bool} {w u v r y : List Char}

/-- A text of characters of one class is cut off in front of any other character. -/
theorem cutText_stop (hw : w.all p = true) (hv : ∀ c ∈ v.head?, p c = false) :
    cutText w (u ++ v) = (cutText w u).map (· ++ v) := by
  induction w generalizing u with
  | nil => rfl
  | cons a w ih =>
    rw [List.all_cons, Bool.and_eq_true] at hw
    cases u with
    | nil =>
      cases v with
      | nil => rfl
      | cons b v =>
        have hne : a ≠ b := fun hab => by
          rw [hab, hv b rfl] at hw
          cases hw.1
        simp [cutText, hne]
    | cons c u =>
      rw [List.cons_append, cutText, cutText]
      split
      · exact ih hw.2
      · rfl

theorem cutText_self (w z : List Char) : cutText w (w ++ z) = some z := by
  induction w with
  | nil => rfl
  | cons a w ih => rw [List.cons_append, cutText, if_pos rfl, ih]

/-- A word is cut off a longer text in the same way. -/
theorem cutText_append_right (h : cutText w u = some r) : cutText w (u ++ y) = some (r ++ y) := by
  rw [← Pattern.cutText_append h, List.append_assoc, cutText_self]

end

namespace Pattern

variable {u v l r y : List Char} {ws : List (List Char)}

theorem cutFirst_cons (w : List Char) (ws : List (List Char)) (cs : List Char) :
    cutFirst (w :: ws) cs =
      (if w.isEmpty then none else (cutText w cs).map fun rest => (w, rest)).or
        (cutFirst ws cs) := by
  rw [cutFirst, List.findSome?_cons]
  cases w.isEmpty <;> cases cutText w cs <;> rfl

/-- A word is cut off the same if a character follows that is in none of the words. -/
theorem cutFirst_stop {p : Char → Bool} (hws : ws.all (List.all · p) = true)
    (hv : ∀ c ∈ v.head?, p c = false) :
    cutFirst ws (u ++ v) = (cutFirst ws u).map fun (l, r) => (l, r ++ v) := by
  induction ws with
  | nil => rfl
  | cons w ws ih =>
    rw [List.all_cons, Bool.and_eq_true] at hws
    rw [cutFirst_cons, cutFirst_cons, cutText_stop hws.1 hv, ih hws.2]
    cases w.isEmpty <;> cases cutText w u <;> rfl

/-- Some word can be cut off a longer text if one can off the text. -/
theorem cutFirst_isSome_append (h : (cutFirst ws u).isSome = true) :
    (cutFirst ws (u ++ y)).isSome = true := by
  induction ws with
  | nil => cases h
  | cons w ws ih =>
    rw [cutFirst_cons] at h ⊢
    cases hcut : cutText w u with
    | none =>
      rw [hcut] at h
      have hrest : (cutFirst ws u).isSome = true := by simpa using h
      rw [Option.isSome_or, ih hrest, Bool.or_true]
    | some r =>
      rw [cutText_append_right hcut]
      cases hw : w.isEmpty with
      | true =>
        rw [hw] at h
        exact ih h
      | false => rfl

/-- A word that is cut off a longer text is cut off the text. -/
theorem cutFirst_left (h : cutFirst ws (l ++ u ++ y) = some (l, u ++ y)) :
    cutFirst ws (l ++ u) = some (l, u) := by
  induction ws with
  | nil => cases h
  | cons w ws ih =>
    rw [cutFirst_cons] at h ⊢
    cases hw : w.isEmpty with
    | true =>
      rw [hw] at h
      exact ih h
    | false =>
      rw [hw] at h
      cases hlong : cutText w (l ++ u ++ y) with
      | some rest =>
        rw [hlong] at h
        obtain ⟨rfl, -⟩ : w = l ∧ rest = u ++ y := by simpa using h
        rw [cutText_self]
        rfl
      | none =>
        rw [hlong] at h
        have hshort : cutText w (l ++ u) = none := by
          cases hcut : cutText w (l ++ u) with
          | none => rfl
          | some rest => rw [cutText_append_right hcut] at hlong; cases hlong
        rw [hshort]
        exact ih h

/-! ### Numerals -/

theorem cutWhole_of_ne {c : Char} (hc : c ≠ '-') (cs : List Char) :
    cutWhole (c :: cs) = cutRun isDigit (c :: cs) := by
  unfold cutWhole
  split
  · next heq => cases heq; exact absurd rfl hc
  · rfl

/-- A whole number is cut off the same if a blank follows. -/
theorem cutWhole_stop (hv : Stops v) :
    cutWhole (u ++ v) = (cutWhole u).map fun (l, r) => (l, r ++ v) := by
  have hdigit : ∀ b, isBlank b = true → isDigit b = false := fun b => isDigit_blank
  cases u with
  | nil =>
    cases v with
    | nil => rfl
    | cons b v =>
      have hb : b ≠ '-' := fun hb => by
        have := hv b rfl
        rw [hb] at this
        cases this
      rw [List.nil_append, cutWhole_of_ne hb]
      exact cutRun_stop (u := []) hdigit hv
  | cons c u =>
    by_cases hc : c = '-'
    · subst hc
      show (cutRun isDigit (u ++ v)).map _ = ((cutRun isDigit u).map _).map _
      rw [cutRun_stop hdigit hv]
      cases cutRun isDigit u <;> rfl
    · rw [List.cons_append, cutWhole_of_ne hc, cutWhole_of_ne hc, ← List.cons_append,
        cutRun_stop hdigit hv]

theorem cutWhole_isSome_append (h : (cutWhole u).isSome = true) :
    (cutWhole (u ++ y)).isSome = true := by
  cases u with
  | nil => cases h
  | cons c u =>
    by_cases hc : c = '-'
    · subst hc
      have hrun : (cutRun isDigit u).isSome = true := by simpa [cutWhole] using h
      have hrun' := cutRun_isSome_append (y := y) hrun
      simpa [cutWhole] using hrun'
    · rw [cutWhole_of_ne hc] at h
      rw [List.cons_append, cutWhole_of_ne hc]
      exact cutRun_isSome_append h

/-- A whole number that is cut off a longer text is cut off the text. -/
theorem cutWhole_left (h : cutWhole (l ++ u ++ y) = some (l, u ++ y)) :
    cutWhole (l ++ u) = some (l, u) := by
  obtain ⟨-, hne⟩ := cutWhole_append h
  cases l with
  | nil => exact absurd rfl hne
  | cons c l =>
    by_cases hc : c = '-'
    · subst hc
      obtain ⟨⟨run, rest⟩, hrun, heq⟩ := Option.map_eq_some_iff.mp h
      simp only [Prod.mk.injEq, List.cons.injEq, true_and] at heq
      obtain ⟨rfl, rfl⟩ := heq
      show (cutRun isDigit (run ++ u)).map _ = _
      rw [cutRun_left hrun]
      rfl
    · rw [List.cons_append, List.cons_append, cutWhole_of_ne hc] at h
      rw [List.cons_append, cutWhole_of_ne hc]
      exact cutRun_left (l := c :: l) h

/-- A whole number that stopped before a character stops there in a longer text. -/
theorem cutWhole_right {c : Char} (h : cutWhole u = some (l, c :: r)) :
    cutWhole (u ++ y) = some (l, c :: r ++ y) := by
  cases u with
  | nil => cases h
  | cons a u =>
    by_cases ha : a = '-'
    · subst ha
      obtain ⟨⟨run, rest⟩, hrun, heq⟩ := Option.map_eq_some_iff.mp h
      simp only [Prod.mk.injEq] at heq
      obtain ⟨rfl, rfl⟩ := heq
      show (cutRun isDigit (u ++ y)).map _ = _
      rw [cutRun_right hrun]
      rfl
    · rw [cutWhole_of_ne ha] at h
      rw [List.cons_append, cutWhole_of_ne ha]
      exact cutRun_right h

/-- The part of a decimal numeral from its point on. -/
def cutFraction (front : List Char) : List Char → Option (List Char × List Char)
  | '.' :: cs => (cutRun isDigit cs).map fun (run, rest) => (front ++ '.' :: run, rest)
  | _ => none

/-- A decimal is a whole number and a fraction. -/
theorem split_decimal (cs : List Char) :
    decimal.split cs = (cutWhole cs).bind fun (front, rest) => cutFraction front rest := by
  simp only [split]
  cases cutWhole cs with
  | none => rfl
  | some pair =>
    obtain ⟨front, rest⟩ := pair
    cases rest with
    | nil => rfl
    | cons c rest =>
      by_cases hc : c = '.'
      · subst hc; rfl
      · simp [cutFraction, hc]

theorem cutFraction_of_ne {c : Char} (hc : c ≠ '.') (front cs : List Char) :
    cutFraction front (c :: cs) = none := by
  simp [cutFraction, hc]

/-- A fraction is cut off the same if a blank follows. -/
theorem cutFraction_stop {front : List Char} (hv : Stops v) :
    cutFraction front (u ++ v) = (cutFraction front u).map fun (l, r) => (l, r ++ v) := by
  cases u with
  | nil =>
    cases v with
    | nil => rfl
    | cons b v =>
      have hb : b ≠ '.' := fun hb => by
        have := hv b rfl
        rw [hb] at this
        cases this
      exact cutFraction_of_ne hb front v
  | cons c u =>
    by_cases hc : c = '.'
    · subst hc
      show (cutRun isDigit (u ++ v)).map _ = ((cutRun isDigit u).map _).map _
      rw [cutRun_stop (fun b => isDigit_blank) hv]
      cases cutRun isDigit u <;> rfl
    · rw [List.cons_append, cutFraction_of_ne hc, cutFraction_of_ne hc]
      rfl

theorem split_decimal_isSome_append (h : (decimal.split u).isSome = true) :
    (decimal.split (u ++ y)).isSome = true := by
  rw [split_decimal] at h ⊢
  cases hwhole : cutWhole u with
  | none => rw [hwhole] at h; cases h
  | some pair =>
    obtain ⟨front, rest⟩ := pair
    rw [hwhole] at h
    have h : (cutFraction front rest).isSome = true := h
    cases rest with
    | nil => cases h
    | cons c rest =>
      by_cases hc : c = '.'
      · subst hc
        have hrun : (cutRun isDigit rest).isSome = true := by simpa [cutFraction] using h
        have hrun' := cutRun_isSome_append (y := y) hrun
        rw [cutWhole_right hwhole]
        simpa [cutFraction] using hrun'
      · rw [cutFraction_of_ne hc] at h
        cases h

/-- A decimal that is cut off a longer text is cut off the text. -/
theorem split_decimal_left (h : decimal.split (l ++ u ++ y) = some (l, u ++ y)) :
    decimal.split (l ++ u) = some (l, u) := by
  rw [split_decimal] at h ⊢
  obtain ⟨⟨front, rest⟩, hwhole, hfraction⟩ := Option.bind_eq_some_iff.mp h
  cases rest with
  | nil => cases hfraction
  | cons c rest =>
    by_cases hc : c = '.'
    · subst hc
      obtain ⟨⟨run, after⟩, hrun, heq⟩ := Option.map_eq_some_iff.mp hfraction
      simp only [Prod.mk.injEq] at heq
      obtain ⟨rfl, rfl⟩ := heq
      obtain ⟨rfl, -⟩ := cutRun_append hrun
      have hfront : cutWhole (front ++ ('.' :: run ++ u) ++ y) =
          some (front, ('.' :: run ++ u) ++ y) := by
        simpa using hwhole
      rw [List.append_assoc, cutWhole_left hfront]
      rw [← List.append_assoc] at hrun
      show (cutRun isDigit (run ++ u)).map _ = _
      rw [cutRun_left hrun]
      rfl
    · have hnone : cutFraction front (c :: rest) = none := cutFraction_of_ne hc ..
      exact absurd (hnone.symm.trans hfraction) nofun

/-! ### Other classes -/

/-- A fixed text splits a text that opens with it. -/
theorem split_exactly_eq_some {w cs : List Char} :
    (exactly w).split cs = some (l, r) ↔ w ≠ [] ∧ l = w ∧ cs = w ++ r := by
  show cutFirst [w] cs = some (l, r) ↔ _
  rw [cutFirst_cons]
  constructor
  · intro h
    cases hw : w.isEmpty with
    | true => rw [hw] at h; cases h
    | false =>
      rw [hw] at h
      cases hcut : cutText w cs with
      | none => rw [hcut] at h; cases h
      | some rest =>
        rw [hcut] at h
        cases h
        exact ⟨fun hnil => (by rw [hnil] at hw; cases hw), rfl, (cutText_append hcut).symm⟩
  · rintro ⟨hne, rfl, rfl⟩
    rw [cutText_self, if_neg (by simp [hne])]
    rfl

/-- A text in quotes ends at the next quote. -/
theorem split_quoted_eq_some {cs : List Char} :
    quoted.split cs = some (l, r) ↔
      ∃ body, l = '"' :: body ++ ['"'] ∧ cs = l ++ r ∧ '"' ∉ body := by
  constructor
  · intro h
    obtain ⟨cs, rfl⟩ : ∃ cs', cs = '"' :: cs' := by
      cases cs with
      | nil => cases h
      | cons a cs =>
        by_cases ha : a = '"'
        · exact ⟨cs, by rw [ha]⟩
        · simp [split, ha] at h
    rw [split] at h
    split at h
    · cases h
    · next q rest hdrop =>
      simp only [Option.some.injEq, Prod.mk.injEq] at h
      obtain ⟨rfl, rfl⟩ := h
      obtain ⟨hcs, hbody, hq⟩ := span_eq_iff.mp ⟨rfl, hdrop⟩
      have hq : q = '"' := by simpa using hq q rfl
      subst hq
      refine ⟨cs.takeWhile (· != '"'), rfl, by simpa using hcs, fun hmem => ?_⟩
      simpa using hbody _ hmem
  · rintro ⟨body, rfl, rfl, hbody⟩
    have hall : ∀ c ∈ body, (c != '"') = true := fun c hc => bne_iff_ne.mpr fun h => hbody (h ▸ hc)
    obtain ⟨htake, hdrop⟩ := span_eq_iff.mpr ⟨rfl, hall, (by simp : ∀ c ∈ ('"' :: r).head?, _)⟩
    simp [split, htake, hdrop]

/-- A name ends where a character comes that no name goes on with. -/
theorem split_name_eq_some {cs : List Char} :
    name.split cs = some (l, r) ↔
      ∃ c run, l = c :: run ∧ cs = l ++ r ∧ isNameStart c = true ∧
        (∀ d ∈ run, isNamePart d = true) ∧ ∀ d ∈ r.head?, isNamePart d = false := by
  constructor
  · intro h
    cases cs with
    | nil => cases h
    | cons c cs =>
      rw [split] at h
      split at h
      · next hc =>
        simp only [Option.some.injEq, Prod.mk.injEq] at h
        obtain ⟨rfl, hdrop⟩ := h
        obtain ⟨hcs, hrun, hr⟩ := span_eq_iff.mp ⟨rfl, hdrop⟩
        exact ⟨c, _, rfl, congrArg (c :: ·) hcs, hc, hrun, hr⟩
      · cases h
  · rintro ⟨c, run, rfl, rfl, hc, hrun, hr⟩
    obtain ⟨htake, hdrop⟩ := span_eq_iff.mpr ⟨rfl, hrun, hr⟩
    rw [List.cons_append, split, if_pos hc, htake, hdrop]

/-- A remark ends at the next line break. -/
theorem split_remark_eq_some {cs : List Char} :
    remark.split cs = some (l, r) ↔
      ∃ line, l = '~' :: '~' :: line ∧ cs = l ++ r ∧ '\n' ∉ line ∧ ∀ c ∈ r.head?, c = '\n' := by
  constructor
  · intro h
    obtain ⟨cs, rfl⟩ : ∃ cs', cs = '~' :: '~' :: cs' := by
      match cs, h with
      | [a], h => simp [split] at h
      | a :: b :: cs, h =>
        by_cases hab : a = '~' ∧ b = '~'
        · exact ⟨cs, by rw [hab.1, hab.2]⟩
        · rw [split] at h
          · cases h
          · rintro cs' heq
            cases heq
            exact hab ⟨rfl, rfl⟩
    rw [split, Option.some.injEq, Prod.mk.injEq] at h
    obtain ⟨rfl, rfl⟩ := h
    obtain ⟨hcs, hline, hr⟩ := span_eq_iff.mp ⟨rfl, rfl⟩
    refine ⟨cs.takeWhile (· != '\n'), rfl, by rw [List.cons_append, List.cons_append, ← hcs], ?_,
      ?_⟩
    · intro hmem
      simpa using hline _ hmem
    · intro c hc
      simpa using hr c hc
  · rintro ⟨line, rfl, rfl, hline, hr⟩
    have hall : ∀ c ∈ line, (c != '\n') = true := fun c hc => bne_iff_ne.mpr fun h => hline (h ▸ hc)
    obtain ⟨htake, hdrop⟩ := span_eq_iff.mpr ⟨rfl, hall, fun c hc => by simpa using hr c hc⟩
    rw [List.cons_append, List.cons_append, split, htake, hdrop]

/-! ### Patterns -/

/-- The patterns whose lexemes have no blanks. -/
def isPlain : Pattern → Bool
  | exactly w => blankFree w
  | firstOf ws => ws.all blankFree
  | whole | decimal | name => true
  | quoted | prose | blanks | remark => false

/-- **A blank ends a token.** -/
theorem split_stop {p : Pattern} (hp : p.isPlain = true) (hv : Stops v) :
    p.split (u ++ v) = (p.split u).map fun (l, r) => (l, r ++ v) := by
  have hfree : ∀ c ∈ v.head?, (!isBlank c) = false := fun c hc => by rw [hv c hc]; rfl
  cases p with
  | exactly w => exact cutFirst_stop (by simpa [isPlain, blankFree] using hp) hfree
  | firstOf ws => exact cutFirst_stop hp hfree
  | whole => exact cutWhole_stop hv
  | decimal =>
    rw [split_decimal, split_decimal, cutWhole_stop hv]
    cases cutWhole u with
    | none => rfl
    | some pair => exact cutFraction_stop hv
  | name =>
    have hstop : ∀ c ∈ v.head?, isNamePart c = false := fun c hc => isNamePart_blank (hv c hc)
    cases u with
    | nil =>
      cases v with
      | nil => rfl
      | cons b v =>
        have hb : isNameStart b = false := by
          have := hstop b rfl
          simp only [isNamePart, Bool.or_eq_false_iff] at this
          exact this.1
        simp [split, hb]
    | cons c u =>
      rw [List.cons_append, split, split, takeWhile_stop hstop, dropWhile_stop hstop]
      split <;> rfl
  | quoted => cases hp
  | prose => cases hp
  | blanks => cases hp
  | remark => cases hp

/-- What fits the front of a text fits the text. -/
theorem split_isSome_append {p : Pattern} (h : (p.split u).isSome = true) :
    (p.split (u ++ y)).isSome = true := by
  cases p with
  | exactly w => exact cutFirst_isSome_append h
  | firstOf ws => exact cutFirst_isSome_append h
  | whole => exact cutWhole_isSome_append h
  | decimal => exact split_decimal_isSome_append h
  | quoted =>
    obtain ⟨⟨l, r⟩, hsplit⟩ := Option.isSome_iff_exists.mp h
    obtain ⟨body, hl, rfl, hbody⟩ := split_quoted_eq_some.mp hsplit
    have hlong : quoted.split (l ++ r ++ y) = some (l, r ++ y) :=
      split_quoted_eq_some.mpr ⟨body, hl, List.append_assoc .., hbody⟩
    rw [hlong]
    rfl
  | name =>
    cases u with
    | nil => cases h
    | cons c u =>
      cases hc : isNameStart c with
      | true => simp [split, hc]
      | false => simp [split, hc] at h
  | prose => exact cutRun_isSome_append h
  | blanks => exact cutRun_isSome_append h
  | remark =>
    obtain ⟨⟨l, r⟩, hsplit⟩ := Option.isSome_iff_exists.mp h
    obtain ⟨line, rfl, rfl, -⟩ := split_remark_eq_some.mp hsplit
    rfl

/-- What is cut off a text is cut off each front of the text that holds it. -/
theorem split_left {p : Pattern} (h : p.split (l ++ u ++ y) = some (l, u ++ y)) :
    p.split (l ++ u) = some (l, u) := by
  cases p with
  | exactly w => exact cutFirst_left h
  | firstOf ws => exact cutFirst_left h
  | whole => exact cutWhole_left h
  | decimal => exact split_decimal_left h
  | quoted =>
    obtain ⟨body, hl, -, hbody⟩ := split_quoted_eq_some.mp h
    exact split_quoted_eq_some.mpr ⟨body, hl, rfl, hbody⟩
  | name =>
    obtain ⟨c, run, hl, -, hc, hrun, hr⟩ := split_name_eq_some.mp h
    exact split_name_eq_some.mpr ⟨c, run, hl, rfl, hc, hrun, head?_left hr⟩
  | prose => exact cutRun_left h
  | blanks => exact cutRun_left h
  | remark =>
    obtain ⟨line, hl, -, hline, hr⟩ := split_remark_eq_some.mp h
    exact split_remark_eq_some.mpr ⟨line, hl, rfl, hline, head?_left hr⟩

/-- What fits no front of a text does not fit it with other blanks behind the front. -/
theorem split_none_stop {p : Pattern} (hp : p.isPlain = true ∨ p = blanks ∨ p = remark)
    (hu : u ≠ []) (hv : Stops v) (h : p.split (u ++ y) = none) : p.split (u ++ v) = none := by
  have hfront : p.split u = none := by
    cases hsplit : p.split u with
    | none => rfl
    | some pair =>
      have hsome := split_isSome_append (y := y) (by rw [hsplit]; rfl : (p.split u).isSome = true)
      rw [h] at hsome
      cases hsome
  rcases hp with hp | rfl | rfl
  · rw [split_stop hp hv, hfront]
    rfl
  · cases u with
    | nil => exact absurd rfl hu
    | cons c u =>
      have hc : isBlank c = false := by
        cases hc : isBlank c with
        | false => rfl
        | true => simp [split, cutRun_cons, hc] at hfront
      simp [split, cutRun_cons, hc]
  · match u, hu with
    | [c], _ =>
      cases v with
      | nil => exact hfront
      | cons b v =>
        have hb : b ≠ '~' := fun hb => by
          have hblank := hv b rfl
          rw [hb] at hblank
          cases hblank
        simp [split, hb]
    | c :: d :: u, _ =>
      cases hlong : remark.split (c :: d :: u ++ v) with
      | none => rfl
      | some pair =>
        obtain ⟨line, hl, heq, -⟩ := split_remark_eq_some.mp hlong
        rw [hl] at heq
        simp only [List.cons_append, List.cons.injEq] at heq
        rw [heq.1, heq.2.1] at hfront
        cases hfront

end Pattern
end Spellbook
