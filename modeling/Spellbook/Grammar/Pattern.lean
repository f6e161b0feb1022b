/-!
# Spellings of terminals

A terminal is spelled either by one fixed text or by a class of texts. `Pattern.split` cuts the
leading lexeme off a text: `p.split cs = some (lexeme, rest)` with `lexeme ++ rest = cs`
(`Pattern.split_append`) and a lexeme that is never empty (`Pattern.split_ne_nil`).
-/

namespace Spellbook

/-- The digits `0` to `9`; numerals of a program know no others. -/
def isDigit (c : Char) : Bool := '0' ≤ c && c ≤ '9'

/-- The letters a rune's name can start with. -/
def isNameStart (c : Char) : Bool :=
  ('a' ≤ c && c ≤ 'z') || ('A' ≤ c && c ≤ 'Z') || c == '_'

/-- The characters a rune's name can go on with. -/
def isNamePart (c : Char) : Bool := isNameStart c || isDigit c

/-- The characters that only separate tokens. -/
def isBlank (c : Char) : Bool :=
  c == ' ' || c == '\t' || c == '\x0c' || c == '\r' || c == '\n'

/-- The characters of the prose of an interpolated text: all but quotes and braces. -/
def isProse (c : Char) : Bool := c != '\x7b' && c != '"' && c != '\x7d'

/-- Cuts the text `w` off the front of `cs`. -/
def cutText : List Char → List Char → Option (List Char)
  | [], cs => some cs
  | _ :: _, [] => none
  | w :: ws, c :: cs => if w = c then cutText ws cs else none

/-- Cuts the longest run of characters of a class off the front of a text; the run is not empty. -/
def cutRun (p : Char → Bool) (cs : List Char) : Option (List Char × List Char) :=
  match cs.takeWhile p with
  | [] => none
  | run => some (run, cs.dropWhile p)

/-- How the lexemes of a terminal are spelled. -/
inductive Pattern where
  /-- one fixed text -/
  | exactly (text : List Char)
  /-- the first of several texts that fits; a longer one further back is not looked at -/
  | firstOf (texts : List (List Char))
  /-- an optional minus and digits -/
  | whole
  /-- an optional minus, digits, a point and digits -/
  | decimal
  /-- everything from one double quote to the next -/
  | quoted
  /-- a letter or underscore, then letters, digits and underscores -/
  | name
  /-- a run of characters of the prose of an interpolated text -/
  | prose
  /-- a run of blanks -/
  | blanks
  /-- two tildes and the rest of the line -/
  | remark
  deriving DecidableEq, Repr

namespace Pattern

/-- Cuts an optional minus and digits off the front of a text. -/
def cutWhole : List Char → Option (List Char × List Char)
  | '-' :: cs => (cutRun isDigit cs).map fun (run, rest) => ('-' :: run, rest)
  | cs => cutRun isDigit cs

/-- Cuts the first of the texts `ws` that fits off the front of `cs`. -/
def cutFirst (ws : List (List Char)) (cs : List Char) : Option (List Char × List Char) :=
  ws.findSome? fun w => if w.isEmpty then none else (cutText w cs).map fun rest => (w, rest)

/-- Cuts the leading lexeme off a text. -/
def split : Pattern → List Char → Option (List Char × List Char)
  | exactly w, cs => cutFirst [w] cs
  | firstOf ws, cs => cutFirst ws cs
  | whole, cs => cutWhole cs
  | decimal, cs =>
    match cutWhole cs with
    | some (front, '.' :: cs') =>
      (cutRun isDigit cs').map fun (run, rest) => (front ++ '.' :: run, rest)
    | _ => none
  | quoted, '"' :: cs =>
    match cs.dropWhile (· != '"') with
    | [] => none
    | q :: rest => some ('"' :: cs.takeWhile (· != '"') ++ [q], rest)
  | quoted, _ => none
  | name, c :: cs =>
    if isNameStart c then some (c :: cs.takeWhile isNamePart, cs.dropWhile isNamePart) else none
  | name, [] => none
  | prose, cs => cutRun isProse cs
  | blanks, cs => cutRun isBlank cs
  | remark, '~' :: '~' :: cs =>
    some ('~' :: '~' :: cs.takeWhile (· != '\n'), cs.dropWhile (· != '\n'))
  | remark, _ => none

def spelling? : Pattern → Option (List Char)
  | exactly w => some w
  | _ => none

/-- Whether the pattern takes all of the text `w`. -/
def takesAll (p : Pattern) (w : List Char) : Bool :=
  match p.split w with
  | some (lexeme, _) => lexeme == w
  | none => false

/-! ### Nothing is lost and nothing is empty -/

theorem cutText_append {w cs rest : List Char} (h : cutText w cs = some rest) : w ++ rest = cs := by
  induction w generalizing cs with
  | nil => simp_all [cutText]
  | cons a w ih =>
    cases cs with
    | nil => simp [cutText] at h
    | cons c cs =>
      by_cases hac : a = c
      · simp only [cutText, hac, if_true] at h
        simp [hac, ih h]
      · simp [cutText, hac] at h

theorem cutRun_append {p : Char → Bool} {cs lexeme rest : List Char}
    (h : cutRun p cs = some (lexeme, rest)) : lexeme ++ rest = cs ∧ lexeme ≠ [] := by
  unfold cutRun at h
  split at h
  · simp at h
  · next run hrun =>
    simp only [Option.some.injEq, Prod.mk.injEq] at h
    obtain ⟨rfl, rfl⟩ := h
    exact ⟨List.takeWhile_append_dropWhile, fun hnil => hrun hnil⟩

theorem cutWhole_append {cs lexeme rest : List Char} (h : cutWhole cs = some (lexeme, rest)) :
    lexeme ++ rest = cs ∧ lexeme ≠ [] := by
  unfold cutWhole at h
  split at h
  · obtain ⟨⟨run, tail⟩, hrun, heq⟩ := Option.map_eq_some_iff.1 h
    simp only [Prod.mk.injEq] at heq
    obtain ⟨rfl, rfl⟩ := heq
    simp [(cutRun_append hrun).1]
  · exact cutRun_append h

theorem cutFirst_append {ws : List (List Char)} {cs lexeme rest : List Char}
    (h : cutFirst ws cs = some (lexeme, rest)) : lexeme ++ rest = cs ∧ lexeme ≠ [] := by
  obtain ⟨w, _, hw⟩ := List.exists_of_findSome?_eq_some h
  by_cases hemp : w.isEmpty
  · simp [hemp] at hw
  · simp only [hemp, Bool.false_eq_true, if_false] at hw
    obtain ⟨tail, htail, heq⟩ := Option.map_eq_some_iff.1 hw
    simp only [Prod.mk.injEq] at heq
    obtain ⟨rfl, rfl⟩ := heq
    exact ⟨cutText_append htail, by simpa using hemp⟩

/-- The lexeme and what follows it make up the text, and the lexeme is not empty. -/
theorem split_spec {p : Pattern} {cs lexeme rest : List Char}
    (h : p.split cs = some (lexeme, rest)) : lexeme ++ rest = cs ∧ lexeme ≠ [] := by
  unfold split at h
  split at h
  · exact cutFirst_append h
  · exact cutFirst_append h
  · exact cutWhole_append h
  · split at h
    · next front tail hfront =>
      obtain ⟨⟨run, after⟩, hrun, heq⟩ := Option.map_eq_some_iff.1 h
      simp only [Prod.mk.injEq] at heq
      obtain ⟨rfl, rfl⟩ := heq
      simp [← (cutWhole_append hfront).1, ← (cutRun_append hrun).1]
    · simp at h
  · next cs =>
    split at h
    · simp at h
    · next q tail hdrop =>
      simp only [Option.some.injEq, Prod.mk.injEq] at h
      obtain ⟨rfl, rfl⟩ := h
      have := List.takeWhile_append_dropWhile (p := (· != '"')) (l := cs)
      rw [hdrop] at this
      simp [this]
  · simp at h
  · split at h
    · simp only [Option.some.injEq, Prod.mk.injEq] at h
      obtain ⟨rfl, rfl⟩ := h
      simp [List.takeWhile_append_dropWhile]
    · simp at h
  · simp at h
  · exact cutRun_append h
  · exact cutRun_append h
  · simp only [Option.some.injEq, Prod.mk.injEq] at h
    obtain ⟨rfl, rfl⟩ := h
    simp [List.takeWhile_append_dropWhile]
  · simp at h

theorem split_append {p : Pattern} {cs lexeme rest : List Char}
    (h : p.split cs = some (lexeme, rest)) : lexeme ++ rest = cs := (split_spec h).1

theorem split_ne_nil {p : Pattern} {cs lexeme rest : List Char}
    (h : p.split cs = some (lexeme, rest)) : lexeme ≠ [] := (split_spec h).2

/-- What follows a lexeme is shorter than the text it was cut from. -/
theorem length_rest_lt {p : Pattern} {cs lexeme rest : List Char}
    (h : p.split cs = some (lexeme, rest)) : rest.length < cs.length := by
  have happ := split_append h
  have hpos : 0 < lexeme.length := List.length_pos_iff.2 (split_ne_nil h)
  rw [← happ, List.length_append]
  omega

end Pattern

end Spellbook
