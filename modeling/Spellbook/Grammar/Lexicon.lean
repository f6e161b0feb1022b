import Spellbook.Grammar.Automaton

/-!
# Cutting a text into tokens

Which terminals are tried depends on the state of the automaton, so a text is cut one token at a
time, each with the `Lexicon` of the current state. Blanks and remarks are skipped.

`Lexicon.next_length_lt` says that a token always takes something off the text.
-/

namespace Spellbook

/-- A place in a text; lines and columns count from one, columns in characters. -/
structure Place where
  line : Nat := 1
  column : Nat := 1
  deriving DecidableEq, Repr

def Place.step (p : Place) (c : Char) : Place :=
  if c = '\n' then ⟨p.line + 1, 1⟩ else ⟨p.line, p.column + 1⟩

def Place.after (p : Place) (cs : List Char) : Place := cs.foldl Place.step p

/-- A token of a text. -/
structure Token where
  terminal : Terminal
  text : List Char
  place : Place
  deriving DecidableEq, Repr

/-- The terminals that can come next. -/
structure Lexicon where
  /-- all of them, in the order of trial -/
  pool : List Terminal
  /-- those that are matched: a fixed spelling that a class of the pool absorbs is not -/
  tried : List Terminal
  deriving DecidableEq, Repr, Inhabited

namespace Lexicon

/-- The lexicon of some terminals, given in the order of trial. -/
def ofTerminals (pool : List Terminal) : Lexicon :=
  ⟨pool, pool.filter fun s => !pool.any (·.absorbs s)⟩

def ofState (state : Nat) : Lexicon :=
  let possible := possible state
  ofTerminals (Terminal.trialOrder.filter fun t => t.isSkipped || possible.contains t)

@[irreducible] def full : Lexicon := ofTerminals Terminal.trialOrder

@[irreducible] def ofStates : Array Lexicon := (Array.range Automaton.size).map ofState

/-- The terminal that a lexeme of `t` belongs to: a fixed spelling that `t` absorbs, or `t`. -/
def classify (l : Lexicon) (t : Terminal) (lexeme : List Char) : Terminal :=
  (l.pool.find? fun s => t.absorbs s && s.spelling? == some lexeme).getD t

/-- The first terminal of `ts` that fits, its lexeme, and what follows. -/
def firstFit : List Terminal → List Char → Option (Terminal × List Char × List Char)
  | [], _ => none
  | t :: ts, cs =>
    match t.pattern.split cs with
    | some (lexeme, rest) => some (t, lexeme, rest)
    | none => firstFit ts cs

theorem firstFit_length_lt {ts : List Terminal} {cs : List Char} {t : Terminal}
    {lexeme rest : List Char} (h : firstFit ts cs = some (t, lexeme, rest)) :
    rest.length < cs.length := by
  induction ts with
  | nil => simp [firstFit] at h
  | cons a ts ih =>
    rw [firstFit] at h
    split at h
    · next hsplit =>
      simp only [Option.some.injEq, Prod.mk.injEq] at h
      obtain ⟨_, _, rfl⟩ := h
      exact Pattern.length_rest_lt hsplit
    · exact ih h

/-- What comes next in a text. -/
inductive Next where
  /-- a token, what follows it, and the place there -/
  | token (token : Token) (rest : List Char) (place : Place)
  /-- nothing but blanks and remarks -/
  | nothing
  /-- a text that no terminal fits, and its place -/
  | stray (rest : List Char) (place : Place)
  deriving DecidableEq, Repr

/-- What comes next in the text `cs`, which stands at `place`, if at most `fuel` lexemes are skipped
before it. -/
def nextWithin (l : Lexicon) : Nat → List Char → Place → Next
  | _, [], _ => .nothing
  | 0, cs, place => .stray cs place
  | fuel + 1, cs, place =>
    match firstFit l.tried cs with
    | none => .stray cs place
    | some (t, lexeme, rest) =>
      if t.isSkipped then nextWithin l fuel rest (place.after lexeme)
      else .token ⟨l.classify t lexeme, lexeme, place⟩ rest (place.after lexeme)

/-- What comes next in the text `cs`, which stands at `place`. A lexeme takes at least one
character, so no more can be skipped than the text has characters. -/
def next (l : Lexicon) (cs : List Char) (place : Place) : Next := l.nextWithin cs.length cs place

theorem nextWithin_length_lt {l : Lexicon} {fuel : Nat} {cs rest : List Char} {place place' : Place}
    {tok : Token} (h : l.nextWithin fuel cs place = .token tok rest place') :
    rest.length < cs.length := by
  fun_induction nextWithin l fuel cs place with
  | case1 => simp at h
  | case2 => simp at h
  | case3 => simp at h
  | case4 fuel cs place _ t lexeme after hfit _ ih =>
    exact Nat.lt_trans (ih h) (firstFit_length_lt hfit)
  | case5 fuel cs place _ t lexeme after hfit _ =>
    simp only [Next.token.injEq] at h
    obtain ⟨_, rfl, _⟩ := h
    exact firstFit_length_lt hfit

theorem next_length_lt {l : Lexicon} {cs rest : List Char} {place place' : Place} {tok : Token}
    (h : l.next cs place = .token tok rest place') : rest.length < cs.length :=
  nextWithin_length_lt h

end Lexicon

end Spellbook
