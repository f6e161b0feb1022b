import Spellbook.Meaning

/-!
# Roles

What a tree can be used for, as far as its shape tells. A form gives each of its parts a seat and
runs some of them; `Form.fits` says which roles the parts need for that, and `Tree.role` is computed
from the leaves upwards. A tree that a form would run, look into or take apart in a way that it
cannot be used for makes the form a misfit.

A `Style` says which trees may occur at all. In a strict style there are no tomes, which have no
meaning, and nothing is proclaimed without saying what.
-/

namespace Spellbook

/-- What is asked of trees besides their shape. -/
structure Style where
  /-- whether tomes and bare proclamations are refused -/
  strict : Bool
  /-- the names that may occur -/
  allows : String → Bool

def Style.lax : Style := ⟨false, fun _ => true⟩

/-- The style that refuses tomes and bare proclamations. -/
def Style.tidy : Style := ⟨true, fun _ => true⟩

@[simp] theorem Style.lax_strict : Style.lax.strict = false := rfl

@[simp] theorem Style.lax_allows (x : String) : Style.lax.allows x = true := rfl

/-- What a tree can be used for. -/
inductive Role where
  /-- nothing -/
  | misfit
  /-- an optional part that was left out -/
  | absent
  /-- a token, or node, that is never run -/
  | mute
  /-- a token that is run -/
  | word
  /-- a run of prose -/
  | prose
  /-- the word that opens the last branch of a choice -/
  | resolve
  /-- the token of a name -/
  | nameWord
  /-- the node of a name -/
  | name
  /-- a node that is run -/
  | deed
  /-- the range of a cycle -/
  | range
  /-- the parameters of an incantation -/
  | names
  /-- the arguments of a cast -/
  | values
  deriving DecidableEq, Repr

namespace Role

/-- Whether a tree with this role is run for a datum that has nothing to do with names. -/
def isPlain : Role → Bool
  | word | prose | resolve | deed => true
  | _ => false

@[simp] theorem isPlain_word : word.isPlain = true := rfl

@[simp] theorem isPlain_prose : prose.isPlain = true := rfl

@[simp] theorem isPlain_resolve : resolve.isPlain = true := rfl

@[simp] theorem isPlain_deed : deed.isPlain = true := rfl

end Role

/-- What a form asks of one of its parts. -/
inductive Seat where
  | any
  | plain
  /-- a part that may be left out -/
  | optional
  /-- what is proclaimed -/
  | proclaimed
  /-- a token whose text is looked at -/
  | token
  | role (ρ : Role)
  /-- the parameters or arguments, which may be left out -/
  | optionalRole (ρ : Role)
  deriving DecidableEq

namespace Seat

/-- Whether a seat may be taken by a tree with the given role. -/
def admits (σ : Style) : Seat → Role → Bool
  | any, _ => true
  | plain, ρ => ρ.isPlain
  | optional, ρ => ρ.isPlain || ρ == .absent
  | proclaimed, ρ => ρ.isPlain || (ρ == .absent && !σ.strict)
  | token, ρ => ρ == .word
  | role ρ', ρ => ρ == ρ'
  | optionalRole ρ', ρ => ρ == ρ' || ρ == .absent

def admitAll (σ : Style) : List Seat → List Role → Bool
  | [], [] => true
  | p :: ps, ρ :: ρs => p.admits σ ρ && admitAll σ ps ρs
  | _, _ => false

/-- Seats without a proclamation admit the same in every style. -/
theorem admitAll_style {σ τ : Style} {seats : List Seat} (h : proclaimed ∉ seats) (ρs : List Role) :
    admitAll σ seats ρs = admitAll τ seats ρs := by
  induction seats generalizing ρs with
  | nil => cases ρs <;> rfl
  | cons s seats ih =>
    cases ρs with
    | nil => rfl
    | cons ρ ρs =>
      rw [admitAll, admitAll, ih (List.not_mem_of_not_mem_cons h)]
      cases s with
      | proclaimed => exact absurd List.mem_cons_self h
      | _ => rfl

end Seat

namespace Form

/-- The seats of the parts of a form that always has as many. -/
def seats : Form → List Seat
  | declare => [.any, .role .name, .optional]
  | declareSealed => [.any, .any, .role .name, .optional]
  | assign => [.role .name, .plain]
  | dispel | sealRune => [.any, .role .name]
  | step => [.role .name, .plain]
  | compound => [.role .name, .plain, .plain]
  | incantation => [.any, .role .name, .optionalRole .names, .role .deed]
  | cast => [.any, .role .name, .optionalRole .values]
  | proclaim => [.any, .proclaimed]
  | mayhaps => [.any, .optional, .plain, .any, .any]
  | ratio => [.token, .token]
  | rangeCycle => [.any, .role .range, .plain]
  | endlessCycle => [.any, .any, .any, .plain]
  | lestCycle => [.any, .any, .plain, .plain]
  | eachCycle => [.any, .role .name, .any, .plain, .plain]
  | range => [.role .name, .plain, .plain, .optional]
  | interrupt | negative | group => [.plain]
  | either | both => [.plain, .any, .plain]
  | comparison | sum | product => [.plain, .plain, .plain]
  | denial | measure | reveal | promptedListen => [.any, .plain]
  | rounding | power => [.plain, .plain]
  | index => [.role .name, .plain]
  | name | rune => [.role .nameWord]
  | past => [.role .nameWord, .any]
  | listen => [.any]
  | transmute => [.any, .plain, .any, .plain]
  | _ => []

/-- The branches of a choice: a word, a condition and a block each, and at the end the last word and
its block, or nothing instead of both. -/
def branchesFit : List Role → Bool
  | [] => true
  | [w, body] => w == .absent || (w == .resolve && body.isPlain)
  | w :: condition :: body :: rest =>
    w.isPlain && condition.isPlain && body.isPlain && branchesFit rest
  | _ => false

/-- The parts of an interpolated text, between its quotes. -/
def textFits : List Role → Bool
  | _ :: ρs => ρs.dropLast.all Role.isPlain
  | [] => true

/-- Whether a form can run with parts of the given roles. -/
def fits (σ : Style) : Form → List Role → Bool
  | start, ρs => ρs.all (· == .deed)
  | block, ρs => ρs.all Role.isPlain
  | parameters, ρs => ρs.all (· == .name)
  | arguments, ρs => ρs.all Role.isPlain
  | foretell, ρs => branchesFit ρs
  | interpolation, ρs => textFits ρs
  | part, [ρ] => ρ == .prose
  | part, ρs => Seat.admitAll σ [.plain, .plain, .plain] ρs
  | yore, _ => true
  | collection, _ | tome, _ | tomeContents, _ => !σ.strict
  | declarations, _ => false
  | f, ρs => Seat.admitAll σ f.seats ρs

def role : Form → Role
  | name => .name
  | range => .range
  | parameters => .names
  | arguments => .values
  | yore => .mute
  | _ => .deed

end Form

def Terminal.role (σ : Style) (t : Terminal) (text : String) : Role :=
  match t.use with
  | .none => .mute
  | .name => if σ.allows text then .nameWord else .misfit
  | .prose => .prose
  | .ownText => if text = resolveWord then .resolve else .word
  | _ => .word

mutual

def Tree.role (σ : Style) : Tree → Role
  | .node (.form f) ts => if f.fits σ (Tree.roles σ ts) then f.role else .misfit
  | .node (.other _) _ => .misfit
  | .token (.terminal t) text => t.role σ text
  | .token (.other _) _ => .misfit
  | .absent => .absent

def Tree.roles (σ : Style) : List Tree → List Role
  | [] => []
  | t :: ts => t.role σ :: Tree.roles σ ts

end

theorem Tree.roles_eq_map (σ : Style) (ts : List Tree) :
    Tree.roles σ ts = ts.map (Tree.role σ) := by
  induction ts with
  | nil => rfl
  | cons t ts ih => rw [Tree.roles, ih, List.map_cons]

/-- Only what is left out has the role of it. -/
theorem Tree.eq_absent_of_role {σ : Style} {t : Tree} (h : t.role σ = .absent) : t = .absent := by
  cases t with
  | absent => rfl
  | node label ts =>
    cases label with
    | other name => cases h
    | form f =>
      rw [Tree.role] at h
      split at h
      · cases f <;> cases h
      · cases h
  | token mark text =>
    cases mark with
    | other name => cases h
    | terminal t =>
      rw [Tree.role, Terminal.role] at h
      split at h <;> try split at h
      all_goals cases h

/-! ### Tidy trees -/

/-- The kinds of node that make up a tome. -/
def Form.isTome : Form → Bool
  | collection | tome | tomeContents => true
  | _ => false

/-- Whether a node proclaims without saying what. -/
def Form.proclaimsNothing : Form → List Tree → Bool
  | proclaim, [_, .absent] => true
  | _, _ => false

mutual

/-- Whether there is no tome in a tree, and no proclamation without saying what. -/
def Tree.isTidy : Tree → Bool
  | .node (.form f) ts => !f.isTome && !f.proclaimsNothing ts && Tree.areTidy ts
  | .node (.other _) ts => Tree.areTidy ts
  | .token _ _ => true
  | .absent => true

def Tree.areTidy : List Tree → Bool
  | [] => true
  | t :: ts => t.isTidy && Tree.areTidy ts

end

namespace Seat

theorem admits_proclaimed {ρ : Role} (σ : Style) (h : ρ ≠ .absent) :
    proclaimed.admits σ ρ = ρ.isPlain := by
  simp [admits, h]

end Seat

-- The style matters for tomes, and for a proclamation only when nothing is said.
/-- A form that is no tome and proclaims something fits tidily if it fits at all. -/
theorem Form.fits_tidy {f : Form} {ts : List Tree} (htome : f.isTome = false)
    (hbare : f.proclaimsNothing ts = false) :
    f.fits .tidy (Tree.roles .lax ts) = f.fits .lax (Tree.roles .lax ts) := by
  by_cases hf : f = .proclaim
  · subst hf
    match ts with
    | [] => rfl
    | [_] => rfl
    | a :: b :: rest =>
      show (Seat.admitAll .tidy [.any, .proclaimed] _) = Seat.admitAll .lax [.any, .proclaimed] _
      by_cases hb : b.role .lax = .absent
      · cases rest with
        | nil => cases Tree.eq_absent_of_role hb; cases hbare
        | cons _ _ => simp [Tree.roles, Seat.admitAll]
      · simp only [Tree.roles, Seat.admitAll, Seat.admits_proclaimed _ hb]
        cases rest <;> rfl
  · cases f with
    | proclaim => exact absurd rfl hf
    | collection | tome | tomeContents => cases htome
    | part =>
      rcases Tree.roles .lax ts with _ | ⟨ρ, _ | ⟨ρ', ρs⟩⟩
      · rfl
      · rfl
      · exact Seat.admitAll_style (σ := .tidy) (τ := .lax)
          (by decide : _ ∉ [.plain, .plain, .plain]) _
    | _ => first | rfl | exact Seat.admitAll_style (by decide) _

mutual

/-- A tidy tree has the same role in the tidy style. -/
theorem Tree.role_tidy {t : Tree} (h : t.isTidy = true) : t.role .tidy = t.role .lax := by
  cases t with
  | absent => rfl
  | token mark text => cases mark <;> rfl
  | node label ts =>
    cases label with
    | other name => rfl
    | form f =>
      simp only [Tree.isTidy, Bool.and_eq_true, Bool.not_eq_true'] at h
      obtain ⟨⟨htome, hbare⟩, hparts⟩ := h
      rw [Tree.role, Tree.role, Tree.roles_tidy hparts, Form.fits_tidy htome hbare]

theorem Tree.roles_tidy {ts : List Tree} (h : Tree.areTidy ts = true) :
    Tree.roles .tidy ts = Tree.roles .lax ts := by
  cases ts with
  | nil => rfl
  | cons t ts =>
    rw [Tree.areTidy, Bool.and_eq_true] at h
    rw [Tree.roles, Tree.roles, Tree.role_tidy h.1, Tree.roles_tidy h.2]

end

end Spellbook
