import Spellbook.Proofs.Reading

/-!
# What is built of a text

An `Account` says of each nonterminal which trees it may stand for, and with which tokens. If every
production respects it, it is true of every tree that is read (`Reader.Reads.accounted`). A given
production respects it if the account `Ensures` what the production says, which unfolds to a
statement about its parts.
-/

namespace Spellbook

/-- The token of a terminal with only one spelling. -/
def mark (t : Terminal) : Lexeme := ⟨t, t.spelling?.getD []⟩

/-- What the trees and tokens of the nonterminals are said to be. -/
abbrev Account := Nonterminal → List Tree → List Lexeme → Prop

namespace Account

variable (F : Account)

/-- The right side `slots` stands for the tokens `ls`, and `ts` are the trees that become
children. -/
def Slots : List Slot → List Tree → List Lexeme → Prop
  | [], ts, ls => ts = [] ∧ ls = []
  | .gap :: slots, ts, ls => ∃ ts', ts = .absent :: ts' ∧ Slots slots ts' ls
  | .dropped t :: slots, ts, ls => ∃ ls', ls = mark t :: ls' ∧ Slots slots ts ls'
  | .kept t :: slots, ts, ls =>
    ∃ text ts' ls', Lexeme.Spelled ⟨t, text.toList⟩ ∧ ts = .leaf t text :: ts' ∧
      ls = ⟨t, text.toList⟩ :: ls' ∧ Slots slots ts' ls'
  | .part n :: slots, ts, ls =>
    ∃ ts₁ ts₂ ls₁ ls₂, ts = ts₁ ++ ts₂ ∧ ls = ls₁ ++ ls₂ ∧ F n ts₁ ls₁ ∧ Slots slots ts₂ ls₂

/-- Whatever the right side `slots` stands for, `P` is true of its children and its tokens. Unlike
the right side of an implication from `Slots`, this names the parts one after the other. -/
def Ensures : List Slot → (List Tree → List Lexeme → Prop) → Prop
  | [], P => P [] []
  | .gap :: slots, P => Ensures slots fun ts ls => P (.absent :: ts) ls
  | .dropped t :: slots, P => Ensures slots fun ts ls => P ts (mark t :: ls)
  | .kept t :: slots, P => ∀ text, Lexeme.Spelled ⟨t, text.toList⟩ →
      Ensures slots fun ts ls => P (.leaf t text :: ts) (⟨t, text.toList⟩ :: ls)
  | .part n :: slots, P => ∀ ts₁ ls₁, F n ts₁ ls₁ →
      Ensures slots fun ts ls => P (ts₁ ++ ts) (ls₁ ++ ls)

/-- The pieces, made for the symbols `xs`, are what the account says. -/
inductive All : List Symbol → List Reader.Piece → List Lexeme → Prop
  | nil : All [] [] []
  | token {xs : List Symbol} {pieces : List Reader.Piece} {ls : List Lexeme} (l : Lexeme)
      (hl : l.Spelled) (rest : All xs pieces ls) :
      All (.terminal l.terminal :: xs)
        (.tree (.leaf l.terminal (String.ofList l.text)) :: pieces) (l :: ls)
  | part {n : Nonterminal} {xs : List Symbol} {piece : Reader.Piece} {pieces : List Reader.Piece}
      {ls ls' : List Lexeme} (h : F n piece.trees ls) (rest : All xs pieces ls') :
      All (.nonterminal n :: xs) (piece :: pieces) (ls ++ ls')

end Account

def Production.trees (p : Production) (children : List Tree) : List Tree :=
  match p.shape with
  | .node f => [.form f children]
  | _ => children

/-- What a production makes is what the account says, if its children are. -/
def Production.Respects (F : Account) (p : Production) : Prop :=
  ∀ ts ls, F.Slots p.slots ts ls → F p.left (p.trees ts) ls

/-- A token that is dropped has only one spelling. -/
def Slot.isRestorable : Slot → Bool
  | dropped t => t.spelling?.isSome
  | _ => true

theorem productions_restorable :
    ∀ p ∈ Grammar.productions, ∀ slot ∈ p.slots, slot.isRestorable = true := by
  decide

theorem Lexeme.Spelled.eq_mark {l : Lexeme} (h : l.Spelled)
    (hs : l.terminal.spelling?.isSome = true) :
    l = mark l.terminal := by
  obtain ⟨w, hw⟩ := Option.isSome_iff_exists.mp hs
  rw [mark, hw, Option.getD_some, ← h w hw]

section
variable {F : Account}

theorem Account.Ensures.of_slots {slots : List Slot} {P : List Tree → List Lexeme → Prop}
    (h : F.Ensures slots P) {ts : List Tree} {ls : List Lexeme} (hslots : F.Slots slots ts ls) :
    P ts ls := by
  induction slots generalizing P ts ls with
  | nil =>
    obtain ⟨rfl, rfl⟩ := hslots
    exact h
  | cons slot slots ih =>
    cases slot with
    | gap =>
      obtain ⟨_, rfl, hrest⟩ := hslots
      exact ih h hrest
    | dropped t =>
      obtain ⟨_, rfl, hrest⟩ := hslots
      exact ih h hrest
    | kept t =>
      obtain ⟨text, _, _, hspelled, rfl, rfl, hrest⟩ := hslots
      exact ih (h text hspelled) hrest
    | part n =>
      obtain ⟨ts₁, _, ls₁, _, rfl, rfl, hpart, hrest⟩ := hslots
      exact ih (h ts₁ ls₁ hpart) hrest

theorem Production.respects_of_ensures {p : Production}
    (h : F.Ensures p.slots fun ts ls => F p.left (p.trees ts) ls) : p.Respects F :=
  fun _ _ hslots => h.of_slots hslots

theorem Account.slots_of_all {slots : List Slot} {pieces : List Reader.Piece} {ls : List Lexeme}
    (hslots : ∀ slot ∈ slots, slot.isRestorable = true)
    (h : F.All (slots.filterMap Slot.symbol?) pieces ls) :
    F.Slots slots (Reader.collect slots pieces) ls := by
  induction slots generalizing pieces ls with
  | nil => cases h; exact ⟨rfl, rfl⟩
  | cons slot slots ih =>
    obtain ⟨hslot, hothers⟩ := List.forall_mem_cons.mp hslots
    cases slot with
    | gap => exact ⟨_, rfl, ih hothers h⟩
    | dropped t =>
      cases h with
      | token l hl rest =>
        refine ⟨_, ?_, ih hothers rest⟩
        rw [← hl.eq_mark hslot]
    | kept t =>
      cases h with
      | token l hl rest =>
        refine ⟨_, _, _, ?_, rfl, ?_, ih hothers rest⟩
        · rw [String.toList_ofList]
          exact hl
        · rw [String.toList_ofList]
    | part n =>
      cases h with
      | part h rest => exact ⟨_, _, _, _, rfl, rfl, h, ih hothers rest⟩

theorem Reader.trees_build (p : Production) (pieces : List Reader.Piece) :
    (Reader.build p pieces).trees = p.trees (Reader.collect p.slots pieces) := by
  rw [Reader.build, Production.trees]
  cases p.shape with
  | node f => rfl
  | list => rfl
  | only => split <;> simp_all [Reader.Piece.trees]

namespace Reader

variable (hF : ∀ p ∈ Grammar.productions, p.Respects F)
include hF

theorem Derives.accounted {xs : List Symbol} {pieces : List Piece} {ls : List Lexeme}
    (h : Derives Grammar.productions xs pieces ls) (hls : ∀ l ∈ ls, l.Spelled) :
    F.All xs pieces ls := by
  induction h with
  | nil => exact .nil
  | token l rest ih =>
    exact .token l (hls l List.mem_cons_self) (ih fun l' hl' => hls l' (List.mem_cons_of_mem l hl'))
  | @close xs parts pieces ls ls' p hp inside rest ihin ih =>
    have hin := ihin fun l hl => hls l (List.mem_append_left _ hl)
    refine .part ?_ (ih fun l hl => hls l (List.mem_append_right _ hl))
    rw [trees_build]
    exact hF p hp _ _ (Account.slots_of_all (productions_restorable p hp) hin)

/-- **What every production respects is true of what is read.** -/
theorem Reads.accounted {c : Cut} {t : Tree} (h : Reads [] c t) : F .start [t] c.lexemes := by
  have hall := Derives.accounted hF (h.derives .nil) h.spelled
  rw [List.nil_append] at hall
  generalize c.lexemes = ls at hall ⊢
  cases hall with
  | part hstart rest =>
    cases rest
    rwa [List.append_nil]

end Reader

end

end Spellbook
