import Spellbook.Scope

/-!
# Laws of scopes

How looking a rune up goes together with writing, changing and dispelling one, and what a call can
do to the frames beneath its own.

A frame *covers* a name that it decides about by itself: a rune of its own, or a rune below that it
hides. A lookup goes past a frame exactly if the frame does not cover the name, so what a covered
name means further down is out of reach. Two relations between the frames before and after a run
build on this:

* `Scope.Kept s t` for the frames beneath the running one. They bind the same names, their sealed
  runes are untouched, and so is every rune that was out of reach.
* `Scope.Evolves s t` for all frames. The running frame is free to change, but a name that it
  covers never becomes reachable below.

The second is what every run obeys; the first is what a call leaves of its caller's frames.
-/

namespace Spellbook

/-! ## Tables -/

namespace Table

variable {α : Type}

theorem find?_cons (n x : String) (a : α) (t : Table α) :
    Table.find? ((n, a) :: t) x = if x = n then some a else t.find? x := by
  unfold Table.find?
  rw [List.lookup_cons]
  by_cases h : x = n
  · simp [h]
  · have hbeq : (x == n) = false := by simp [h]
    rw [hbeq, if_neg h]

/-- A table finds what was put under a name last. -/
theorem find?_put (t : Table α) (name x : String) (a : α) :
    (Table.put name a t).find? x = if x = name then some a else t.find? x := by
  induction t with
  | nil => rw [Table.put, find?_cons]
  | cons p t ih =>
      obtain ⟨n, b⟩ := p
      rw [Table.put]
      split
      · rename_i hn
        subst hn
        rw [find?_cons, find?_cons]
        split
        · rfl
        · rfl
      · rename_i hn
        rw [find?_cons, find?_cons, ih]
        by_cases hx : x = name
        · subst hx
          rw [if_neg (Ne.symm hn), if_pos rfl, if_pos rfl]
        · rw [if_neg hx, if_neg hx]

theorem find?_put_self (t : Table α) (name : String) (a : α) :
    (Table.put name a t).find? name = some a := by
  rw [find?_put, if_pos rfl]

theorem find?_put_of_ne (t : Table α) {name x : String} (a : α) (h : x ≠ name) :
    (Table.put name a t).find? x = t.find? x := by
  rw [find?_put, if_neg h]

theorem put_put (t : Table α) (name : String) (a b : α) :
    Table.put name b (Table.put name a t) = Table.put name b t := by
  induction t with
  | nil => simp [Table.put]
  | cons p t ih =>
      by_cases hn : p.1 = name
      · simp [Table.put, hn]
      · simp [Table.put, hn, ih]

/-- A table does not find a name that was removed. -/
theorem find?_remove (t : Table α) (name x : String) :
    (t.remove name).find? x = if x = name then none else t.find? x := by
  induction t with
  | nil =>
      split
      · rfl
      · rfl
  | cons p t ih =>
      obtain ⟨n, b⟩ := p
      unfold Table.remove at ih ⊢
      rw [List.filter_cons]
      by_cases hn : n = name
      · subst hn
        simp only [bne_self_eq_false, Bool.false_eq_true, if_false]
        rw [ih, find?_cons]
        split
        · rfl
        · rfl
      · simp only [bne_iff_ne, ne_eq, hn, not_false_eq_true, if_true]
        rw [find?_cons, find?_cons, ih]
        by_cases hx : x = n
        · subst hx
          rw [if_pos rfl, if_neg hn, if_pos rfl]
        · rw [if_neg hx, if_neg hx]

end Table

/-! ## Frames -/

/-- Whether a lookup of the name ends at this frame. -/
def Frame.covers (f : Frame) (x : String) : Bool := (f.own.find? x).isSome || f.hidden.contains x

namespace Scope

/-- A frame shows its own runes first, hides the hidden ones and lets the others through. -/
theorem find?_cons (f : Frame) (fs : Scope) (x : String) : find? (f :: fs) x =
    match f.own.find? x with
    | some e => some e
    | none => if f.hidden.contains x then none else find? fs x := rfl

/-- A change is made in the first frame that has the name. -/
theorem modify_cons (g : Entry → Entry) (f : Frame) (fs : Scope) (x : String) :
    modify g (f :: fs) x = match f.own.find? x with
    | some e => { f with own := Table.put x (g e) f.own } :: fs
    | none => if f.hidden.contains x then f :: fs else f :: modify g fs x := rfl

theorem write_cons (f : Frame) (fs : Scope) (x : String) (e : Entry) :
    write (f :: fs) x e = { f with own := Table.put x e f.own } :: fs := rfl

/-- Whether a lookup of the name ends at the running frame. -/
def covers : Scope → String → Bool
  | [], _ => false
  | f :: _, x => f.covers x

/-- The innermost frame covers a name that was written. -/
theorem covers_write (s : Scope) (name : String) (e : Entry) :
    (s.write name e).covers name = true := by
  cases s with
  | nil => simp [write, covers, Frame.covers, Table.find?_cons]
  | cons f fs => simp [write, covers, Frame.covers, Table.find?_put_self]

/-- A name that the first frame covers is looked up there. -/
theorem find?_of_covers {f : Frame} {x : String} (h : f.covers x = true) (fs : Scope) :
    find? (f :: fs) x = f.own.find? x := by
  rw [find?_cons]
  cases hown : f.own.find? x with
  | some e => rfl
  | none =>
      have hhidden : f.hidden.contains x = true := by simpa [Frame.covers, hown] using h
      simp only [hhidden, if_true]

/-- A name that the first frame does not cover is looked up below. -/
theorem find?_of_not_covers {f : Frame} {x : String} (h : f.covers x = false) (fs : Scope) :
    find? (f :: fs) x = find? fs x := by
  obtain ⟨hown, hhidden⟩ : f.own.find? x = none ∧ f.hidden.contains x = false := by
    simpa [Frame.covers] using h
  rw [find?_cons, hown]
  simp only [hhidden, Bool.false_eq_true, if_false]

/-! ## Lookup after a change -/

/-- A scope finds what was written under a name last. -/
theorem find?_write (s : Scope) (name x : String) (e : Entry) :
    (s.write name e).find? x = if x = name then some e else s.find? x := by
  cases s with
  | nil =>
      show find? [{ own := [(name, e)] }] x = if x = name then some e else none
      rw [find?_cons, Table.find?_cons]
      by_cases hx : x = name
      · rw [if_pos hx, if_pos hx]
      · rw [if_neg hx, if_neg hx]
        rfl
  | cons f fs =>
      rw [write_cons, find?_cons, Table.find?_put]
      by_cases hx : x = name
      · rw [if_pos hx, if_pos hx]
      · rw [if_neg hx, if_neg hx, find?_cons]

/-- A rune that is changed as soon as it is written is written so at once. -/
theorem modify_write_self (g : Entry → Entry) (s : Scope) (name : String) (e : Entry) :
    (s.write name e).modify g name = s.write name (g e) := by
  cases s with
  | nil => simp [write, modify, Table.find?_cons, Table.put]
  | cons f fs => simp [write, modify, Table.find?_put_self, Table.put_put]

theorem find?_modify_of_ne (g : Entry → Entry) (s : Scope) {name x : String} (h : x ≠ name) :
    (s.modify g name).find? x = s.find? x := by
  induction s with
  | nil => rfl
  | cons f fs ih =>
      rw [modify_cons]
      split
      · rw [find?_cons, Table.find?_put_of_ne _ _ h, find?_cons]
      · split
        · rfl
        · rw [find?_cons, find?_cons, ih]

/-- A change of an entry is seen by its name. -/
theorem find?_modify_self (g : Entry → Entry) (s : Scope) (name : String) :
    (s.modify g name).find? name = (s.find? name).map g := by
  induction s with
  | nil => rfl
  | cons f fs ih =>
      rw [modify_cons]
      split
      · rename_i e hown
        rw [find?_cons, Table.find?_put_self, find?_cons, hown]
        rfl
      · rename_i hown
        split
        · rename_i hhidden
          rw [find?_cons, hown]
          simp only [hhidden, if_true, Option.map_none]
        · rename_i hhidden
          rw [find?_cons, hown, find?_cons, hown]
          simp only [hhidden, Bool.false_eq_true, if_false, ih]

/-- A change of a name that is not there changes nothing. -/
theorem modify_of_find?_none (g : Entry → Entry) {s : Scope} {name : String}
    (h : s.find? name = none) : s.modify g name = s := by
  induction s with
  | nil => rfl
  | cons f fs ih =>
      rw [find?_cons] at h
      rw [modify_cons]
      split at h
      · cases h
      · split at h
        · rename_i hown hhidden
          rw [if_pos hhidden]
        · rename_i hown hhidden
          rw [if_neg hhidden, ih h]

/-- Hiding a name if there is something to hide. -/
theorem contains_hide (c : Bool) (name x : String) (hidden : List String) :
    (if c = true then name :: hidden else hidden).contains x =
      ((c && x == name) || hidden.contains x) := by
  cases c with
  | true => exact List.contains_cons
  | false => rfl

/-- Other names stay when one is dispelled. -/
theorem find?_dispel_of_ne (s : Scope) {name x : String} (h : x ≠ name) :
    (s.dispel name).find? x = s.find? x := by
  cases s with
  | nil => rfl
  | cons f fs =>
      have hbeq : (x == name) = false := beq_eq_false_iff_ne.mpr h
      rw [dispel, find?_cons, Table.find?_remove, if_neg h, contains_hide, hbeq, Bool.and_false,
        Bool.false_or, find?_cons]

end Scope

/-! ## Frames beneath the running one -/

/-- What a call may do to a frame beneath its own. -/
structure Frame.Kept (f f' : Frame) : Prop where
  names : ∀ x, (f'.own.find? x).isSome = (f.own.find? x).isSome
  hidden : f'.hidden = f.hidden
  sealedRunes : ∀ x e, f.own.find? x = some e → e.isSealed = true → f'.own.find? x = some e

namespace Frame.Kept

theorem refl (f : Frame) : f.Kept f := ⟨fun _ => rfl, rfl, fun _ _ h _ => h⟩

/-- Frames may be kept in two steps. -/
theorem trans {f g h : Frame} (hfg : f.Kept g) (hgh : g.Kept h) : f.Kept h where
  names x := (hgh.names x).trans (hfg.names x)
  hidden := hgh.hidden.trans hfg.hidden
  sealedRunes x e hx he := hgh.sealedRunes x e (hfg.sealedRunes x e hx he) he

/-- A kept frame covers the same names. -/
theorem covers {f f' : Frame} (h : f.Kept f') (x : String) : f'.covers x = f.covers x := by
  rw [Frame.covers, Frame.covers, h.names, h.hidden]

/-- Changing a rune that was open to begin with. -/
theorem put {f f' : Frame} (h : f.Kept f') {name : String} (e : Entry)
    (hname : (f'.own.find? name).isSome = true)
    (hopen : ∀ e, f.own.find? name = some e → e.isSealed = false) :
    f.Kept { f' with own := Table.put name e f'.own } where
  names x := by
    rw [Table.find?_put, ← h.names]
    by_cases hx : x = name
    · rw [if_pos hx, hx, hname]
      rfl
    · rw [if_neg hx]
  hidden := h.hidden
  sealedRunes x e₀ hx he := by
    have hne : x ≠ name := by
      intro heq
      rw [heq] at hx
      rw [hopen e₀ hx] at he
      cases he
    rw [Table.find?_put_of_ne _ _ hne]
    exact h.sealedRunes x e₀ hx he

end Frame.Kept

namespace Scope

/-- What a call may do to the frames beneath its own. A name that a frame covers is out of reach
further down, so its runes there stay as they are. -/
inductive Kept : Scope → Scope → Prop
  | nil : Kept [] []
  | cons {f f' : Frame} {fs fs' : Scope} : f.Kept f' →
      (∀ x, f.covers x = true → find? fs' x = find? fs x) → Kept fs fs' →
      Kept (f :: fs) (f' :: fs')

namespace Kept

theorem refl (s : Scope) : Kept s s := by
  induction s with
  | nil => exact .nil
  | cons f fs ih => exact .cons (.refl f) (fun _ _ => rfl) ih

/-- Scopes may be kept in two steps. -/
theorem trans {s t u : Scope} (hst : Kept s t) (htu : Kept t u) : Kept s u := by
  induction hst generalizing u with
  | nil => exact htu
  | cons hf hreach _ ih =>
      cases htu with
      | cons hf' hreach' hfs' =>
          refine .cons (hf.trans hf') (fun x hx => ?_) (ih hfs')
          rw [hreach' x (by rw [hf.covers, hx]), hreach x hx]

/-- A kept scope has as many frames. -/
theorem length_eq {s t : Scope} (h : Kept s t) : t.length = s.length := by
  induction h with
  | nil => rfl
  | cons _ _ _ ih => rw [List.length_cons, List.length_cons, ih]

/-- The same names can be seen. -/
theorem isSome_find? {s t : Scope} (h : Kept s t) (x : String) :
    (t.find? x).isSome = (s.find? x).isSome := by
  induction h with
  | nil => rfl
  | @cons f f' fs fs' hf _ _ ih =>
      cases hx : f.covers x with
      | true =>
          rw [find?_of_covers hx, find?_of_covers (by rw [hf.covers, hx]), hf.names]
      | false =>
          rw [find?_of_not_covers hx, find?_of_not_covers (by rw [hf.covers, hx]), ih]

/-- A kept scope has no name that it did not have before. -/
theorem find?_eq_none {s t : Scope} (h : Kept s t) {x : String} (hx : s.find? x = none) :
    t.find? x = none := by
  have hsome := h.isSome_find? x
  rw [hx] at hsome
  exact Option.not_isSome_iff_eq_none.mp (by rw [hsome]; decide)

/-- A sealed rune is untouched. -/
theorem find?_of_sealed {s t : Scope} (h : Kept s t) {x : String} {e : Entry}
    (hx : s.find? x = some e) (he : e.isSealed = true) : t.find? x = some e := by
  induction h with
  | nil => cases hx
  | @cons f f' fs fs' hf _ _ ih =>
      cases hc : f.covers x with
      | true =>
          rw [find?_of_covers hc] at hx
          rw [find?_of_covers (by rw [hf.covers, hc])]
          exact hf.sealedRunes x e hx he
      | false =>
          rw [find?_of_not_covers hc] at hx
          rw [find?_of_not_covers (by rw [hf.covers, hc])]
          exact ih hx

/-- Changing a rune that was open to begin with. It need not be open any more. -/
theorem modify {s t : Scope} (h : Kept s t) {name : String} (g : Entry → Entry)
    (hopen : ∀ e, s.find? name = some e → e.isSealed = false) : Kept s (t.modify g name) := by
  induction h with
  | nil => exact .nil
  | @cons f f' fs fs' hf hreach hfs ih =>
      rw [Scope.modify]
      cases hown : f'.own.find? name with
      | some e' =>
          have hc : f.covers name = true := by
            rw [← hf.covers, Frame.covers, hown]
            rfl
          rw [find?_of_covers hc] at hopen
          exact .cons (hf.put (g e') (by rw [hown]; rfl) hopen) hreach hfs
      | none =>
          dsimp only
          split
          · exact .cons hf hreach hfs
          · rename_i hhidden
            -- the rune is further down, and no name that `f` covers is this one
            have hc : f.covers name = false := by
              rw [← hf.covers, Frame.covers, hown]
              simpa using hhidden
            rw [find?_of_not_covers hc] at hopen
            refine .cons hf (fun x hx => ?_) (ih hopen)
            have hne : x ≠ name := by
              intro heq
              rw [heq, hc] at hx
              cases hx
            rw [find?_modify_of_ne g fs' hne, hreach x hx]

end Kept

/-! ## All frames -/

/-- What a run may do to the scope. The running frame is free to change, but of the names that it
covers none becomes reachable below. -/
inductive Evolves : Scope → Scope → Prop
  | intro {f f' : Frame} {fs fs' : Scope} : Kept fs fs' →
      (∀ x, f.covers x = true → find? fs' x = find? fs x) →
      (∀ x, f.covers x = true → f'.covers x = true ∨ find? fs x = none) →
      Evolves (f :: fs) (f' :: fs')

namespace Evolves

theorem refl {s : Scope} (h : s ≠ []) : Evolves s s := by
  cases s with
  | nil => exact absurd rfl h
  | cons f fs => exact .intro (.refl fs) (fun _ _ => rfl) (fun _ hx => .inl hx)

theorem ne_nil {s t : Scope} (h : Evolves s t) : t ≠ [] := by
  cases h with
  | intro _ _ _ => exact List.cons_ne_nil _ _

/-- A kept scope has evolved. -/
theorem of_kept {s t : Scope} (h : Kept s t) (hs : s ≠ []) : Evolves s t := by
  cases h with
  | nil => exact absurd rfl hs
  | cons hf hreach hfs => exact .intro hfs hreach fun x hx => .inl (by rw [hf.covers, hx])

/-- Scopes may evolve in two steps. -/
theorem trans {s t u : Scope} (hst : Evolves s t) (htu : Evolves t u) : Evolves s u := by
  cases hst with
  | @intro f f' fs fs' hkept hreach hcover =>
      cases htu with
      | @intro _ f'' _ fs'' hkept' hreach' hcover' =>
          refine .intro (hkept.trans hkept') (fun x hx => ?_) (fun x hx => ?_)
          · rcases hcover x hx with hx' | hnone
            · rw [hreach' x hx', hreach x hx]
            · rw [hnone, hkept'.find?_eq_none (hkept.find?_eq_none hnone)]
          · rcases hcover x hx with hx' | hnone
            · rw [← hreach x hx]
              exact hcover' x hx'
            · exact .inr hnone

/-- A scope that writes a rune has evolved. -/
theorem write {s t : Scope} (h : Evolves s t) (name : String) (e : Entry) :
    Evolves s (t.write name e) := by
  cases h with
  | @intro f f' fs fs' hkept hreach hcover =>
      refine .intro hkept hreach fun x hx => ?_
      rcases hcover x hx with hx' | hnone
      · left
        rw [Frame.covers, Table.find?_put]
        split
        · rfl
        · exact hx'
      · exact .inr hnone

/-- A scope that dispels a rune has evolved. -/
theorem dispel {s t : Scope} (h : Evolves s t) (name : String) :
    Evolves s (t.dispel name) := by
  cases h with
  | @intro f f' fs fs' hkept hreach hcover =>
      refine .intro hkept hreach fun x hx => ?_
      rcases hcover x hx with hx' | hnone
      · rw [Frame.covers, Table.find?_remove, contains_hide]
        by_cases hname : x = name
        · subst hname
          -- the name is hidden from now on, unless there is nothing to hide
          cases hwritten : isWritten fs' x with
          | true =>
              left
              cases f'.hidden.contains x with
              | true => simp
              | false => simp
          | false =>
              right
              rw [← hreach x hx]
              exact Option.not_isSome_iff_eq_none.mp (by simpa [isWritten] using hwritten)
        · left
          rw [if_neg hname, Bool.or_left_comm]
          exact Bool.or_eq_true_iff.mpr (.inr hx')
      · exact .inr hnone

/-- Changing a rune that was open to begin with, or whose name the running frame covered. -/
theorem modify {s t : Scope} (h : Evolves s t) {name : String} (g : Entry → Entry)
    (hname : s.covers name = true ∨ ∀ e, s.find? name = some e → e.isSealed = false) :
    Evolves s (t.modify g name) := by
  cases h with
  | @intro f f' fs fs' hkept hreach hcover =>
      rw [Scope.modify]
      cases hown : f'.own.find? name with
      | some e' =>
          refine .intro hkept hreach fun x hx => ?_
          rcases hcover x hx with hx' | hnone
          · left
            rw [Frame.covers, Table.find?_put]
            split
            · rfl
            · exact hx'
          · exact .inr hnone
      | none =>
          dsimp only
          split
          · exact .intro hkept hreach hcover
          · rename_i hhidden
            have hc' : f'.covers name = false := by
              rw [Frame.covers, hown]
              simpa using hhidden
            cases hc : f.covers name with
            | true =>
                -- what `f` covered and `f'` does not is not written below
                have hnone : find? fs name = none := by
                  rcases hcover name hc with hx' | hnone
                  · rw [hc'] at hx'
                    cases hx'
                  · exact hnone
                rw [modify_of_find?_none g (hkept.find?_eq_none hnone)]
                exact .intro hkept hreach hcover
            | false =>
                have hopen : ∀ e, find? fs name = some e → e.isSealed = false := by
                  rcases hname with hcovers | hopen
                  · rw [Scope.covers, hc] at hcovers
                    cases hcovers
                  · rwa [find?_of_not_covers hc] at hopen
                refine .intro (hkept.modify g hopen) (fun x hx => ?_) hcover
                have hne : x ≠ name := by
                  intro heq
                  rw [heq, hc] at hx
                  cases hx
                rw [find?_modify_of_ne g fs' hne, hreach x hx]

end Evolves

end Scope

end Spellbook
