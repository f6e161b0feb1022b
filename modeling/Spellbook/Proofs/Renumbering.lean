import Spellbook.Proofs.Prose

/-!
# Numerals put into a text

A text that is read with the numeral `9` in some places is read with any other whole number in these
places, and its tree then has the other numeral there (`Tree.read_renumbered`). What has to be known
of the given text is checked along the way of the reader through it (`Cut.hasPlaces`): its gaps are
blanks, the digit stands nowhere else, and either a blank stands somewhere between a token and the
place behind it, or the token is the opening of a call, which is cut off whatever follows it.
-/

namespace Spellbook

/-! ## Whole numbers as tokens -/

/-- The texts of whole numbers: digits, perhaps with a minus before them. -/
def isWholeNumeral (w : List Char) : Bool :=
  match w with
  | '-' :: ds => isNumeral ds
  | ds => isNumeral ds

theorem isWholeNumeral_minus {ds : List Char} (h : isNumeral ds = true) :
    isWholeNumeral ('-' :: ds) = true := h

theorem isWholeNumeral_numeral {ds : List Char} (h : isNumeral ds = true) :
    isWholeNumeral ds = true := by
  unfold isWholeNumeral
  split
  · next ds => cases h
  · exact h

/-- A whole numeral has digits, perhaps behind a minus sign. -/
theorem isWholeNumeral_cases {w : List Char} (h : isWholeNumeral w = true) :
    ∃ ds, isNumeral ds = true ∧ (w = ds ∨ w = '-' :: ds) := by
  unfold isWholeNumeral at h
  split at h
  · next ds => exact ⟨ds, h, .inr rfl⟩
  · exact ⟨w, h, .inl rfl⟩

/-- A whole numeral is cut off if no digit follows it. -/
theorem cutWhole_whole {w v : List Char} (hw : isWholeNumeral w = true)
    (hv : ∀ c ∈ v.head?, isDigit c = false) :
    Pattern.cutWhole (w ++ v) = some (w, v) := by
  obtain ⟨ds, hds, rfl | rfl⟩ := isWholeNumeral_cases hw
  · exact cutWhole_numeral hds hv
  · rw [isNumeral, Bool.and_eq_true, Bool.not_eq_true', List.all_eq_true] at hds
    have hrun : cutRun isDigit (ds ++ v) = some (ds, v) :=
      cutRun_eq_some.mpr ⟨(by rintro rfl; cases hds.1), rfl, hds.2, hv⟩
    rw [List.cons_append, Pattern.cutWhole, hrun]
    rfl

theorem not_mem_whole {w : List Char} (hw : isWholeNumeral w = true) {c : Char} (hminus : c ≠ '-')
    (hc : isDigit c = false) : c ∉ w := by
  intro hmem
  obtain ⟨ds, hds, hw⟩ := isWholeNumeral_cases hw
  rw [isNumeral, Bool.and_eq_true, List.all_eq_true] at hds
  have hdigit : c ∈ ds := by
    rcases hw with rfl | rfl
    · exact hmem
    · exact (List.mem_cons.mp hmem).resolve_left hminus
  rw [hds.2 c hdigit] at hc
  cases hc

/-- In code a tilde with a colon behind it is the opening of a call, or a tilde alone. -/
theorem Terminal.eq_of_split_openCall {t : Terminal} {cs l r : List Char}
    (h : t.pattern.split ('~' :: ':' :: cs) = some (l, r)) :
    t = .openCall ∨ t = .roundOp ∨ t = .tilde ∨ t = .prose := by
  have hopens : t ∈ [compoundOp, mulOp, addOp, remark, openCall, roundOp, tilde, prose] := by
    have hall : ∀ t ∈ Terminal.all, t.pattern.opensWith '~' = true →
        t ∈ [compoundOp, mulOp, addOp, remark, openCall, roundOp, tilde, prose] := by decide
    exact hall t t.mem_all (Pattern.opensWith_of_split h)
  simp only [List.mem_cons, List.not_mem_nil, or_false] at hopens
  rcases hopens with rfl | rfl | rfl | rfl | rfl | rfl | rfl | rfl
  · cases h
  · cases h
  · cases h
  · cases h
  · exact .inl rfl
  · exact .inr (.inl rfl)
  · exact .inr (.inr (.inl rfl))
  · exact .inr (.inr (.inr rfl))

namespace Lexicon

variable {l : Lexicon} {r v w w' : List Char}

/-- A lexer that cuts off one whole number cuts off any other, where no digit and no point
follows. -/
theorem IsCode.startsWith_whole (hl : l.IsCode) (h : l.StartsWith (w ++ r) ⟨.whole, w⟩ r)
    (hw : isWholeNumeral w' = true) (hv : ∀ c ∈ v.head?, isDigit c = false ∧ c ≠ '.') :
    l.StartsWith (w' ++ v) ⟨.whole, w'⟩ v := by
  obtain ⟨t, hfit, hs, hclass⟩ := h
  obtain ⟨ht, -, -⟩ := (firstFit_eq_some_iff hl.ordered).mp hfit
  obtain rfl : t = .whole := by
    rcases l.classify_cases t w with hsame | ⟨-, hspelling⟩
    · rw [← hsame, ← hclass]
    · rw [← hclass] at hspelling
      cases hspelling
  have hsplit : Terminal.whole.pattern.split (w' ++ v) = some (w', v) :=
    cutWhole_whole hw fun c hc => (hv c hc).1
  refine ⟨.whole, (firstFit_eq_some_iff hl.ordered).mpr ⟨ht, hsplit, fun s hmem hlt => ?_⟩, hs, ?_⟩
  · obtain rfl : s = .decimal := by
      have hall : ∀ s ∈ Terminal.all, s.code < Terminal.whole.code → s = .decimal := by decide
      exact hall s s.mem_all hlt
    show Pattern.decimal.split (w' ++ v) = none
    rw [Pattern.split_decimal, show Pattern.cutWhole (w' ++ v) = some (w', v) from hsplit,
      Option.bind_some]
    cases v with
    | nil => rfl
    | cons c v => exact Pattern.cutFraction_of_ne (hv c rfl).2 ..
  · have hnone : (l.pool.find? fun s => Terminal.whole.absorbs s && s.spelling? == some w') =
        none := by
      refine List.find?_eq_none.mpr fun s _ hfound => ?_
      have hall : ∀ s ∈ Terminal.all, Terminal.whole.absorbs s = false := by decide
      rw [hall s s.mem_all] at hfound
      cases hfound
    rw [classify, hnone, Option.getD_none]

/-- The opening of a call is cut off whatever follows it. -/
theorem IsCode.startsWith_openCall (hl : l.IsCode)
    (h : l.StartsWith (['~', ':'] ++ r) ⟨.openCall, ['~', ':']⟩ r) (v : List Char) :
    l.StartsWith (['~', ':'] ++ v) ⟨.openCall, ['~', ':']⟩ v := by
  obtain ⟨t, hfit, hs, hclass⟩ := h
  obtain ⟨ht, hsplit, -⟩ := (firstFit_eq_some_iff hl.ordered).mp hfit
  obtain rfl : t = .openCall := by
    rcases Terminal.eq_of_split_openCall hsplit with rfl | rfl | rfl | rfl
    · rfl
    · cases hsplit
    · cases hsplit
    · exact absurd ht hl.prose
  have hnew : Terminal.openCall.pattern.split (['~', ':'] ++ v) = some (['~', ':'], v) :=
    Pattern.split_exactly_eq_some.mpr ⟨List.cons_ne_nil _ _, rfl, rfl⟩
  refine ⟨.openCall, (firstFit_eq_some_iff hl.ordered).mpr ⟨ht, hnew, fun s hmem hlt => ?_⟩, hs,
    hclass⟩
  cases hother : s.pattern.split (['~', ':'] ++ v) with
  | none => rfl
  | some pair =>
    rcases Terminal.eq_of_split_openCall hother with rfl | rfl | rfl | rfl
    · exact absurd hlt (Nat.lt_irrefl _)
    · exact absurd hlt (by decide)
    · exact absurd hlt (by decide)
    · exact absurd hmem hl.prose

end Lexicon

/-! ## Places -/

/-- The numeral at the places spelled otherwise, and all else as it is. -/
def numeralSpelling (w : List Char) : Spelling :=
  fun t text => if (⟨t, text⟩ : Lexeme) = .place then w else text

/-- A character of a text, or what is put in its place. -/
def putIn (w : List Char) (c : Char) : List Char := if c = '9' then w else [c]

theorem flatMap_putIn {w cs : List Char} (h : '9' ∉ cs) : cs.flatMap (putIn w) = cs := by
  induction cs with
  | nil => rfl
  | cons b cs ih =>
    rw [List.mem_cons, not_or] at h
    rw [List.flatMap_cons, putIn, if_neg fun hb => h.1 hb.symm, ih h.2]
    rfl

theorem flatMap_putIn_place (w : List Char) : "9".toList.flatMap (putIn w) = w := by
  show w ++ [] = w
  rw [List.append_nil]

namespace Cut

/-- The cut with the tokens spelled otherwise, in the same gaps. -/
def respell (g : Spelling) : Cut → Cut
  | tail cs => tail cs
  | cons s c => cons ⟨s.gap, s.lexeme.respell g⟩ (c.respell g)

end Cut

/-- The second of two texts that agree up to a blank starts like the first, or with a blank. -/
theorem Agree.head_cases {cs cs' : List Char} (h : Agree cs cs') {b : Char} (hb : b ∈ cs'.head?) :
    b ∈ cs.head? ∨ isBlank b = true := by
  obtain ⟨u, r, v, rfl, rfl, hv⟩ := h
  cases u with
  | nil => exact .inr (hv b hb)
  | cons a u => exact .inl hb

section
variable {w : List Char} {n : Nesting} {s : Segment} {c : Cut}

/-- A cut with places has layout between its tokens, and its first token is told apart. -/
theorem Cut.hasPlaces_cons (h : (Cut.cons s c).hasPlaces n = true) : n.inText = false ∧
    (∀ b ∈ s.gap, isBlank b = true) ∧ Cut.tokenOk s.lexeme c = true ∧
      c.hasPlaces (n.after s.lexeme.terminal) = true := by
  simp only [Cut.hasPlaces, Bool.and_eq_true, Bool.not_eq_true', List.all_eq_true] at h
  exact ⟨h.1.1.1, h.1.1.2, h.1.2, h.2⟩

theorem Lexeme.respell_place (w : List Char) :
    Lexeme.place.respell (numeralSpelling w) = ⟨.whole, w⟩ := by
  rw [Lexeme.respell, numeralSpelling, if_pos rfl]
  rfl

/-- Only the places are respelled. -/
theorem Lexeme.respell_of_ne {l : Lexeme} (h : l ≠ .place) : l.respell (numeralSpelling w) = l := by
  rw [Lexeme.respell, numeralSpelling, if_neg h]

@[simp] theorem Tree.retext_place (w : List Char) :
    (Tree.leaf .whole "9").retext (numeralSpelling w) = .leaf .whole (String.ofList w) := by
  rw [Tree.retext, numeralSpelling, if_pos (by decide)]

@[simp] theorem Tree.retext_of_terminal_ne {t : Terminal} {text : String} (h : t ≠ .whole) :
    (Tree.leaf t text).retext (numeralSpelling w) = .leaf t text := by
  rw [Tree.retext, numeralSpelling, if_neg fun hplace => h (congrArg Lexeme.terminal hplace),
    String.ofList_toList]

@[simp] theorem Tree.retext_of_text_ne {t : Terminal} {text : String} (h : text ≠ "9") :
    (Tree.leaf t text).retext (numeralSpelling w) = .leaf t text := by
  have hother : (⟨t, text.toList⟩ : Lexeme) ≠ .place := fun hplace =>
    h (String.toList_injective ((congrArg Lexeme.text hplace).trans (by decide)))
  rw [Tree.retext, numeralSpelling, if_neg hother, String.ofList_toList]

/-- What is put in comes behind a blank. -/
theorem Cut.agree_respell (h : c.hasPlaces n = true) (hsteady : c.isSteady = true) :
    Agree c.text (c.respell (numeralSpelling w)).text := by
  induction c generalizing n with
  | tail cs => exact .refl cs
  | cons s c ih =>
    obtain ⟨-, hgap, -, hrest⟩ := Cut.hasPlaces_cons h
    cases hs : s.gap with
    | nil =>
      simp only [Cut.isSteady, hs, List.isEmpty_nil, Bool.not_true, Bool.false_or, Bool.and_eq_true,
        bne_iff_ne] at hsteady
      rw [Cut.text, Cut.respell, Cut.text, Lexeme.respell_of_ne hsteady.1]
      exact ((ih hrest hsteady.2).append _).append _
    | cons b gap =>
      rw [Cut.respell, Cut.text, Cut.text, hs]
      exact .of_stops _ (.cons (hgap b (by rw [hs]; exact List.mem_cons_self)))

/-- What is put in takes the places of the digit. -/
theorem Cut.text_respell (h : c.hasPlaces n = true) :
    (c.respell (numeralSpelling w)).text = c.text.flatMap (putIn w) := by
  have hblank {cs : List Char} (hcs : ∀ b ∈ cs, isBlank b = true) : '9' ∉ cs := fun hmem => by
    cases hcs _ hmem
  induction c generalizing n with
  | tail cs =>
    simp only [Cut.hasPlaces, List.all_eq_true] at h
    exact (flatMap_putIn (hblank h)).symm
  | cons s c ih =>
    obtain ⟨-, hgap, hok, hrest⟩ := Cut.hasPlaces_cons h
    rw [Cut.respell, Cut.text, Cut.text, List.flatMap_append, List.flatMap_append,
      flatMap_putIn (hblank hgap), ih hrest]
    by_cases hplace : s.lexeme = .place
    · rw [hplace, Lexeme.respell_place]
      simp [Lexeme.place, putIn]
    · rw [Cut.tokenOk, if_neg hplace, Bool.and_eq_true, Bool.not_eq_true'] at hok
      have hother : '9' ∉ s.lexeme.text := by simpa using hok.1
      rw [Lexeme.respell_of_ne hplace, flatMap_putIn hother]

/-- A token is cut off whatever is put into the places behind it. -/
theorem Lexicon.IsCode.startsWith_respell {L : Lexicon} (hL : L.IsCode)
    (hw : isWholeNumeral w = true) {l : Lexeme} (hok : Cut.tokenOk l c = true)
    (hrest : c.hasPlaces n = true) (h : L.StartsWith (l.text ++ c.text) l c.text) :
    L.StartsWith ((l.respell (numeralSpelling w)).text ++ (c.respell (numeralSpelling w)).text)
      (l.respell (numeralSpelling w)) (c.respell (numeralSpelling w)).text := by
  have hsame (hsteady : c.isSteady = true) :
      L.StartsWith (l.text ++ (c.respell (numeralSpelling w)).text) l
        (c.respell (numeralSpelling w)).text := by
    obtain ⟨u, r, v, hu, hu', hv⟩ := Cut.agree_respell (w := w) hrest hsteady
    rw [hu, ← List.append_assoc] at h
    rw [hu', ← List.append_assoc]
    exact hL.startsWith_stop h hv
  rw [Cut.tokenOk] at hok
  split at hok
  · next hplace =>
    subst hplace
    rw [Bool.and_eq_true] at hok
    rw [Lexeme.respell_place]
    refine hL.startsWith_whole h hw fun b hb => ?_
    rcases (Cut.agree_respell hrest hok.1).head_cases hb with hhead | hblank
    · have hall := hok.2
      rw [hhead] at hall
      simpa using hall
    · exact ⟨isDigit_blank hblank, by rintro rfl; cases hblank⟩
  · next hplace =>
    rw [Lexeme.respell_of_ne hplace]
    rw [Bool.and_eq_true, Bool.or_eq_true, beq_iff_eq] at hok
    rcases hok.2 with hsteady | rfl
    · exact hsame hsteady
    · exact hL.startsWith_openCall h _

/-- A cut with places is read the same with another numeral in them. -/
theorem Cut.respells (hw : isWholeNumeral w = true) (h : c.hasPlaces n = true) :
    Respells (numeralSpelling w) n c (c.respell (numeralSpelling w)) := by
  induction c generalizing n with
  | tail cs =>
    simp only [Cut.hasPlaces, List.all_eq_true] at h
    exact .finish (.layout (.of_blanks h))
  | cons s c ih =>
    obtain ⟨hcode, hgap, hok, hrest⟩ := Cut.hasPlaces_cons h
    refine .take ?_ (fun L hL hstarts => ?_) (ih hrest)
    · rw [hcode]
      exact .of_blanks hgap
    · rw [hcode] at hL
      exact Lexicon.IsCode.startsWith_respell hL hw hok hrest hstarts

end

/-- **Any whole number can be put into the places of a text**, and is then read there. -/
theorem Tree.read_renumbered {t : Tree} {source target w : String}
    (h : t.isReadWith (Cut.hasPlaces []) source = true) (hw : isWholeNumeral w.toList = true)
    (hbreaks : '\r' ∉ source.toList)
    (htarget : source.toList.flatMap (putIn w.toList) = target.toList) :
    Tree.read target = .ok (t.retext (numeralSpelling w.toList)) := by
  obtain ⟨c, htext, hplaces, hreads⟩ := Tree.reads_of_isReadWith h
  rw [plainBreaks_of_not_mem hbreaks] at htext
  have hbreaks' : '\r' ∉ target.toList := by
    rw [← htarget]
    intro hmem
    obtain ⟨b, hb, hmem⟩ := List.mem_flatMap.mp hmem
    rw [putIn] at hmem
    split at hmem
    · exact not_mem_whole hw (by decide) rfl hmem
    · exact hbreaks (List.mem_singleton.mp hmem ▸ hb)
  rw [Tree.read, plainBreaks_of_not_mem hbreaks', ← htarget, ← htext, ← Cut.text_respell hplaces]
  exact Reader.read_respell rfl hreads (Cut.respells hw hplaces)

end Spellbook
