import Spellbook.Proofs.JsonNumber
import Spellbook.Proofs.JsonText

/-!
# Written JSON is read back

What was written for a value is read as the value again, but for two things: a float is read as the
float that its digits stand for, and fields of the same name become one. `reread` is the value with
these two changes, and `read_write` says that it is what the reader finds. A number ends where it is
not continued, so a value is followed by a text that stops it; the fuel of the reader is measured
against the length of the text.
-/

namespace Spellbook
namespace JsonValue

mutual

def reread : JsonValue → JsonValue
  | .null => .null
  | .truth b => .truth b
  | .int n => .int n
  | .float x => .float (rereadFloat x)
  | .text s => .text s
  | .list items => .list (rereadItems items)
  | .object fields => .object (rereadFields [] fields)

/-- What the written items of a list are read back as. -/
def rereadItems : List JsonValue → List JsonValue
  | [] => []
  | v :: rest => v.reread :: rereadItems rest

/-- What the written fields of an object are read back as, after those before them. -/
def rereadFields (before : List (String × JsonValue)) :
    List (String × JsonValue) → List (String × JsonValue)
  | [] => before
  | (k, v) :: rest => rereadFields (setField k v.reread before) rest

end

/-- A property of all values, from one that lists and objects have if their entries do. -/
theorem entriesInduction {P : JsonValue → Prop} (null : P .null) (truth : ∀ b, P (.truth b))
    (int : ∀ n, P (.int n)) (float : ∀ x, P (.float x)) (text : ∀ s, P (.text s))
    (list : ∀ items, (∀ v ∈ items, P v) → P (.list items))
    (object : ∀ fields, (∀ f ∈ fields, P f.2) → P (.object fields)) (v : JsonValue) : P v := by
  refine @JsonValue.rec P (fun items => ∀ v ∈ items, P v) (fun fields => ∀ f ∈ fields, P f.2)
    (fun f => P f.2) null truth int float text list object ?_ ?_ ?_ ?_ ?_ v
  · simp
  · exact fun v vs hv hvs => List.forall_mem_cons.mpr ⟨hv, hvs⟩
  · simp
  · exact fun f fs hf hfs => List.forall_mem_cons.mpr ⟨hf, hfs⟩
  · exact fun _ _ hv => hv

/-! ## How values begin -/

/-- Whether a character can be the first of a value: it is no blank and no bracket that closes a
list, and it does not mark the order of bytes. -/
def Opens (c : Char) : Prop := isBlank c = false ∧ c ≠ ']' ∧ c ≠ Char.ofNat 0xfeff

/-- Nothing is skipped before a character that opens a value. -/
theorem skip_of_opens {c : Char} (hc : Opens c) (cs : List Char) : skip (c :: cs) = c :: cs := by
  rw [skip, List.dropWhile_cons_of_neg]
  simp [hc.1]

/-- A simple value opens with a character of its own. -/
theorem opens_of_simple {cs : List Char} {r : JsonValue × List Char} (h : simple cs = .ok r) :
    ∃ c t, cs = c :: t ∧ Opens c := by
  cases cs with
  | nil => cases h
  | cons c t =>
    refine ⟨c, t, rfl, ?_, ?_, ?_⟩
    · rw [Bool.eq_false_iff]
      intro hblank
      simp only [isBlank, Bool.or_eq_true, beq_iff_eq] at hblank
      obtain ((rfl | rfl) | rfl) | rfl := hblank <;> cases h
    · rintro rfl
      cases h
    · rintro rfl
      cases h

/-- A word or a number is not taken for the start of a text, a list or an object. -/
theorem valueFrom_of_simple {cs : List Char} {r : JsonValue × List Char} (h : simple cs = .ok r)
    (fuel : Nat) :
    valueFrom (fuel + 1) cs = .ok r := by
  rw [valueFrom]
  · exact h
  · rintro t rfl
    cases h
  · rintro t rfl
    cases h
  · rintro t rfl
    cases h

/-! ## Written entries -/

def itemsText (items : List JsonValue) : List Char :=
  (String.intercalate ", " (writeItems items)).toList

/-- The written fields of an object. -/
def fieldsText (fields : List (String × JsonValue)) : List Char :=
  (String.intercalate ", " (writeFields fields)).toList

theorem itemsText_singleton (v : JsonValue) : itemsText [v] = v.write.toList := by
  rw [itemsText, writeItems, writeItems, String.intercalate_singleton]

theorem itemsText_cons (v w : JsonValue) (vs : List JsonValue) :
    itemsText (v :: w :: vs) = v.write.toList ++ ',' :: ' ' :: itemsText (w :: vs) := by
  rw [itemsText, writeItems, writeItems, String.intercalate_cons_cons]
  simp [itemsText, writeItems]

theorem fieldsText_singleton (k : String) (v : JsonValue) :
    fieldsText [(k, v)] = (textText k).toList ++ ':' :: ' ' :: v.write.toList := by
  rw [fieldsText, writeFields, writeFields, String.intercalate_singleton]
  simp

theorem fieldsText_cons (k : String) (v : JsonValue) (f : String × JsonValue)
    (fs : List (String × JsonValue)) :
    fieldsText ((k, v) :: f :: fs) =
      (textText k).toList ++ ':' :: ' ' ::
        (v.write.toList ++ ',' :: ' ' :: fieldsText (f :: fs)) := by
  rw [fieldsText, writeFields, writeFields, String.intercalate_cons_cons]
  simp [fieldsText, writeFields]

/-- A list is written as its items between brackets. -/
theorem toList_write_list (items : List JsonValue) :
    (write (.list items)).toList = '[' :: (itemsText items ++ [']']) := by
  simp [write, itemsText]

/-- An object is written as its fields between braces. -/
theorem toList_write_object (fields : List (String × JsonValue)) :
    (write (.object fields)).toList = '\x7b' :: (fieldsText fields ++ ['\x7d']) := by
  simp [write, fieldsText]

theorem toList_textText (s : String) :
    (textText s).toList = '"' :: (s.toList.flatMap escapedChar ++ ['"']) := by
  simp [textText]

theorem simple_null (rest : List Char) :
    simple ((write .null).toList ++ rest) = .ok (.null, rest) :=
  simple_word (w := "null") (by rw [words]; simp) rest

/-- A truth is read back, whatever follows it. -/
theorem simple_truth (b : Bool) (rest : List Char) :
    simple ((write (.truth b)).toList ++ rest) = .ok (.truth b, rest) := by
  cases b with
  | true => exact simple_word (w := "true") (by rw [words]; simp) rest
  | false => exact simple_word (w := "false") (by rw [words]; simp) rest

theorem stops_nil : Stops [] := by simp [Stops]

/-- How a written value begins. -/
theorem opens_write (v : JsonValue) : ∃ c t, v.write.toList = c :: t ∧ Opens c := by
  have hsimple {r : JsonValue × List Char} (h : simple (v.write.toList ++ []) = .ok r) :
      ∃ c t, v.write.toList = c :: t ∧ Opens c :=
        opens_of_simple (List.append_nil v.write.toList ▸ h)
  cases v with
  | null => exact hsimple (simple_null [])
  | truth b => exact hsimple (simple_truth b [])
  | int n => exact hsimple (simple_intNumeral n stops_nil)
  | float x => exact hsimple (simple_floatNumeral x stops_nil)
  | text s => exact ⟨_, _, toList_textText s, rfl, by decide, by decide⟩
  | list items => exact ⟨_, _, toList_write_list items, rfl, by decide, by decide⟩
  | object fields => exact ⟨_, _, toList_write_object fields, rfl, by decide, by decide⟩

/-- The items of a list open with the character of the first. -/
theorem opens_itemsText (v : JsonValue) (vs : List JsonValue) :
    ∃ c t, itemsText (v :: vs) = c :: t ∧ Opens c := by
  obtain ⟨c, t, hv, hc⟩ := opens_write v
  cases vs with
  | nil => exact ⟨c, t, by rw [itemsText_singleton, hv], hc⟩
  | cons w vs => exact ⟨c, _, by rw [itemsText_cons, hv, List.cons_append], hc⟩

/-- The blank before a value is skipped and no more. -/
theorem skip_write (v : JsonValue) (rest : List Char) :
    skip (' ' :: (v.write.toList ++ rest)) = v.write.toList ++ rest := by
  obtain ⟨c, t, hv, hc⟩ := opens_write v
  rw [hv, List.cons_append]
  exact skip_of_opens hc _

theorem skip_itemsText (v : JsonValue) (vs : List JsonValue) (rest : List Char) :
    skip (' ' :: (itemsText (v :: vs) ++ rest)) = itemsText (v :: vs) ++ rest := by
  obtain ⟨c, t, hv, hc⟩ := opens_itemsText v vs
  rw [hv, List.cons_append]
  exact skip_of_opens hc _

/-- The fields of an object open with the quote of the first name. -/
theorem quote_fieldsText (k : String) (v : JsonValue) (fs : List (String × JsonValue)) :
    ∃ t, fieldsText ((k, v) :: fs) = '"' :: t := by
  cases fs with
  | nil => exact ⟨_, by rw [fieldsText_singleton, toList_textText, List.cons_append]⟩
  | cons f fs => exact ⟨_, by rw [fieldsText_cons, toList_textText, List.cons_append]⟩

theorem skip_fieldsText (k : String) (v : JsonValue) (fs : List (String × JsonValue))
    (rest : List Char) :
    skip (' ' :: (fieldsText ((k, v) :: fs) ++ rest)) = fieldsText ((k, v) :: fs) ++ rest := by
  obtain ⟨t, ht⟩ := quote_fieldsText k v fs
  rw [ht]
  rfl

/-! ## Lengths -/

/-- Each item is no longer than the text of all. -/
theorem length_write_le_items (v : JsonValue) (vs : List JsonValue) :
    v.write.toList.length ≤ (itemsText (v :: vs)).length := by
  cases vs with
  | nil => rw [itemsText_singleton]
  | cons w ws =>
    rw [itemsText_cons, List.length_append]
    exact Nat.le_add_right _ _

/-- The text of the items gets shorter with each item that is read. -/
theorem length_items_lt (v w : JsonValue) (ws : List JsonValue) :
    (itemsText (w :: ws)).length < (itemsText (v :: w :: ws)).length := by
  rw [itemsText_cons, List.length_append, List.length_cons, List.length_cons]
  omega

theorem length_write_le_fields (k : String) (v : JsonValue) (fs : List (String × JsonValue)) :
    v.write.toList.length ≤ (fieldsText ((k, v) :: fs)).length := by
  cases fs with
  | nil =>
    rw [fieldsText_singleton, List.length_append, List.length_cons, List.length_cons]
    generalize v.write.toList.length = n
    omega
  | cons f fs =>
    rw [fieldsText_cons, List.length_append, List.length_cons, List.length_cons, List.length_append]
    generalize v.write.toList.length = n
    omega

/-- The text of the fields gets shorter with each field that is read. -/
theorem length_fields_lt (k : String) (v : JsonValue) (f : String × JsonValue)
    (fs : List (String × JsonValue)) :
    (fieldsText (f :: fs)).length < (fieldsText ((k, v) :: f :: fs)).length := by
  rw [fieldsText_cons, List.length_append, List.length_cons, List.length_cons, List.length_append,
    List.length_cons, List.length_cons]
  generalize (fieldsText (f :: fs)).length = n
  omega

/-! ## One entry -/

section
variable {fuel : Nat} {before fields : List (String × JsonValue)} {k : String} {v : JsonValue}
  {vs : List JsonValue} {cs after rest : List Char}

/-- A bracket and items that are read make a list. -/
theorem valueFrom_list {c : Char} (hc : Opens c) (h : itemsFrom fuel (c :: cs) = .ok (vs, rest)) :
    valueFrom (fuel + 1) ('[' :: c :: cs) = .ok (.list vs, rest) := by
  rw [valueFrom, skip_of_opens hc]
  split
  · next hclose => exact absurd (List.cons.inj hclose).1 hc.2.1
  · rw [h]
    rfl

/-- A brace and fields that are read make an object. -/
theorem valueFrom_object (h : fieldsFrom fuel [] ('"' :: cs) = .ok (fields, rest)) :
    valueFrom (fuel + 1) ('\x7b' :: '"' :: cs) = .ok (.object fields, rest) := by
  rw [valueFrom, skip_of_opens ⟨rfl, by decide, by decide⟩]
  split
  · next hclose => exact absurd (List.cons.inj hclose).1 (by decide)
  · rw [h]
    rfl

/-- An item before the closing bracket is the last. -/
theorem itemsFrom_last (h : valueFrom fuel cs = .ok (v, ']' :: rest)) :
    itemsFrom (fuel + 1) cs = .ok ([v], rest) := by
  rw [itemsFrom, h]
  rfl

/-- An item before a comma is followed by others. -/
theorem itemsFrom_more (h : valueFrom fuel cs = .ok (v, ',' :: after))
    (hmore : itemsFrom fuel (skip after) = .ok (vs, rest)) :
    itemsFrom (fuel + 1) cs = .ok (v :: vs, rest) := by
  rw [itemsFrom, h]
  have hcomma : skip (',' :: after) = ',' :: after := rfl
  simp only [bind, Except.bind, hcomma, hmore]

/-- A field before the closing brace is the last. -/
theorem fieldsFrom_last (hname : quotedText ('"' :: cs) = .ok (k, ':' :: after))
    (h : valueFrom fuel (skip after) = .ok (v, '\x7d' :: rest)) :
    fieldsFrom (fuel + 1) before ('"' :: cs) = .ok (setField k v before, rest) := by
  have hcolon : skip (':' :: after) = ':' :: after := rfl
  have hclose : skip ('\x7d' :: rest) = '\x7d' :: rest := rfl
  rw [fieldsFrom, hname]
  simp only [bind, Except.bind, hcolon, h, hclose]

/-- A field before a comma is set before the others are read. -/
theorem fieldsFrom_more {more : List Char} (hname : quotedText ('"' :: cs) = .ok (k, ':' :: after))
    (h : valueFrom fuel (skip after) = .ok (v, ',' :: more))
    (hmore : fieldsFrom fuel (setField k v before) (skip more) = .ok (fields, rest)) :
    fieldsFrom (fuel + 1) before ('"' :: cs) = .ok (fields, rest) := by
  have hcolon : skip (':' :: after) = ':' :: after := rfl
  have hcomma : skip (',' :: more) = ',' :: more := rfl
  rw [fieldsFrom, hname]
  simp only [bind, Except.bind, hcolon, h, hcomma, hmore]
end

/-- A text that is written in quotes is read back, whatever follows it. -/
theorem quotedText_quote (s : String) (rest : List Char) :
    ∃ cs, (textText s).toList ++ rest = '"' :: cs ∧ quotedText ('"' :: cs) = .ok (s, rest) := by
  refine ⟨s.toList.flatMap escapedChar ++ '"' :: rest, by simp [toList_textText], ?_⟩
  have hread := quotedText_textText s rest
  rwa [toList_textText, List.cons_append, List.append_assoc, List.singleton_append] at hread

/-- A written text is read back as a value with one unit of fuel. -/
theorem valueFrom_text (s : String) (fuel : Nat) (rest : List Char) :
    valueFrom (fuel + 1) ((textText s).toList ++ rest) = .ok (.text s, rest) := by
  obtain ⟨cs, hcs, hread⟩ := quotedText_quote s rest
  rw [hcs, valueFrom, hread]
  rfl

/-! ## Reading them back -/

theorem stops_cons {c : Char} (hc : isDigit c = false ∧ c ≠ '.' ∧ (c == 'e' || c == 'E') = false)
    (rest : List Char) :
    Stops (c :: rest) := by
  rintro _ ⟨⟩
  exact hc

/-- A value needs as much fuel as its text has characters. -/
def ReadsBack (v : JsonValue) : Prop :=
  ∀ fuel rest, v.write.toList.length ≤ fuel → Stops rest →
    valueFrom fuel (v.write.toList ++ rest) = .ok (v.reread, rest)

/-- The items of a list need one more than their text has characters, which is there for the bracket
before them. -/
theorem itemsFrom_write {v : JsonValue} {vs : List JsonValue}
    (h : ∀ w ∈ v :: vs, w.ReadsBack) {fuel : Nat} (hfuel : (itemsText (v :: vs)).length < fuel)
    (rest : List Char) :
    itemsFrom fuel (itemsText (v :: vs) ++ ']' :: rest) = .ok (rereadItems (v :: vs), rest) := by
  induction vs generalizing v fuel with
  | nil =>
    obtain ⟨fuel, rfl⟩ := Nat.exists_eq_add_one_of_ne_zero (Nat.ne_zero_of_lt hfuel)
    rw [itemsText_singleton] at hfuel ⊢
    exact itemsFrom_last
      (h v (by simp) fuel _ (Nat.le_of_lt_succ hfuel) (stops_cons (by decide) rest))
  | cons w ws ih =>
    obtain ⟨fuel, rfl⟩ := Nat.exists_eq_add_one_of_ne_zero (Nat.ne_zero_of_lt hfuel)
    have hvalue := h v (by simp) fuel (',' :: ' ' :: (itemsText (w :: ws) ++ ']' :: rest))
      ((length_write_le_items v _).trans (Nat.le_of_lt_succ hfuel)) (stops_cons (by decide) _)
    have hmore := ih (fun u hu => h u (List.mem_cons_of_mem _ hu))
      ((length_items_lt v w ws).trans_le (Nat.le_of_lt_succ hfuel))
    rw [← skip_itemsText] at hmore
    rw [itemsText_cons, List.append_assoc, List.cons_append, List.cons_append]
    exact itemsFrom_more hvalue hmore

/-- The fields of an object are read back one by one if their values are, by induction on the
fields. -/
theorem fieldsFrom_write {k : String} {v : JsonValue} {fs : List (String × JsonValue)}
    (h : ∀ f ∈ (k, v) :: fs, f.2.ReadsBack) (before : List (String × JsonValue)) {fuel : Nat}
    (hfuel : (fieldsText ((k, v) :: fs)).length < fuel) (rest : List Char) :
    fieldsFrom fuel before (fieldsText ((k, v) :: fs) ++ '\x7d' :: rest) =
      .ok (rereadFields before ((k, v) :: fs), rest) := by
  induction fs generalizing k v before fuel with
  | nil =>
    obtain ⟨fuel, rfl⟩ := Nat.exists_eq_add_one_of_ne_zero (Nat.ne_zero_of_lt hfuel)
    have hvalue := h (k, v) (by simp) fuel ('\x7d' :: rest)
      ((length_write_le_fields k v []).trans (Nat.le_of_lt_succ hfuel))
        (stops_cons (by decide) rest)
    obtain ⟨cs, hcs, hname⟩ := quotedText_quote k (':' :: ' ' :: (v.write.toList ++ '\x7d' :: rest))
    rw [← skip_write] at hvalue
    rw [fieldsText_singleton, List.append_assoc, List.cons_append, List.cons_append, hcs,
      rereadFields, rereadFields]
    exact fieldsFrom_last hname hvalue
  | cons f fs ih =>
    obtain ⟨l, w⟩ := f
    obtain ⟨fuel, rfl⟩ := Nat.exists_eq_add_one_of_ne_zero (Nat.ne_zero_of_lt hfuel)
    have hvalue :=
      h (k, v) (by simp) fuel (',' :: ' ' :: (fieldsText ((l, w) :: fs) ++ '\x7d' :: rest))
      ((length_write_le_fields k v _).trans (Nat.le_of_lt_succ hfuel)) (stops_cons (by decide) _)
    have hmore := ih (fun u hu => h u (List.mem_cons_of_mem _ hu)) (setField k v.reread before)
      ((length_fields_lt k v (l, w) fs).trans_le (Nat.le_of_lt_succ hfuel))
    obtain ⟨cs, hcs, hname⟩ :=
      quotedText_quote k
        (':' :: ' ' ::
          (v.write.toList ++ ',' :: ' ' :: (fieldsText ((l, w) :: fs) ++ '\x7d' :: rest)))
    rw [← skip_write] at hvalue
    rw [← skip_fieldsText] at hmore
    rw [fieldsText_cons, List.append_assoc, List.cons_append, List.cons_append, List.append_assoc,
      List.cons_append, List.cons_append, hcs, rereadFields]
    exact fieldsFrom_more hname hvalue hmore

/-- Fuel for a character at least is enough, since no value is written with none. -/
theorem readsBack_of_succ {v : JsonValue}
    (h : ∀ fuel rest, v.write.toList.length ≤ fuel + 1 → Stops rest →
    valueFrom (fuel + 1) (v.write.toList ++ rest) = .ok (v.reread, rest)) : v.ReadsBack := by
  intro fuel rest hfuel hrest
  obtain ⟨c, t, hv, -⟩ := opens_write v
  have hpos : 0 < v.write.toList.length := hv ▸ List.length_pos_of_mem List.mem_cons_self
  obtain ⟨fuel, rfl⟩ := Nat.exists_eq_add_one_of_ne_zero (hpos.trans_le hfuel).ne'
  exact h fuel rest hfuel hrest

/-- A list is read back if its items are. -/
theorem readsBack_list {items : List JsonValue} (h : ∀ v ∈ items, v.ReadsBack) :
    (JsonValue.list items).ReadsBack := by
  refine readsBack_of_succ fun fuel rest hfuel _ => ?_
  cases items with
  | nil => rfl
  | cons v vs =>
    rw [toList_write_list, List.length_cons, List.length_append, List.length_singleton] at hfuel
    have hread := itemsFrom_write h (Nat.le_of_succ_le_succ hfuel) rest
    obtain ⟨c, t, hc, hopens⟩ := opens_itemsText v vs
    rw [toList_write_list, List.cons_append, List.append_assoc, List.singleton_append]
    rw [hc] at hread ⊢
    exact valueFrom_list hopens hread

/-- An object is read back if the values of its fields are. -/
theorem readsBack_object {fields : List (String × JsonValue)} (h : ∀ f ∈ fields, f.2.ReadsBack) :
    (JsonValue.object fields).ReadsBack := by
  refine readsBack_of_succ fun fuel rest hfuel _ => ?_
  cases fields with
  | nil => rfl
  | cons f fs =>
    obtain ⟨k, v⟩ := f
    rw [toList_write_object, List.length_cons, List.length_append, List.length_singleton] at hfuel
    have hread := fieldsFrom_write h [] (Nat.le_of_succ_le_succ hfuel) rest
    obtain ⟨t, ht⟩ := quote_fieldsText k v fs
    rw [toList_write_object, List.cons_append, List.append_assoc, List.singleton_append]
    rw [ht] at hread ⊢
    exact valueFrom_object hread

/-- Every value is read back, by induction on the value. -/
theorem readsBack (v : JsonValue) : v.ReadsBack := by
  induction v using entriesInduction with
  | null => exact readsBack_of_succ fun fuel rest _ _ => valueFrom_of_simple (simple_null rest) fuel
  | truth b =>
    exact readsBack_of_succ fun fuel rest _ _ => valueFrom_of_simple (simple_truth b rest) fuel
  | int n =>
    exact readsBack_of_succ fun fuel _ _ hrest =>
      valueFrom_of_simple (simple_intNumeral n hrest) fuel
  | float x =>
    exact readsBack_of_succ fun fuel _ _ hrest =>
      valueFrom_of_simple (simple_floatNumeral x hrest) fuel
  | text s => exact readsBack_of_succ fun fuel rest _ _ => valueFrom_text s fuel rest
  | list items ih => exact readsBack_list ih
  | object fields ih => exact readsBack_object ih

/-- A written value is read as the value that it is read back as. -/
theorem read_write (v : JsonValue) : read v.write = .ok v.reread := by
  obtain ⟨c, t, hv, hopens⟩ := opens_write v
  have hvalue := v.readsBack _ [] (Nat.le_succ v.write.toList.length) stops_nil
  rw [List.append_nil] at hvalue
  have hskip : skip v.write.toList = v.write.toList := by rw [hv, skip_of_opens hopens]
  have hmark : v.write.toList.head? ≠ some (Char.ofNat 0xfeff) := by
    rw [hv, List.head?_cons]
    exact fun h => hopens.2.2 (Option.some.inj h)
  rw [read, readChars, if_neg hmark, hskip, hvalue]
  rfl

/-! ## Fields that are read back -/

/-- Setting fields with new names puts them behind the others. -/
theorem setField_of_not_mem {name : String} {fields : List (String × JsonValue)}
    (h : name ∉ fields.map Prod.fst) (v : JsonValue) :
    setField name v fields = fields ++ [(name, v)] := by
  induction fields with
  | nil => rfl
  | cons f fs ih =>
    obtain ⟨k, w⟩ := f
    rw [List.map_cons, List.mem_cons, not_or] at h
    rw [setField, if_neg (Ne.symm h.1), ih h.2, List.cons_append]

/-- Fields of different names are read again in their order. -/
theorem rereadFields_of_nodup {before fields : List (String × JsonValue)}
    (h : (before.map Prod.fst ++ fields.map Prod.fst).Nodup) :
    rereadFields before fields = before ++ fields.map fun f => (f.1, f.2.reread) := by
  induction fields generalizing before with
  | nil => simp [rereadFields]
  | cons f fs ih =>
    obtain ⟨k, v⟩ := f
    have hnew : k ∉ before.map Prod.fst := by
      intro hmem
      exact (List.nodup_append.mp h).2.2 k hmem k (by simp) rfl
    rw [rereadFields, setField_of_not_mem hnew, ih (by simpa using h)]
    simp

theorem lookup_map (name : String) (fields : List (String × JsonValue))
    (g : JsonValue → JsonValue) :
    lookup name (fields.map fun f => (f.1, g f.2)) = (lookup name fields).map g := by
  induction fields with
  | nil => rfl
  | cons f fs ih =>
    obtain ⟨k, v⟩ := f
    rw [List.map_cons, lookup, lookup, ih]
    split <;> rfl

/-- The fields of an object are found again if it has one of each name. -/
theorem get?_reread {v : JsonValue} (h : (v.fields.map Prod.fst).Nodup) (name : String) :
    v.reread.get? name = (v.get? name).map reread := by
  cases v with
  | object fs =>
    have hfields : rereadFields [] fs = fs.map fun f => (f.1, f.2.reread) := rereadFields_of_nodup h
    rw [get?, reread, fields, hfields, lookup_map]
    rfl
  | _ => rfl

/-! ## One line -/

theorem newline_not_mem_digits {ds : List Char} (h : ∀ c ∈ ds, isDigit c = true) : '\n' ∉ ds :=
  fun hmem => absurd (h _ hmem) (by decide)

theorem newline_not_mem_sign (negative : Bool) : '\n' ∉ (signText negative).toList := by
  cases negative <;> decide

/-- No numeral has a line break. -/
theorem newline_not_mem_intNumeral (n : ℤ) : '\n' ∉ (intNumeral n).toList := by
  rw [intNumeral, String.toList_append, Decimal.toList_natText, List.mem_append, not_or]
  exact ⟨newline_not_mem_sign _, newline_not_mem_digits (isWhole_toDigits _).1⟩

theorem IsFloatNumeral.newline_not_mem {cs : List Char} (h : IsFloatNumeral cs) : '\n' ∉ cs := by
  obtain ⟨w, f, p, rfl, hw, hf, hp, -⟩ := h
  rw [List.mem_append, List.mem_append, not_or, not_or]
  refine ⟨⟨newline_not_mem_digits hw.1, ?_⟩, ?_⟩
  · obtain rfl | ⟨d, ds, rfl, hds⟩ := hf
    · simp
    · rw [List.mem_cons, not_or]
      exact ⟨by decide, newline_not_mem_digits hds⟩
  · obtain rfl | ⟨s, d, ds, rfl, hs, hds⟩ := hp
    · simp
    · rw [List.mem_cons, List.mem_cons, not_or, not_or]
      refine ⟨by decide, ?_, newline_not_mem_digits hds⟩
      rcases hs with rfl | rfl <;> decide

theorem newline_not_mem_floatNumeral (x : Float) : '\n' ∉ (floatNumeral x).toList := by
  rw [floatNumeral]
  cases hx : FloatView.of x with
  | nan => exact (by decide : '\n' ∉ "NaN".toList)
  | infinite negative =>
    have hword : '\n' ∉ (signText negative ++ "Infinity").toList := by cases negative <;> decide
    exact hword
  | finite d =>
    have htext : floatText x = signText d.negative ++ unsignedText d := by rw [floatText, hx]; rfl
    dsimp only
    rw [htext, String.toList_append, List.mem_append, not_or]
    exact ⟨newline_not_mem_sign _, (isFloatNumeral_unsignedText d).newline_not_mem⟩

theorem newline_not_mem_unitEscape (n : Nat) : '\n' ∉ unitEscape n := by
  have hdigit (k : Nat) : '\n' ≠ Text.hexDigit (k % 16) :=
    (by decide : ∀ k < 16, '\n' ≠ Text.hexDigit k) (k % 16) (Nat.mod_lt _ (by decide))
  rw [unitEscape, hexText_four]
  simp [hdigit]

/-- No character is escaped to a line break. -/
theorem newline_not_mem_escapedChar (c : Char) : '\n' ∉ escapedChar c := by
  unfold escapedChar
  refine iteInduction (motive := ('\n' ∉ ·)) (fun _ => by decide) fun _ => ?_
  refine iteInduction (motive := ('\n' ∉ ·)) (fun _ => by decide) fun _ => ?_
  refine iteInduction (motive := ('\n' ∉ ·)) (fun _ => by decide) fun hnewline => ?_
  refine iteInduction (motive := ('\n' ∉ ·)) (fun _ => by decide) fun _ => ?_
  refine iteInduction (motive := ('\n' ∉ ·)) (fun _ => by decide) fun _ => ?_
  refine iteInduction (motive := ('\n' ∉ ·)) (fun _ => by decide) fun _ => ?_
  refine iteInduction (motive := ('\n' ∉ ·)) (fun _ => by decide) fun _ => ?_
  refine iteInduction (motive := ('\n' ∉ ·)) (fun _ => ?_) fun _ =>
    iteInduction (motive := ('\n' ∉ ·)) (fun _ => newline_not_mem_unitEscape _) fun _ => ?_
  · exact fun hmem => hnewline (List.mem_singleton.mp hmem).symm
  · show '\n' ∉ unitEscape _ ++ unitEscape _
    rw [List.mem_append, not_or]
    exact ⟨newline_not_mem_unitEscape _, newline_not_mem_unitEscape _⟩

/-- A written text has no line break. -/
theorem newline_not_mem_textText (s : String) : '\n' ∉ (textText s).toList := by
  rw [toList_textText]
  simp [newline_not_mem_escapedChar]

/-- A value is written on one line. -/
theorem newline_not_mem_write (v : JsonValue) : '\n' ∉ v.write.toList := by
  induction v using entriesInduction with
  | null => decide
  | truth b => cases b <;> decide
  | int n => exact newline_not_mem_intNumeral n
  | float x => exact newline_not_mem_floatNumeral x
  | text s => exact newline_not_mem_textText s
  | list items ih =>
    have hitems : '\n' ∉ itemsText items := by
      induction items with
      | nil => simp [itemsText, writeItems]
      | cons v vs hvs =>
        have hv := ih v (by simp)
        have hrest := hvs fun w hw => ih w (by simp [hw])
        cases vs with
        | nil => rwa [itemsText_singleton]
        | cons w ws => simp [itemsText_cons, hv, hrest]
    simp [toList_write_list, hitems]
  | object fields ih =>
    have hfields : '\n' ∉ fieldsText fields := by
      induction fields with
      | nil => simp [fieldsText, writeFields]
      | cons f fs hfs =>
        obtain ⟨k, v⟩ := f
        have hv := ih (k, v) (by simp)
        have hrest := hfs fun g hg => ih g (by simp [hg])
        cases fs with
        | nil => simp [fieldsText_singleton, newline_not_mem_textText, hv]
        | cons g gs => simp [fieldsText_cons, newline_not_mem_textText, hv, hrest]
    simp [toList_write_object, hfields]

end JsonValue
end Spellbook
