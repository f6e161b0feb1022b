import Mathlib.Data.List.Forall2
import Mathlib.Data.List.Nodup
import Spellbook.Bench.Fingerprint

/-!
# Fingerprints do not show the order of iteration

Dictionaries and sets may be walked in any order. Two values are alike if they are equal up to such
orders, at any depth, and alike values have the same fingerprint as long as no dictionary has two
keys with one fingerprint: entries with the same key would keep the order in which they came. At the
greatest depth even this does not matter, since all entries look the same there. Nothing of this
depends on how a walk is written down (`Style`).
-/

namespace Spellbook
namespace Sample

/-- Values that are equal up to the order of entries in dictionaries and of elements in sets, at any
depth. -/
inductive Alike : Sample → Sample → Prop where
  | refl (v : Sample) : Alike v v
  | list {xs ys : List Sample} (h : List.Forall₂ Alike xs ys) : Alike (.list xs) (.list ys)
  | tuple {xs ys : List Sample} (h : List.Forall₂ Alike xs ys) : Alike (.tuple xs) (.tuple ys)
  | set {xs ys zs : List Sample} (h : List.Forall₂ Alike xs ys) (horder : ys.Perm zs) :
      Alike (.set xs) (.set zs)
  | frozenSet {xs ys zs : List Sample} (h : List.Forall₂ Alike xs ys) (horder : ys.Perm zs) :
    Alike (.frozenSet xs) (.frozenSet zs)
  | dict {es fs gs : List (Sample × Sample)}
      (hkeys : List.Forall₂ Alike (es.map Prod.fst) (fs.map Prod.fst))
    (hvalues : List.Forall₂ Alike (es.map Prod.snd) (fs.map Prod.snd)) (horder : fs.Perm gs) :
    Alike (.dict es) (.dict gs)
  | record {es fs : List (String × Sample)} (hnames : es.map Prod.fst = fs.map Prod.fst)
    (hvalues : List.Forall₂ Alike (es.map Prod.snd) (fs.map Prod.snd)) : Alike
      (.record es) (.record fs)

section
variable (style : Style)

/-- The values that a walk goes on to from a value. -/
def parts : Sample → List Sample
  | .list items => pick (style.places items.length) items
  | .tuple items => pick (style.places items.length) items
  | .set items => items
  | .frozenSet items => items
  | .dict entries => entries.map Prod.fst ++ entries.map Prod.snd
  | .record fields => fields.map Prod.snd
  | _ => []

/-- The depth of the parts of a value that stands at a depth. -/
def partDepth (d : Nat) : Sample → Nat
  | .record _ => d + 1 + style.recordGap
  | _ => d + 1

/-- A walk of a value at a depth comes to another value at a depth. -/
inductive Walked : Nat → Sample → Nat → Sample → Prop where
  | here {d : Nat} {v : Sample} (h : d ≤ depthLimit) : Walked d v d v
  | part {d d' : Nat} {v u w : Sample} (h : d ≤ depthLimit) (hu : u ∈ v.parts style)
    (hw : Walked (v.partDepth style d) u d' w) : Walked d v d' w

/-- No dictionary that a walk comes to has two keys with one fingerprint, those at the greatest
depth excepted. -/
def KeysApart (d : Nat) (v : Sample) : Prop :=
  ∀ (d' : Nat) (entries : List (Sample × Sample)), Walked style d v d' (.dict entries) →
    d' < depthLimit → (entries.map fun e => e.1.fingerprintAt style (d' + 1)).Nodup

end

section
variable {style : Style}

/-- Keys that are apart in a sample are apart in its parts. -/
theorem KeysApart.part {d : Nat} {v u : Sample} (h : KeysApart style d v) (hd : d ≤ depthLimit)
    (hu : u ∈ v.parts style) : KeysApart style (v.partDepth style d) u :=
  fun d' entries hw hd' => h d' entries (.part hd hu hw) hd'

/-! ## Sorting -/

/-- Sorting by a key does not depend on the order before, if the key tells the items apart. -/
theorem mergeSort_eq_of_perm {α : Type} (key : α → String) {xs ys : List α} (h : xs.Perm ys)
    (hkey : ∀ x ∈ xs, ∀ y ∈ xs, key x = key y → x = y) :
    (xs.mergeSort fun a b => !(decide (key b < key a))) = ys.mergeSort fun a b =>
      !(decide (key b < key a)) := by
  have hle (a b : α) : (!(decide (key b < key a))) = true ↔ key a ≤ key b := by
    rw [Bool.not_eq_true', decide_eq_false_iff_not, String.not_lt]
  have htrans (a b c : α) (hab : (!(decide (key b < key a))) = true)
      (hbc : (!(decide (key c < key b))) = true) : (!(decide (key c < key a))) = true :=
    (hle a c).mpr (String.le_trans ((hle a b).mp hab) ((hle b c).mp hbc))
  have htotal (a b : α) : ((!(decide (key b < key a))) || (!(decide (key a < key b)))) = true := by
    rw [Bool.or_eq_true, hle, hle]
    exact String.le_total _ _
  refine List.Perm.eq_of_pairwise ?_ (List.pairwise_mergeSort htrans htotal xs)
    (List.pairwise_mergeSort htrans htotal ys) ?_
  · intro x y hx hy hxy hyx
    have hx' : x ∈ xs := (List.mergeSort_perm _ _).mem_iff.mp hx
    have hy' : y ∈ xs := h.mem_iff.mpr ((List.mergeSort_perm _ _).mem_iff.mp hy)
    exact hkey x hx' y hy' (String.le_antisymm ((hle x y).mp hxy) ((hle y x).mp hyx))
  · exact (List.mergeSort_perm _ _).trans (h.trans (List.mergeSort_perm _ _).symm)

/-- Texts are sorted the same in any order. -/
theorem sorted_eq_of_perm {xs ys : List String} (h : xs.Perm ys) : sorted xs = sorted ys :=
  mergeSort_eq_of_perm (fun s => s) h fun _ _ _ _ hxy => hxy

/-- Entries with different keys are put in the same order from any order. -/
theorem inKeyOrder_eq_of_perm {α : Type} {es fs : List (String × α)} (h : es.Perm fs)
    (hkeys : ∀ e ∈ es, ∀ f ∈ es, e.1 = f.1 → e = f) : inKeyOrder es = inKeyOrder fs :=
  mergeSort_eq_of_perm Prod.fst h hkeys

/-! ## Walks of parts -/

theorem pick_map {α β : Type} (places : List Nat) (f : α → β) (items : List α) :
    pick places (items.map f) = (pick places items).map f := by
  rw [pick, pick, List.map_filterMap]
  exact List.filterMap_congr fun i _ => List.getElem?_map ..

/-- Lists that are related item by item are so at the places that are picked. -/
theorem forall₂_pick {α : Type} {R : α → α → Prop} {xs ys : List α} (h : List.Forall₂ R xs ys)
    (places : List Nat) :
    List.Forall₂ R (pick places xs) (pick places ys) := by
  induction places with
  | nil => exact .nil
  | cons i places ih =>
    rw [pick, pick, List.filterMap_cons, List.filterMap_cons]
    rcases Nat.lt_or_ge i xs.length with hlt | hge
    · have hlt' : i < ys.length := h.length_eq ▸ hlt
      rw [List.getElem?_eq_getElem hlt, List.getElem?_eq_getElem hlt']
      exact .cons (h.get hlt hlt') ih
    · rw [List.getElem?_eq_none hge, List.getElem?_eq_none (h.length_eq ▸ hge)]
      exact ih

/-- The items of a list are walked one by one. -/
theorem walks_eq_map (d : Nat) (items : List Sample) :
    walks style d items = items.map (walk style d) := by
  induction items with
  | nil => rfl
  | cons v rest ih => exact congrArg (walk style d v :: ·) ih

/-- What a walk writes for an entry, with the fingerprint of its key. -/
def entryWalk (style : Style) (key value : List UInt8) : String × List UInt8 × List UInt8 :=
  (style.digest key, key, value)

theorem entryWalks_eq_map (d : Nat) (entries : List (Sample × Sample)) :
    entryWalks style d entries =
    entries.map fun e => entryWalk style (walk style d e.1) (walk style d e.2) := by
  induction entries with
  | nil => rfl
  | cons e rest ih => exact congrArg (entryWalk style (walk style d e.1) (walk style d e.2) :: ·) ih

/-- The entries of a mapping are walked key by key and value by value. -/
theorem entryWalks_eq_zip (d : Nat) (entries : List (Sample × Sample)) :
    entryWalks style d entries =
    List.zipWith (entryWalk style) ((entries.map Prod.fst).map (walk style d))
      ((entries.map Prod.snd).map (walk style d)) := by
  rw [entryWalks_eq_map, List.map_map, List.map_map, List.zipWith_map, List.zipWith_self]
  rfl

theorem fieldWalks_eq_map (d : Nat) (fields : List (String × Sample)) :
    fieldWalks style d fields = (fields.map Prod.snd).map (walk style d) := by
  induction fields with
  | nil => rfl
  | cons f rest ih => exact congrArg (walk style d f.2 :: ·) ih

/-- Beyond the depth limit every sample is walked to the cap. -/
theorem walk_of_lt {d : Nat} (h : depthLimit < d) (v : Sample) : v.walk style d = style.cap := by
  cases v <;> exact if_pos h

/-- Lists of samples that are alike are walked to the same if their items are. -/
theorem map_walk_eq {d : Nat} {xs ys : List Sample} (h : List.Forall₂ Alike xs ys)
    (hwalk : ∀ x ∈ xs, ∀ y, Alike x y → x.walk style d = y.walk style d) :
    xs.map (walk style d) = ys.map (walk style d) := by
  induction h with
  | nil => rfl
  | cons hxy _ ih =>
    rw [List.map_cons, List.map_cons, hwalk _ (by simp) _ hxy, ih fun x hx =>
      hwalk x (by simp [hx])]

section
variable {d : Nat} (hd : d ≤ depthLimit)
include hd

theorem walk_list (items : List Sample) : walk style d (.list items) =
    style.sequence false items.length
      ((pick (style.places items.length) items).map (walk style (d + 1))) := by
  rw [← pick_map, ← walks_eq_map]
  exact if_neg (Nat.not_lt.mpr hd)

theorem walk_tuple (items : List Sample) : walk style d (.tuple items) =
    style.sequence true items.length
      ((pick (style.places items.length) items).map (walk style (d + 1))) := by
  rw [← pick_map, ← walks_eq_map]
  exact if_neg (Nat.not_lt.mpr hd)

/-- A set is walked to the sorted digests of its items. -/
theorem walk_set (items : List Sample) : walk style d (.set items) =
    style.collection false items.length
      (sorted ((items.map (walk style (d + 1))).map style.digest)) := by
  rw [← walks_eq_map]
  exact if_neg (Nat.not_lt.mpr hd)

theorem walk_frozenSet (items : List Sample) : walk style d (.frozenSet items) =
    style.collection true items.length
      (sorted ((items.map (walk style (d + 1))).map style.digest)) := by
  rw [← walks_eq_map]
  exact if_neg (Nat.not_lt.mpr hd)

/-- A mapping is walked to its entries in the order of their keys. -/
theorem walk_dict (entries : List (Sample × Sample)) : walk style d (.dict entries) =
    style.mapping ((inKeyOrder (entryWalks style (d + 1) entries)).map (·.2)) :=
  if_neg (Nat.not_lt.mpr hd)

theorem walk_record (fields : List (String × Sample)) : walk style d (.record fields) =
    style.record (fields.map Prod.fst)
    ((fields.map Prod.snd).map (walk style (d + 1 + style.recordGap))) := by
  rw [← fieldWalks_eq_map]
  exact if_neg (Nat.not_lt.mpr hd)

/-! ## Alike values -/

/-- The fingerprints of keys tell the entries of a dictionary apart, or all entries look the
same. -/
theorem entryWalks_injOn {entries : List (Sample × Sample)}
    (hkeys : KeysApart style d (.dict entries)) :
    ∀ e ∈ entryWalks style (d + 1) entries, ∀ f ∈ entryWalks style (d + 1) entries, e.1 =
      f.1 → e = f := by
  rcases Nat.lt_or_ge d depthLimit with hlt | hge
  · have hnodup : ((entryWalks style (d + 1) entries).map Prod.fst).Nodup := by
      rw [entryWalks_eq_map, List.map_map]
      exact hkeys d entries (.here hd) hlt
    exact fun e he f hf => List.inj_on_of_nodup_map hnodup he hf
  · have hsame : ∀ e ∈ entryWalks style (d + 1) entries, e =
        entryWalk style style.cap style.cap := by
      intro e he
      rw [entryWalks_eq_map] at he
      obtain ⟨f, -, rfl⟩ := List.mem_map.mp he
      rw [walk_of_lt (by omega), walk_of_lt (by omega)]
    exact fun e he f hf _ => (hsame e he).trans (hsame f hf).symm

/-- One level: if the parts of alike values are walked alike further down, so are the values. -/
theorem walk_eq_of_parts (hparts : ∀ d' > d, ∀ v w : Sample, Alike v w → KeysApart style d' v →
      v.walk style d' = w.walk style d')
    {v w : Sample} (h : Alike v w) (hkeys : KeysApart style d v) :
    v.walk style d = w.walk style d := by
  have hbelow : d < v.partDepth style d := by cases v <;> simp only [partDepth] <;> omega
  have hmap {xs ys : List Sample} (hxs : List.Forall₂ Alike xs ys)
      (hmem : ∀ x ∈ xs, x ∈ v.parts style) :
      xs.map (walk style (v.partDepth style d)) = ys.map (walk style (v.partDepth style d)) :=
    map_walk_eq hxs fun x hx y hxy => hparts _ hbelow x y hxy (hkeys.part hd (hmem x hx))
  cases h with
  | refl => rfl
  | @list xs ys h =>
    have hitems := hmap (forall₂_pick h (style.places xs.length)) fun x hx => hx
    rw [walk_list hd, walk_list hd, ← h.length_eq]
    exact congrArg _ hitems
  | @tuple xs ys h =>
    have hitems := hmap (forall₂_pick h (style.places xs.length)) fun x hx => hx
    rw [walk_tuple hd, walk_tuple hd, ← h.length_eq]
    exact congrArg _ hitems
  | @set xs ys zs h horder =>
    have hitems := hmap h fun x hx => hx
    rw [walk_set hd, walk_set hd, ← horder.length_eq, ← h.length_eq,
      ← sorted_eq_of_perm ((horder.map (walk style (d + 1))).map style.digest)]
    exact congrArg (fun ws => style.collection false xs.length (sorted (ws.map style.digest)))
      hitems
  | @frozenSet xs ys zs h horder =>
    have hitems := hmap h fun x hx => hx
    rw [walk_frozenSet hd, walk_frozenSet hd, ← horder.length_eq, ← h.length_eq,
      ← sorted_eq_of_perm ((horder.map (walk style (d + 1))).map style.digest)]
    exact congrArg (fun ws => style.collection true xs.length (sorted (ws.map style.digest))) hitems
  | @dict es fs gs hkeys' hvalues horder =>
    have hentries : entryWalks style (d + 1) es = entryWalks style (d + 1) fs := by
      rw [entryWalks_eq_zip, entryWalks_eq_zip]
      exact congrArg₂ _ (hmap hkeys' fun x hx => List.mem_append_left _ hx)
        (hmap hvalues fun x hx => List.mem_append_right _ hx)
    have hperm : (entryWalks style (d + 1) es).Perm (entryWalks style (d + 1) gs) := by
      rw [hentries, entryWalks_eq_map, entryWalks_eq_map]
      exact horder.map _
    rw [walk_dict hd, walk_dict hd, inKeyOrder_eq_of_perm hperm (entryWalks_injOn hd hkeys)]
  | @record es fs hnames hvalues =>
    rw [walk_record hd, walk_record hd, hnames]
    exact congrArg _ (hmap hvalues fun x hx => hx)

end

/-- Alike values are walked alike. The induction goes up from the depth below which nothing is
walked. -/
theorem walk_eq_of_alike {d : Nat} {v w : Sample} (h : Alike v w) (hkeys : KeysApart style d v) :
    v.walk style d = w.walk style d := by
  induction hn : depthLimit + 1 - d using Nat.strongRecOn generalizing d v w with
  | _ n ih =>
    rcases Nat.lt_or_ge depthLimit d with hlt | hge
    · rw [walk_of_lt hlt, walk_of_lt hlt]
    · exact walk_eq_of_parts hge (fun d' hd' v w h hkeys => ih _ (by omega) h hkeys rfl) h hkeys

end

end Sample
end Spellbook
