import Mathlib.Data.List.Perm.Basic
import Mathlib.Order.Lattice
import Mathlib.Tactic.Common

/-!
# Stable sorting

Items are sorted stably by a key if they are in ascending order and those of each key stay in the
order that they had. What has been sorted so can be merged, or one more item inserted, such that it
stays so.
-/

set_option autoImplicit false
set_option relaxedAutoImplicit false

namespace CppLearn.Foundation.StableSort

variable {α β : Type*} [LinearOrder β] {key : α → β}

/-- The items of one key. -/
def ofKey (key : α → β) (k : β) (items : List α) : List α := items.filter fun item ↦ key item = k

/-- The items in ascending order, and those of each key in the order that they had. -/
structure StablySorted (key : α → β) (items sorted : List α) : Prop where
  ascending : sorted.Pairwise fun first later ↦ key first ≤ key later
  stable : ∀ k, ofKey key k sorted = ofKey key k items

variable {items items' sorted sorted' : List α} {item : α} {k : β}

@[simp] theorem ofKey_nil : ofKey key k [] = [] := rfl

theorem ofKey_cons_of_eq (heq : key item = k) (items : List α) :
    ofKey key k (item :: items) = item :: ofKey key k items :=
  List.filter_cons_of_pos (decide_eq_true heq)

theorem ofKey_cons_of_ne (hne : key item ≠ k) (items : List α) :
    ofKey key k (item :: items) = ofKey key k items :=
  List.filter_cons_of_neg (decide_eq_true_iff.not.mpr hne)

@[simp] theorem ofKey_append :
    ofKey key k (items ++ items') = ofKey key k items ++ ofKey key k items' :=
  List.filter_append ..

/-- No item of a key is among items of greater keys. -/
theorem ofKey_eq_nil_of_lt (hless : ∀ item ∈ items, k < key item) : ofKey key k items = [] := by
  refine List.filter_eq_nil_iff.mpr fun item hmem heq ↦ ?_
  exact (hless item hmem).ne' (of_decide_eq_true heq)

theorem stablySorted_nil : StablySorted key [] [] := ⟨.nil, fun _ ↦ rfl⟩

theorem stablySorted_singleton (item : α) : StablySorted key [item] [item] :=
  ⟨List.pairwise_singleton _ item, fun _ ↦ rfl⟩

/-- They are the same items. -/
theorem StablySorted.perm (h : StablySorted key items sorted) : sorted.Perm items := by
  classical
  refine List.perm_iff_count.mpr fun item ↦ ?_
  have hcount (whole : List α) : (ofKey key (key item) whole).count item = whole.count item :=
    List.count_filter (decide_eq_true rfl)
  rw [← hcount, h.stable, hcount]

/-! ### Merging -/

/-- The first of two items is not taken after the second one. -/
def inOrder (key : α → β) (first second : α) : Bool := key first ≤ key second

/-- Items of one key are merged such that those of the first list come first. -/
theorem ofKey_merge (hitems : items.Pairwise fun first later ↦ key first ≤ key later) :
    ofKey key k (items.merge items' (inOrder key)) = ofKey key k items ++ ofKey key k items' := by
  induction items generalizing items' with
  | nil => rw [List.nil_merge, ofKey_nil, List.nil_append]
  | cons first items ih =>
    induction items' with
    | nil => rw [List.merge_right, ofKey_nil, List.append_nil]
    | cons second items' ih' =>
      obtain ⟨hfirst, hrest⟩ := List.pairwise_cons.mp hitems
      by_cases hle : key first ≤ key second
      · rw [List.cons_merge_cons_pos _ _ _ (decide_eq_true hle)]
        by_cases hkey : key first = k
        · rw [ofKey_cons_of_eq hkey, ih hrest, ofKey_cons_of_eq hkey, List.cons_append]
        · rw [ofKey_cons_of_ne hkey, ih hrest, ofKey_cons_of_ne hkey]
      · rw [List.cons_merge_cons_neg _ _ _ (decide_eq_true_iff.not.mpr hle)]
        by_cases hkey : key second = k
        · -- All of the first list are greater than the second item.
          have hless : k < key first := hkey ▸ not_le.mp hle
          have hnone : ofKey key k (first :: items) = [] := by
            refine ofKey_eq_nil_of_lt (List.forall_mem_cons.mpr ⟨hless, fun item hmem ↦ ?_⟩)
            exact hless.trans_le (hfirst item hmem)
          rw [ofKey_cons_of_eq hkey, ih', hnone, ofKey_cons_of_eq hkey, List.nil_append,
            List.nil_append]
        · rw [ofKey_cons_of_ne hkey, ih', ofKey_cons_of_ne hkey]

theorem ascending_merge (hitems : items.Pairwise fun first later ↦ key first ≤ key later)
    (hitems' : items'.Pairwise fun first later ↦ key first ≤ key later) :
    (items.merge items' (inOrder key)).Pairwise fun first later ↦ key first ≤ key later := by
  have htrans (first second third : α) (h : inOrder key first second = true)
      (h' : inOrder key second third = true) : inOrder key first third = true :=
    decide_eq_true (le_trans (of_decide_eq_true h) (of_decide_eq_true h'))
  have htotal (first second : α) : (inOrder key first second || inOrder key second first) =
      true := by
    rcases le_total (key first) (key second) with h | h
    · rw [inOrder, decide_eq_true h, Bool.true_or]
    · rw [inOrder, inOrder, decide_eq_true h, Bool.or_true]
  have hmerge := List.pairwise_merge htrans htotal items items' (hitems.imp decide_eq_true)
    (hitems'.imp decide_eq_true)
  exact hmerge.imp of_decide_eq_true

/-- Sorted parts are merged to the sorted whole. -/
theorem StablySorted.merge (h : StablySorted key items sorted)
    (h' : StablySorted key items' sorted') :
    StablySorted key (items ++ items') (sorted.merge sorted' (inOrder key)) := by
  refine ⟨ascending_merge h.ascending h'.ascending, fun k ↦ ?_⟩
  rw [ofKey_merge h.ascending, h.stable, h'.stable, ofKey_append]

/-! ### Inserting -/

/-- One more item is put behind those that are not greater and before those that are. -/
theorem StablySorted.insert {small large : List α} (h : StablySorted key items (small ++ large))
    (hsmall : ∀ other ∈ small, key other ≤ key item)
    (hlarge : ∀ other ∈ large, key item < key other) :
    StablySorted key (items ++ [item]) (small ++ item :: large) := by
  obtain ⟨hascSmall, hascLarge, hbetween⟩ := List.pairwise_append.mp h.ascending
  refine ⟨List.pairwise_append.mpr ⟨hascSmall, List.pairwise_cons.mpr
    ⟨fun other hother ↦ le_of_lt (hlarge other hother), hascLarge⟩,
    fun first hfirst later hlater ↦ ?_⟩, fun k ↦ ?_⟩
  · rcases List.mem_cons.mp hlater with rfl | hlater
    · exact hsmall first hfirst
    · exact hbetween first hfirst later hlater
  · rw [ofKey_append, ofKey_append, ← h.stable, ofKey_append]
    by_cases hkey : key item = k
    · have hnone : ofKey key k large = [] := ofKey_eq_nil_of_lt (hkey ▸ hlarge)
      rw [ofKey_cons_of_eq hkey, hnone, ofKey_cons_of_eq hkey, ofKey_nil, List.append_nil]
    · rw [ofKey_cons_of_ne hkey, ofKey_cons_of_ne hkey, ofKey_nil, List.append_nil]

end CppLearn.Foundation.StableSort
