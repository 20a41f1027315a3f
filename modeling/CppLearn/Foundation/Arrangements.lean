import Mathlib.Data.List.Lex
import Mathlib.Data.List.Perm.Basic
import Mathlib.Order.Lattice
import Mathlib.Tactic.Common

/-!
# The order of arrangements

The arrangements of a list in lexicographic order. The least is the one that ascends, the greatest
the one that descends. The next one of an arrangement differs from it in the shortest part at the
end that is not the greatest of its own arrangements (`isNext_of_split`).
-/

set_option autoImplicit false
set_option relaxedAutoImplicit false

namespace CppLearn.Foundation.Arrangements

variable {α : Type*} [LinearOrder α] {nums other front large small : List α} {pivot next : α}

theorem cons_lt_cons_iff {first second : α} {rest rest' : List α} :
    first :: rest < second :: rest' ↔ first < second ∨ first = second ∧ rest < rest' :=
  List.cons_lt_cons_iff

/-- No arrangement is less than the one that ascends. -/
theorem le_of_ascending (hascending : nums.Pairwise (· ≤ ·)) (hperm : other.Perm nums) :
    nums ≤ other := by
  induction nums generalizing other with
  | nil => rw [hperm.eq_nil]
  | cons num nums ih =>
    cases other with
    | nil => cases hperm.nil_eq
    | cons first rest =>
      rw [List.pairwise_cons] at hascending
      rcases List.mem_cons.mp (hperm.subset List.mem_cons_self) with rfl | hmem
      · exact List.cons_le_cons first (ih hascending.2 hperm.cons_inv)
      · rcases (hascending.1 first hmem).eq_or_lt with rfl | hlt
        · exact List.cons_le_cons num (ih hascending.2 hperm.cons_inv)
        · exact (cons_lt_cons_iff.mpr (.inl hlt)).le

/-- No arrangement is greater than the one that descends. -/
theorem ge_of_descending (hdescending : nums.Pairwise (· ≥ ·)) (hperm : other.Perm nums) :
    other ≤ nums := by
  induction nums generalizing other with
  | nil => rw [hperm.eq_nil]
  | cons num nums ih =>
    cases other with
    | nil => cases hperm.nil_eq
    | cons first rest =>
      rw [List.pairwise_cons] at hdescending
      rcases List.mem_cons.mp (hperm.subset List.mem_cons_self) with rfl | hmem
      · exact List.cons_le_cons first (ih hdescending.2 hperm.cons_inv)
      · rcases (hdescending.1 first hmem).eq_or_lt with rfl | hlt
        · exact List.cons_le_cons first (ih hdescending.2 hperm.cons_inv)
        · exact (cons_lt_cons_iff.mpr (.inl hlt)).le

/-- The least of the arrangements that are greater. -/
structure IsNext (nums next : List α) : Prop where
  perm : next.Perm nums
  lt : nums < next
  le : ∀ other : List α, other.Perm nums → nums < other → next ≤ other

/-- An element more in front. -/
theorem IsNext.cons {next : List α} (h : IsNext nums next) (first : α) :
    IsNext (first :: nums) (first :: next) where
  perm := h.perm.cons first
  lt := cons_lt_cons_iff.mpr (.inr ⟨rfl, h.lt⟩)
  le other hperm hlt := by
    cases other with
    | nil => cases hperm.nil_eq
    | cons second rest =>
      rcases cons_lt_cons_iff.mp hlt with hless | ⟨rfl, hless⟩
      · exact (cons_lt_cons_iff.mpr (.inl hless)).le
      · exact List.cons_le_cons first (h.le rest hperm.cons_inv hless)

theorem IsNext.append {next : List α} (h : IsNext nums next) (front : List α) :
    IsNext (front ++ nums) (front ++ next) := by
  induction front with
  | nil => exact h
  | cons first front ih => exact ih.cons first

/-- The pivot is exchanged for the least greater element behind it, and what is behind then ascends.
The elements behind it descend before. -/
theorem isNext_of_split (hdescending : (large ++ next :: small).Pairwise (· ≥ ·))
    (hnext : pivot < next) (hsmall : ∀ num ∈ small, num ≤ pivot) (front : List α) :
    IsNext (front ++ pivot :: (large ++ next :: small))
      (front ++ next :: (large ++ pivot :: small).reverse) := by
  have hperm : (next :: (large ++ pivot :: small).reverse).Perm
      (pivot :: (large ++ next :: small)) :=
    calc (next :: (large ++ pivot :: small).reverse).Perm (next :: (large ++ pivot :: small)) :=
          (List.reverse_perm _).cons next
      _ |>.Perm (next :: pivot :: (large ++ small)) := List.perm_middle.cons next
      _ |>.Perm (pivot :: next :: (large ++ small)) := List.Perm.swap pivot next _
      _ |>.Perm (pivot :: (large ++ next :: small)) := List.perm_middle.symm.cons pivot
  obtain ⟨hlarge, hrest, hcross⟩ := List.pairwise_append.mp hdescending
  obtain ⟨hnextSmall, hsmallSorted⟩ := List.pairwise_cons.mp hrest
  have hascending : ((large ++ pivot :: small).reverse).Pairwise (· ≤ ·) := by
    rw [List.pairwise_reverse, List.pairwise_append]
    refine ⟨hlarge, List.pairwise_cons.mpr ⟨hsmall, hsmallSorted⟩, fun num hnum other hother ↦ ?_⟩
    have hge : next ≤ num := hcross num hnum next List.mem_cons_self
    rcases List.mem_cons.mp hother with rfl | hmem
    · exact hnext.le.trans hge
    · exact ((hsmall other hmem).trans hnext.le).trans hge
  refine IsNext.append ⟨hperm, cons_lt_cons_iff.mpr (.inl hnext), fun other hother hlt ↦ ?_⟩ front
  cases other with
  | nil => cases hother.nil_eq
  | cons first rest =>
    rcases cons_lt_cons_iff.mp hlt with hless | ⟨rfl, hless⟩
    · -- An element greater than the pivot is one of those up to the next one.
      have hge : next ≤ first := by
        have hmem := hother.subset List.mem_cons_self
        simp only [List.mem_cons, List.mem_append] at hmem
        rcases hmem with rfl | hmem | rfl | hmem
        · exact absurd hless (lt_irrefl _)
        · exact hcross first hmem next List.mem_cons_self
        · exact le_rfl
        · exact absurd hless (hsmall first hmem).not_gt
      rcases hge.eq_or_lt with rfl | hgreater
      · exact List.cons_le_cons next
          (le_of_ascending hascending (hother.trans hperm.symm).cons_inv)
      · exact (cons_lt_cons_iff.mpr (.inl hgreater)).le
    · exact absurd hless (ge_of_descending hdescending hother.cons_inv).not_gt

end CppLearn.Foundation.Arrangements
