import Mathlib.Algebra.BigOperators.Group.List.Basic
import Mathlib.Algebra.Order.Monoid.Defs
import Mathlib.Order.Bounds.Basic

/-!
# Sums of segments

The segments of a list that are not empty have a greatest sum. It is found along the list with the
greatest sum of a segment that ends where the list has got to: a segment of the list with one
element more ends with that element or is a segment of the list (`isGreatest_segmentSums_append`).
-/

set_option autoImplicit false
set_option relaxedAutoImplicit false

namespace CppLearn.Foundation.SegmentSums

variable {α : Type*} [AddCommMonoid α]

/-- The sums of the segments that end where the list ends. -/
def suffixSums (nums : List α) : Set α :=
  {total | ∃ part, part ≠ [] ∧ part <:+ nums ∧ part.sum = total}

def segmentSums (nums : List α) : Set α :=
  {total | ∃ part, part ≠ [] ∧ part <:+: nums ∧ part.sum = total}

variable {nums : List α} {num tail best total : α}

/-- The element alone, or what is added to a segment that it comes after. -/
theorem mem_suffixSums_append :
    total ∈ suffixSums (nums ++ [num]) ↔
      total = num ∨ ∃ before ∈ suffixSums nums, before + num = total := by
  constructor
  · rintro ⟨part, hne, hsuffix, rfl⟩
    obtain rfl | ⟨front, rfl, hfront⟩ := List.suffix_concat_iff.mp hsuffix
    · exact absurd rfl hne
    · rw [List.sum_append, List.sum_singleton]
      rcases eq_or_ne front [] with rfl | hfrontNe
      · exact Or.inl (by rw [List.sum_nil, zero_add])
      · exact Or.inr ⟨front.sum, ⟨front, hfrontNe, hfront, rfl⟩, rfl⟩
  · rintro (rfl | ⟨before, ⟨front, -, hfront, rfl⟩, rfl⟩)
    · refine ⟨[total], List.cons_ne_nil total [], List.suffix_append nums [total], ?_⟩
      exact List.sum_singleton
    · have hne : front ++ [num] ≠ [] :=
        List.append_ne_nil_of_right_ne_nil front (List.cons_ne_nil num [])
      refine ⟨front ++ [num], hne, ?_, ?_⟩
      · exact List.suffix_concat_iff.mpr (Or.inr ⟨front, rfl, hfront⟩)
      · rw [List.sum_append, List.sum_singleton]

theorem mem_segmentSums_append :
    total ∈ segmentSums (nums ++ [num]) ↔
      total ∈ suffixSums (nums ++ [num]) ∨ total ∈ segmentSums nums := by
  constructor
  · rintro ⟨part, hne, hinfix', rfl⟩
    rcases List.infix_concat_iff.mp hinfix' with hsuffix | hpart
    · exact Or.inl ⟨part, hne, hsuffix, rfl⟩
    · exact Or.inr ⟨part, hne, hpart, rfl⟩
  · rintro (⟨part, hne, hsuffix, rfl⟩ | ⟨part, hne, hpart, rfl⟩)
    · exact ⟨part, hne, hsuffix.isInfix, rfl⟩
    · exact ⟨part, hne, List.infix_concat_iff.mpr (Or.inr hpart), rfl⟩

variable [LinearOrder α]

theorem isGreatest_suffixSums_singleton (num : α) : IsGreatest (suffixSums [num]) num := by
  have hmem (total : α) : total ∈ suffixSums [num] ↔ total = num := by
    rw [← List.nil_append [num], mem_suffixSums_append, or_iff_left]
    rintro ⟨-, ⟨part, hne, hsuffix, -⟩, -⟩
    exact hne (List.suffix_nil.mp hsuffix)
  exact ⟨(hmem num).mpr rfl, fun total htotal ↦ ((hmem total).mp htotal).le⟩

theorem isGreatest_segmentSums_singleton (num : α) : IsGreatest (segmentSums [num]) num := by
  have hmem (total : α) : total ∈ segmentSums [num] ↔ total ∈ suffixSums [num] := by
    rw [← List.nil_append [num], mem_segmentSums_append, or_iff_left]
    rintro ⟨part, hne, hpart, -⟩
    exact hne (List.infix_nil.mp hpart)
  obtain ⟨hnum, hupper⟩ := isGreatest_suffixSums_singleton num
  exact ⟨(hmem num).mpr hnum, fun total htotal ↦ hupper ((hmem total).mp htotal)⟩

theorem isGreatest_segmentSums_append (h : IsGreatest (segmentSums nums) best)
    (htail : IsGreatest (suffixSums (nums ++ [num])) tail) :
    IsGreatest (segmentSums (nums ++ [num])) (max best tail) := by
  refine ⟨mem_segmentSums_append.mpr ?_, fun total htotal ↦ ?_⟩
  · rcases max_choice best tail with hmax | hmax
    · rw [hmax]
      exact Or.inr h.1
    · rw [hmax]
      exact Or.inl htail.1
  · rcases mem_segmentSums_append.mp htotal with hsuffix | hsegment
    · exact le_max_of_le_right (htail.2 hsuffix)
    · exact le_max_of_le_left (h.2 hsegment)

variable [IsOrderedAddMonoid α]

/-- What comes before is kept where it adds something. -/
theorem isGreatest_suffixSums_append_of_nonneg (h : IsGreatest (suffixSums nums) tail)
    (htail : 0 ≤ tail) (num : α) : IsGreatest (suffixSums (nums ++ [num])) (tail + num) := by
  refine ⟨mem_suffixSums_append.mpr (Or.inr ⟨tail, h.1, rfl⟩), fun total htotal ↦ ?_⟩
  obtain rfl | ⟨before, hbefore, rfl⟩ := mem_suffixSums_append.mp htotal
  · exact le_add_of_nonneg_left htail
  · exact add_le_add_left (h.2 hbefore) num

theorem isGreatest_suffixSums_append_of_nonpos (h : IsGreatest (suffixSums nums) tail)
    (htail : tail ≤ 0) (num : α) : IsGreatest (suffixSums (nums ++ [num])) num := by
  refine ⟨mem_suffixSums_append.mpr (Or.inl rfl), fun total htotal ↦ ?_⟩
  obtain rfl | ⟨before, hbefore, rfl⟩ := mem_suffixSums_append.mp htotal
  · exact le_rfl
  · exact add_le_of_nonpos_left ((h.2 hbefore).trans htail)

end CppLearn.Foundation.SegmentSums
