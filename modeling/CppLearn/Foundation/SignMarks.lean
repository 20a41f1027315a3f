import Mathlib.Data.List.Basic
import Mathlib.Data.List.Count
import Mathlib.Data.Int.Order.Basic

/-!
# Signs as marks

A list of positive numbers has room for a set of its places: the number at a place is negated where
the place, counted from one, is in the set. What the numbers were can still be read.

Numbers that come one after the other are repeated where they have come before (`repeats`).
-/

set_option autoImplicit false
set_option relaxedAutoImplicit false

namespace CppLearn.Foundation.SignMarks

variable {nums seen rest : List ℤ} {indx : ℕ} {num val : ℤ}

/-- The numbers, with the places that have been seen marked. -/
def marked (nums seen : List ℤ) : List ℤ :=
  nums.mapIdx fun indx num ↦ if (indx + 1 : ℤ) ∈ seen then -num else num

@[simp] theorem length_marked (nums seen : List ℤ) : (marked nums seen).length = nums.length :=
  List.length_mapIdx

theorem marked_nil (nums : List ℤ) : marked nums [] = nums := by
  refine List.ext_getElem? fun indx ↦ ?_
  rw [marked, List.getElem?_mapIdx]
  cases nums[indx]? with
  | none => rfl
  | some num => rw [Option.map_some, if_neg List.not_mem_nil]

theorem getElem?_marked (hnum : nums[indx]? = some num) (seen : List ℤ) :
    (marked nums seen)[indx]? = some (if (indx + 1 : ℤ) ∈ seen then -num else num) := by
  rw [marked, List.getElem?_mapIdx, hnum, Option.map_some]

/-- The number itself is there in any case. -/
theorem natAbs_marked (indx : ℕ) (num : ℤ) (seen : List ℤ) :
    (if (indx + 1 : ℤ) ∈ seen then -num else num).natAbs = num.natAbs := by
  split
  · exact Int.natAbs_neg num
  · rfl

theorem marked_neg_iff (hpos : 0 < num) :
    (if (indx + 1 : ℤ) ∈ seen then -num else num) < 0 ↔ (indx + 1 : ℤ) ∈ seen := by
  split
  next hmem => exact iff_of_true (Int.neg_neg_of_pos hpos) hmem
  next hmem => exact iff_of_false (not_lt.mpr (le_of_lt hpos)) hmem

/-- A place is marked. -/
theorem set_marked (hnum : nums[indx]? = some num) (seen : List ℤ) :
    (marked nums seen).set indx (-num) = marked nums (seen ++ [(indx + 1 : ℤ)]) := by
  refine List.ext_getElem? fun other ↦ ?_
  rw [List.getElem?_set, length_marked]
  by_cases heq : indx = other
  · subst heq
    obtain ⟨hlt, -⟩ := List.getElem?_eq_some_iff.mp hnum
    rw [if_pos rfl, if_pos hlt, getElem?_marked hnum,
      if_pos (List.mem_append_right seen (List.mem_singleton_self _))]
  · have hiff : (other + 1 : ℤ) ∈ seen ++ [(indx + 1 : ℤ)] ↔ (other + 1 : ℤ) ∈ seen := by
      rw [List.mem_append, List.mem_singleton, or_iff_left]
      omega
    rw [if_neg heq, marked, marked, List.getElem?_mapIdx, List.getElem?_mapIdx]
    simp only [hiff]

/-- Or has been marked already. -/
theorem marked_of_mem (hmem : val ∈ seen) : marked nums (seen ++ [val]) = marked nums seen := by
  have hiff (other : ℤ) : other ∈ seen ++ [val] ↔ other ∈ seen := by
    rw [List.mem_append, List.mem_singleton]
    exact or_iff_left_of_imp fun heq ↦ heq ▸ hmem
  simp only [marked, hiff]

/-! ### Repetitions -/

/-- The numbers that have come before, or are among those that have been seen. -/
def repeats : List ℤ → List ℤ → List ℤ
  | _, [] => []
  | seen, num :: rest =>
    if num ∈ seen then num :: repeats (seen ++ [num]) rest else repeats (seen ++ [num]) rest

/-- All but the first one of equal numbers are repeated. -/
theorem count_repeats (seen rest : List ℤ) (val : ℤ) :
    (repeats seen rest).count val = rest.count val - if val ∈ seen then 0 else 1 := by
  induction rest generalizing seen with
  | nil => rw [repeats, List.count_nil, Nat.zero_sub]
  | cons num rest ih =>
    have hseen := ih (seen ++ [num])
    by_cases heq : num = val
    · subst heq
      rw [if_pos (List.mem_append_right seen (List.mem_singleton_self num)), Nat.sub_zero] at hseen
      rw [repeats, List.count_cons_self]
      by_cases hmem : num ∈ seen
      · rw [if_pos hmem, List.count_cons_self, hseen, if_pos hmem, Nat.sub_zero]
      · rw [if_neg hmem, hseen, if_neg hmem, Nat.add_sub_cancel]
    · have hiff : val ∈ seen ++ [num] ↔ val ∈ seen := by
        rw [List.mem_append, List.mem_singleton, or_iff_left (Ne.symm heq)]
      simp only [hiff] at hseen
      rw [repeats, List.count_cons_of_ne heq]
      split
      · rw [List.count_cons_of_ne heq, hseen]
      · rw [hseen]

theorem count_repeats_nil (nums : List ℤ) (val : ℤ) :
    (repeats [] nums).count val = nums.count val - 1 := by
  rw [count_repeats, if_neg List.not_mem_nil]

end CppLearn.Foundation.SignMarks
