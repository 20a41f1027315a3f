import Mathlib.Data.List.Sort

/-!
# Order statistics

The element of a list at an index when it is sorted, counted with multiplicity. What a partition knows of
a list is enough to find it (`orderStatistic_of_lt`, `orderStatistic_self`, `orderStatistic_of_gt`).
-/

set_option autoImplicit false
set_option relaxedAutoImplicit false

namespace CppLearn.Foundation.OrderStatistic

variable {α : Type*} [LinearOrder α]

/-- The element that stands at an index of the sorted list. -/
def orderStatistic (nums : List α) (indx : ℕ) : Option α := (nums.mergeSort (· ≤ ·))[indx]?

variable {nums lows highs : List α} {num : α} {indx : ℕ}

theorem pairwise_sorted (nums : List α) : (nums.mergeSort (· ≤ ·)).Pairwise (· ≤ ·) := by
  have htrans (first second third : α) (hfirst : decide (first ≤ second) = true)
      (hsecond : decide (second ≤ third) = true) : decide (first ≤ third) = true :=
    decide_eq_true ((of_decide_eq_true hfirst).trans (of_decide_eq_true hsecond))
  have htotal (first second : α) : (decide (first ≤ second) || decide (second ≤ first)) = true := by
    simpa using le_total first second
  exact (List.pairwise_mergeSort htrans htotal nums).imp of_decide_eq_true

/-- The list is sorted part by part. -/
theorem mergeSort_split (hperm : (lows ++ num :: highs).Perm nums) (hlows : ∀ low ∈ lows, low ≤ num)
    (hhighs : ∀ high ∈ highs, num ≤ high) :
    nums.mergeSort (· ≤ ·) = lows.mergeSort (· ≤ ·) ++ num :: highs.mergeSort (· ≤ ·) := by
  have hlows' : ∀ low ∈ lows.mergeSort (· ≤ ·), low ≤ num := fun low hlow ↦
    hlows low ((List.mergeSort_perm lows _).mem_iff.mp hlow)
  have hhighs' : ∀ high ∈ highs.mergeSort (· ≤ ·), num ≤ high := fun high hhigh ↦
    hhighs high ((List.mergeSort_perm highs _).mem_iff.mp hhigh)
  have hsorted : (lows.mergeSort (· ≤ ·) ++ num :: highs.mergeSort (· ≤ ·)).Pairwise (· ≤ ·) := by
    refine List.pairwise_append.mpr ⟨pairwise_sorted lows,
      List.pairwise_cons.mpr ⟨hhighs', pairwise_sorted highs⟩, fun low hlow other hother ↦ ?_⟩
    rcases List.mem_cons.mp hother with rfl | hhigh
    · exact hlows' low hlow
    · exact (hlows' low hlow).trans (hhighs' other hhigh)
  refine List.Perm.eq_of_pairwise (fun _ _ _ _ ↦ le_antisymm) (pairwise_sorted nums) hsorted ?_
  exact (List.mergeSort_perm nums _).trans (hperm.symm.trans
    ((List.mergeSort_perm lows _).append ((List.mergeSort_perm highs _).cons num)).symm)

section Split

variable (hperm : (lows ++ num :: highs).Perm nums) (hlows : ∀ low ∈ lows, low ≤ num)
  (hhighs : ∀ high ∈ highs, num ≤ high)
include hperm hlows hhighs

theorem orderStatistic_of_lt (hlt : indx < lows.length) :
    orderStatistic nums indx = orderStatistic lows indx := by
  rw [orderStatistic, mergeSort_split hperm hlows hhighs,
    List.getElem?_append_left (hlt.trans_eq (List.length_mergeSort lows).symm), orderStatistic]

theorem orderStatistic_self : orderStatistic nums lows.length = some num := by
  rw [orderStatistic, mergeSort_split hperm hlows hhighs,
    List.getElem?_append_right (List.length_mergeSort lows).le, List.length_mergeSort, Nat.sub_self]
  rfl

theorem orderStatistic_of_gt (indx : ℕ) :
    orderStatistic nums (lows.length + 1 + indx) = orderStatistic highs indx := by
  have hle : lows.length ≤ lows.length + 1 + indx := by omega
  have hindx : lows.length + 1 + indx - lows.length = indx + 1 := by omega
  rw [orderStatistic, mergeSort_split hperm hlows hhighs,
    List.getElem?_append_right ((List.length_mergeSort lows).le.trans hle), List.length_mergeSort,
    hindx, List.getElem?_cons_succ, orderStatistic]

end Split

theorem orderStatistic_of_sorted {sorted : List α} (hperm : sorted.Perm nums)
    (hsorted : sorted.Pairwise (· ≤ ·)) (indx : ℕ) : orderStatistic nums indx = sorted[indx]? := by
  have heq : nums.mergeSort (· ≤ ·) = sorted :=
    List.Perm.eq_of_pairwise (fun _ _ _ _ ↦ le_antisymm) (pairwise_sorted nums) hsorted
      ((List.mergeSort_perm nums _).trans hperm.symm)
  rw [orderStatistic, heq]

end CppLearn.Foundation.OrderStatistic
