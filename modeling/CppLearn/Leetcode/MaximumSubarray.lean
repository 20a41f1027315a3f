import CppLearn.Foundation.SegmentSums
import Mathlib.Data.Int.Order.Basic
import Mathlib.Algebra.Order.Group.Int
import Mathlib.Algebra.Ring.Int.Defs

/-!
# The maximum of the sums of subarrays

Both overloads of `maxSubArray` go through the array with the greatest sum of a subarray that ends
where they are, and with the greatest one so far. The second one keeps the bounds of the latter as
well.
-/

set_option autoImplicit false
set_option relaxedAutoImplicit false

namespace CppLearn.Leetcode.MaximumSubarray

open Foundation.SegmentSums

/-! ### The programs -/

/-- A round of the loop of the first overload, on `max_tail` and `maximum`. -/
def tailStep (maxes : ℤ × ℤ) (num : Int32) : ℤ × ℤ :=
  let maxTail := if maxes.1 > 0 then maxes.1 + num.toInt else num.toInt
  (maxTail, max maxes.2 maxTail)

def maxSubArray (nums : List Int32) : ℤ :=
  if nums.length = 0 then 0 else (nums.foldl tailStep (-2 ^ 31, -2 ^ 31)).2

structure Bounded where
  left : ℕ
  right : ℕ
  leftMaxTail : ℕ
  maxTail : ℤ
  maximum : ℤ

/-- A round of the loop of the second overload. -/
def boundedStep (nums : List Int32) (state : Bounded) (i : ℕ) : Option Bounded := do
  let state := if state.maxTail < 0 then { state with maxTail := 0, leftMaxTail := i } else state
  let num ← nums[i]?
  let state := { state with maxTail := state.maxTail + num.toInt }
  if state.maximum < state.maxTail then
    return { state with left := state.leftMaxTail, right := i, maximum := state.maxTail }
  else return state

/-- The second overload, which sets `left` and `right`. -/
def maxSubArrayBounds (nums : List Int32) (left right : ℕ) : Option (ℤ × ℕ × ℕ) :=
  if nums.length = 0 then some (0, left, right) else do
    let num ← nums[0]?
    let state ← (List.range' 1 (nums.length - 1)).foldlM (boundedStep nums)
      { left := 0, right := 0, leftMaxTail := 0, maxTail := num.toInt, maximum := num.toInt }
    return (state.maximum, state.left, state.right)

/-! ### The first overload -/

/-- The numbers themselves, whose sums need not be numbers of 32 bits. -/
def ints (nums : List Int32) : List ℤ := nums.map Int32.toInt

/-- The elements from `left` to `right`. -/
def between (nums : List Int32) (left right : ℕ) : List ℤ :=
  ((ints nums).drop left).take (right + 1 - left)

variable {nums done rest : List Int32} {num : Int32}

@[simp] theorem ints_append (nums rest : List Int32) :
    ints (nums ++ rest) = ints nums ++ ints rest :=
  List.map_append

@[simp] theorem ints_singleton (num : Int32) : ints [num] = [num.toInt] := rfl

/-- What is kept of the elements up to a place. -/
structure Kept (done : List Int32) (maxTail maximum : ℤ) : Prop where
  tail : IsGreatest (suffixSums (ints done)) maxTail
  segment : IsGreatest (segmentSums (ints done)) maximum

theorem kept_singleton (num : Int32) : Kept [num] num.toInt num.toInt :=
  ⟨isGreatest_suffixSums_singleton _, isGreatest_segmentSums_singleton _⟩

theorem Kept.append {maxTail maxTail' maximum : ℤ} (h : Kept done maxTail maximum)
    (htail : IsGreatest (suffixSums (ints (done ++ [num]))) maxTail') :
    Kept (done ++ [num]) maxTail' (max maximum maxTail') := by
  refine ⟨htail, ?_⟩
  rw [ints_append, ints_singleton] at htail ⊢
  exact isGreatest_segmentSums_append h.segment htail

theorem Kept.tailStep {maxes : ℤ × ℤ} (h : Kept done maxes.1 maxes.2) (num : Int32) :
    Kept (done ++ [num]) (tailStep maxes num).1 (tailStep maxes num).2 := by
  refine h.append ?_
  rw [MaximumSubarray.tailStep, ints_append, ints_singleton]
  dsimp only
  split
  next hpos => exact isGreatest_suffixSums_append_of_nonneg h.tail hpos.le num.toInt
  next hpos => exact isGreatest_suffixSums_append_of_nonpos h.tail (not_lt.mp hpos) num.toInt

theorem Kept.foldl_tailStep {maxes : ℤ × ℤ} (h : Kept done maxes.1 maxes.2) (rest : List Int32) :
    Kept (done ++ rest) (rest.foldl MaximumSubarray.tailStep maxes).1
      (rest.foldl MaximumSubarray.tailStep maxes).2 := by
  induction rest generalizing done maxes with
  | nil => rwa [List.append_nil]
  | cons num rest ih =>
    rw [← List.singleton_append, ← List.append_assoc]
    exact ih (h.tailStep num)

/-- The first round starts from nothing that adds to the first element. -/
theorem tailStep_start (num : Int32) :
    tailStep (-2 ^ 31, -2 ^ 31) num = (num.toInt, num.toInt) := by
  have hle : -2 ^ 31 ≤ num.toInt := num.le_toInt
  rw [tailStep, if_neg (by decide)]
  dsimp only
  rw [max_eq_right hle]

theorem maxSubArray_isGreatest (hnums : nums ≠ []) :
    IsGreatest (segmentSums (ints nums)) (maxSubArray nums) := by
  obtain ⟨num, rest, rfl⟩ := List.exists_cons_of_ne_nil hnums
  rw [maxSubArray, if_neg (by exact Nat.succ_ne_zero rest.length), List.foldl_cons, tailStep_start]
  exact (@Kept.foldl_tailStep [num] (num.toInt, num.toInt) (kept_singleton num) rest).segment

/-! ### The second overload -/

/-- The bounds are those of a subarray with the sum that is kept. -/
structure Tracks (done : List Int32) (state : Bounded) : Prop where
  kept : Kept done state.maxTail state.maximum
  leftMaxTail_lt : state.leftMaxTail < done.length
  tail_sum : ((ints done).drop state.leftMaxTail).sum = state.maxTail
  left_le : state.left ≤ state.right
  right_lt : state.right < done.length
  sum_eq : (between done state.left state.right).sum = state.maximum

@[simp] theorem length_ints (nums : List Int32) : (ints nums).length = nums.length :=
  List.length_map _

theorem between_append {left right : ℕ} (hright : right < done.length) (hle : left ≤ right)
    (rest : List Int32) : between (done ++ rest) left right = between done left right := by
  rw [between, between, ints_append, List.drop_append_of_le_length, List.take_append_of_le_length]
  · rw [List.length_drop, length_ints]
    omega
  · rw [length_ints]
    omega

theorem between_last {left : ℕ} (done : List Int32) (num : Int32) :
    between (done ++ [num]) left done.length = (ints (done ++ [num])).drop left := by
  rw [between, List.take_of_length_le]
  rw [List.length_drop, length_ints, List.length_append, List.length_singleton]

/-- A subarray with the greatest sum of those that end at an element, by its left bound. -/
structure TailAt (done : List Int32) (leftMaxTail : ℕ) (maxTail : ℤ) : Prop where
  isGreatest : IsGreatest (suffixSums (ints done)) maxTail
  lt : leftMaxTail < done.length
  sum_eq : ((ints done).drop leftMaxTail).sum = maxTail

/-- The state after a round, by what has become of `max_tail` and its left bound. -/
def nextState (state : Bounded) (i leftMaxTail : ℕ) (maxTail : ℤ) : Bounded :=
  if state.maximum < maxTail then
    { left := leftMaxTail, right := i, leftMaxTail := leftMaxTail, maxTail := maxTail,
      maximum := maxTail }
  else { state with leftMaxTail := leftMaxTail, maxTail := maxTail }

theorem boundedStep_eq {state : Bounded} (h : Tracks done state)
    (hnum : nums[done.length]? = some num) :
    ∃ leftMaxTail maxTail, TailAt (done ++ [num]) leftMaxTail maxTail ∧
      boundedStep nums state done.length =
        some (nextState state done.length leftMaxTail maxTail) := by
  have hlength : done.length < (done ++ [num]).length := by
    rw [List.length_append, List.length_singleton]
    omega
  by_cases hneg : state.maxTail < 0
  · refine ⟨done.length, 0 + num.toInt, ⟨?_, hlength, ?_⟩, ?_⟩
    · rw [ints_append, ints_singleton, zero_add]
      exact isGreatest_suffixSums_append_of_nonpos h.kept.tail hneg.le num.toInt
    · rw [ints_append, ← length_ints, List.drop_left, ints_singleton, List.sum_singleton, zero_add]
    · rw [boundedStep, if_pos hneg, hnum, Option.bind_eq_bind, Option.bind_some]
      exact (apply_ite some _ _ _).symm
  · have hlt := h.leftMaxTail_lt.trans hlength
    refine ⟨state.leftMaxTail, state.maxTail + num.toInt, ⟨?_, hlt, ?_⟩, ?_⟩
    · rw [ints_append, ints_singleton]
      exact isGreatest_suffixSums_append_of_nonneg h.kept.tail (not_lt.mp hneg) num.toInt
    · rw [ints_append, List.drop_append_of_le_length, List.sum_append, h.tail_sum, ints_singleton,
        List.sum_singleton]
      rw [length_ints]
      exact h.leftMaxTail_lt.le
    · rw [boundedStep, if_neg hneg, hnum, Option.bind_eq_bind, Option.bind_some]
      exact (apply_ite some _ _ _).symm

/-- The bounds move where the sum is greater. -/
theorem Tracks.nextState {state : Bounded} (h : Tracks done state) {leftMaxTail : ℕ} {maxTail : ℤ}
    (htail : TailAt (done ++ [num]) leftMaxTail maxTail) :
    Tracks (done ++ [num]) (nextState state done.length leftMaxTail maxTail) := by
  have hkept := h.kept.append htail.isGreatest
  have hlength : (done ++ [num]).length = done.length + 1 := by
    rw [List.length_append, List.length_singleton]
  have hlt := htail.lt
  rw [MaximumSubarray.nextState]
  split
  next hgt =>
    rw [max_eq_right hgt.le] at hkept
    refine ⟨hkept, hlt, htail.sum_eq, by dsimp only; omega, by dsimp only; omega, ?_⟩
    rw [between_last]
    exact htail.sum_eq
  next hle =>
    rw [max_eq_left (not_lt.mp hle)] at hkept
    have hright := h.right_lt
    refine ⟨hkept, hlt, htail.sum_eq, h.left_le, by dsimp only; omega, ?_⟩
    rw [between_append hright h.left_le]
    exact h.sum_eq

theorem foldlM_boundedStep {state : Bounded} (h : Tracks done state) (hnums : nums = done ++ rest) :
    ∃ state', (List.range' done.length rest.length).foldlM (boundedStep nums) state = some state' ∧
      Tracks nums state' := by
  induction rest generalizing done state with
  | nil =>
    rw [List.append_nil] at hnums
    exact ⟨state, rfl, hnums ▸ h⟩
  | cons num rest ih =>
    have hnum : nums[done.length]? = some num := by
      rw [hnums, List.getElem?_append_right le_rfl, Nat.sub_self, List.getElem?_cons_zero]
    obtain ⟨leftMaxTail, maxTail, htail, hstep⟩ := boundedStep_eq h hnum
    have hrest := ih (h.nextState htail) (by rw [hnums, List.append_assoc, List.singleton_append])
    rw [List.length_append, List.length_singleton] at hrest
    rwa [List.length_cons, List.range'_succ, List.foldlM_cons, hstep, Option.bind_eq_bind,
      Option.bind_some]

theorem tracks_singleton (num : Int32) :
    Tracks [num] ⟨0, 0, 0, num.toInt, num.toInt⟩ :=
  ⟨kept_singleton num, Nat.one_pos, List.sum_singleton, le_rfl, Nat.one_pos, List.sum_singleton⟩

/-- The greatest sum is found by both, and the bounds are those of a subarray that has it. -/
theorem maxSubArray_spec (hnums : nums ≠ []) (left right : ℕ) :
    IsGreatest (segmentSums (ints nums)) (maxSubArray nums) ∧
      ∃ left' right', maxSubArrayBounds nums left right = some (maxSubArray nums, left', right') ∧
        left' ≤ right' ∧ right' < nums.length ∧
        (between nums left' right').sum = maxSubArray nums := by
  refine ⟨maxSubArray_isGreatest hnums, ?_⟩
  obtain ⟨num, rest, rfl⟩ := List.exists_cons_of_ne_nil hnums
  have hnil : num :: rest = [num] ++ rest := rfl
  obtain ⟨state, hloop, h⟩ := foldlM_boundedStep (tracks_singleton num) hnil
  have hmaximum : state.maximum = maxSubArray (num :: rest) :=
    h.kept.segment.unique (maxSubArray_isGreatest hnums)
  refine ⟨state.left, state.right, ?_, h.left_le, h.right_lt, h.sum_eq.trans hmaximum⟩
  rw [maxSubArrayBounds, if_neg (by exact Nat.succ_ne_zero rest.length), List.getElem?_cons_zero,
    Option.bind_eq_bind, Option.bind_some, List.length_cons, Nat.add_sub_cancel]
  rw [List.length_singleton] at hloop
  rw [hloop, Option.bind_eq_bind, Option.bind_some, hmaximum]
  rfl

theorem maxSubArray_spec_four :
    IsGreatest (segmentSums (ints [-2, 1, -3, 4])) (maxSubArray [-2, 1, -3, 4]) ∧
      ∃ left' right',
        maxSubArrayBounds [-2, 1, -3, 4] 0 0 = some (maxSubArray [-2, 1, -3, 4], left', right') ∧
        left' ≤ right' ∧ right' < [-2, 1, -3, 4].length ∧
        (between [-2, 1, -3, 4] left' right').sum = maxSubArray [-2, 1, -3, 4] :=
  maxSubArray_spec (List.cons_ne_nil _ _) 0 0

end CppLearn.Leetcode.MaximumSubarray
