import CppLearn.Foundation.SignMarks
import Mathlib.Algebra.Ring.Int.Defs

/-!
# Finding duplicates in place

`findDuplicates` goes through an array while it negates entries of it: the entry at the place that a
value is the number of is negative where the value has been seen. The value that is read at a place
may have been negated before, which `abs` undoes.
-/

set_option autoImplicit false
set_option relaxedAutoImplicit false

namespace CppLearn.Leetcode.FindDuplicates

open Foundation.SignMarks

/-! ### The program -/

/-- `abs` of an `int`, which overflows for the least one. -/
def absOf (n : ℤ) : Option ℕ := if n = -2 ^ 31 then none else some n.natAbs

/-- `nums[value-1]`, where the index has the type of sizes. -/
def entryAt (nums : List ℤ) (value : ℕ) : Option ℤ := if value = 0 then none else nums[value - 1]?

variable {State : Type}

/-- A round of the loop over the array, which `findErrorNums` has as well: what is done with a value
that has been seen is its own. -/
def markStep (found : State → ℕ → State) (state : List ℤ × State) (indx : ℕ) :
    Option (List ℤ × State) := do
  let (nums, result) := state
  let n ← nums[indx]?
  let value ← absOf n
  let entry ← entryAt nums value
  if entry < 0 then some (nums, found result value)
  else some (nums.set (value - 1) (entry * -1), result)

def markLoop (found : State → ℕ → State) (nums : List ℤ) (result : State) :
    Option (List ℤ × State) :=
  (List.range nums.length).foldlM (markStep found) (nums, result)

def findDuplicates (nums : List ℤ) : Option (List ℤ) := do
  let (_, dups) ← markLoop (fun dups value ↦ dups ++ [(value : ℤ)]) nums []
  return dups

/-! ### The loop -/

/-- The values, each an `int`, are numbers of places. -/
def InRange (nums : List ℤ) : Prop := ∀ num ∈ nums, 1 ≤ num ∧ num ≤ nums.length ∧ num < 2 ^ 31

variable {nums front rest : List ℤ} {val : ℤ} {found : State → ℕ → State} {result : State}

/-- A round marks the place of a value, or finds it marked. -/
theorem markStep_eq (hrange : InRange nums) (hnums : nums = front ++ val :: rest) :
    markStep found (marked nums front, result) front.length =
      some (marked nums (front ++ [val]),
        if val ∈ front then found result val.natAbs else result) := by
  have hmem : val ∈ nums := hnums ▸ List.mem_append_right front List.mem_cons_self
  obtain ⟨hge, hle, hint⟩ := hrange val hmem
  have hval : nums[front.length]? = some val := by
    rw [hnums, List.getElem?_append_right (Nat.le_refl _), Nat.sub_self, List.getElem?_cons_zero]
  obtain ⟨place, rfl⟩ : ∃ place : ℕ, val = (place + 1 : ℤ) :=
    ⟨(val - 1).toNat, by omega⟩
  have habs : absOf (if ((front.length : ℕ) + 1 : ℤ) ∈ front then -(place + 1 : ℤ) else place + 1) =
      some (place + 1) := by
    rw [absOf, natAbs_marked, if_neg (by split <;> omega)]
    exact congrArg some (by omega)
  have hplace : (place + 1 : ℤ).natAbs = place + 1 := by omega
  have hlt : place < nums.length := by omega
  have hentry := List.getElem?_eq_getElem hlt
  have hpos : 0 < nums[place] := by
    have hpositive := (hrange _ (List.getElem_mem hlt)).1
    omega
  rw [markStep, getElem?_marked hval, Option.bind_eq_bind, Option.bind_some, habs,
    Option.bind_eq_bind, Option.bind_some, entryAt, if_neg (Nat.succ_ne_zero place),
    Nat.add_sub_cancel, getElem?_marked hentry, Option.bind_some, hplace]
  by_cases hmem : (place + 1 : ℤ) ∈ front
  · rw [if_pos ((marked_neg_iff hpos).mpr hmem), marked_of_mem hmem, if_pos hmem]
  · rw [if_neg (mt (marked_neg_iff hpos).mp hmem), if_neg hmem, if_neg hmem,
      ← set_marked hentry front, Int.mul_neg, Int.mul_one]

/-- The loop does something with each value that is repeated. -/
theorem markLoop_from (hrange : InRange nums) (hnums : nums = front ++ rest) :
    (List.range' front.length rest.length).foldlM (markStep found) (marked nums front, result) =
      some (marked nums nums,
        (repeats front rest).foldl (fun result val ↦ found result val.natAbs) result) := by
  induction rest generalizing front result with
  | nil =>
    rw [List.append_nil] at hnums
    rw [hnums]
    rfl
  | cons val rest ih =>
    have hnext : nums = (front ++ [val]) ++ rest := by
      rw [hnums, List.append_assoc, List.singleton_append]
    rw [List.length_cons, List.range'_succ, List.foldlM_cons, markStep_eq hrange hnums,
      Option.bind_eq_bind, Option.bind_some]
    have hrest :=
      @ih (front ++ [val]) (if val ∈ front then found result val.natAbs else result) hnext
    rw [List.length_append, List.length_singleton] at hrest
    rw [hrest, repeats]
    split
    · rw [List.foldl_cons]
    · rfl

theorem markLoop_eq (hrange : InRange nums) :
    markLoop found nums result = some (marked nums nums,
      (repeats [] nums).foldl (fun result val ↦ found result val.natAbs) result) := by
  have hloop := @markLoop_from State nums [] nums found result hrange rfl
  rw [marked_nil, List.length_nil, ← List.range_eq_range'] at hloop
  exact hloop

/-! ### The duplicates -/

theorem mem_repeats {seen : List ℤ} (hmem : val ∈ repeats seen rest) : val ∈ rest := by
  have hcount := List.count_pos_iff.mpr hmem
  rw [count_repeats] at hcount
  exact List.count_pos_iff.mp (by omega)

theorem findDuplicates_eq (hrange : InRange nums) :
    findDuplicates nums = some (repeats [] nums) := by
  have hdups (vals dups : List ℤ) (hpos : ∀ val ∈ vals, 0 < val) :
      vals.foldl (fun dups val ↦ dups ++ [((val.natAbs : ℕ) : ℤ)]) dups = dups ++ vals := by
    induction vals generalizing dups with
    | nil => rw [List.foldl_nil, List.append_nil]
    | cons val vals ih =>
      rw [List.foldl_cons, ih _ (fun other hmem ↦ hpos other (List.mem_cons_of_mem val hmem)),
        List.append_assoc, List.singleton_append,
        Int.natAbs_of_nonneg (le_of_lt (hpos val List.mem_cons_self))]
  have hpos : ∀ val ∈ repeats [] nums, 0 < val := fun val hmem ↦
    (hrange val (mem_repeats hmem)).1
  rw [findDuplicates, markLoop_eq hrange, Option.bind_eq_bind, Option.bind_some,
    hdups _ _ hpos, List.nil_append]
  rfl

/-- The values that occur twice are found, each once. -/
theorem findDuplicates_spec (hrange : InRange nums) (htwice : ∀ val, nums.count val ≤ 2) :
    ∃ dups, findDuplicates nums = some dups ∧ dups.Nodup ∧
      ∀ val, val ∈ dups ↔ nums.count val = 2 := by
  refine ⟨repeats [] nums, findDuplicates_eq hrange, ?_, fun val ↦ ?_⟩
  · rw [List.nodup_iff_count]
    intro val
    have hle := htwice val
    rw [count_repeats_nil]
    omega
  · have hle := htwice val
    rw [← List.count_pos_iff, count_repeats_nil]
    omega

theorem findDuplicates_spec_four :
    ∃ dups, findDuplicates [4, 3, 4, 3] = some dups ∧ dups.Nodup ∧
      ∀ val, val ∈ dups ↔ [4, 3, 4, 3].count val = 2 := by
  refine findDuplicates_spec (by unfold InRange; decide) fun val ↦ ?_
  by_cases hmem : val ∈ ([4, 3, 4, 3] : List ℤ)
  · revert val
    decide
  · rw [List.count_eq_zero_of_not_mem hmem]
    exact Nat.zero_le 2

end CppLearn.Leetcode.FindDuplicates
