import CppLearn.Foundation.Arrangements
import CppLearn.Foundation.VectorAccess
import Mathlib.Data.List.Induction

/-!
# The next permutation

`nextPermutation` looks from the end for an element that is less than the one behind it, exchanges
it for the last one that is greater, and reverses what is behind it. Iterators are indices; one that
is moved before the first element, or read at the end, stops the run with a fault.
-/

set_option autoImplicit false
set_option relaxedAutoImplicit false

namespace CppLearn.Leetcode.NextPermutation

open Foundation.Arrangements Foundation.VectorAccess

/-! ### The program -/

/-- `--itr`. -/
def prev : ℕ → Except Fault ℕ
  | 0 => .error (.outOfRange (wrapSub 0 1))
  | itr + 1 => .ok itr

/-- The first loop: `pos` after it. -/
def scanLoop (nums : List ℤ) : ℕ → Except Fault ℕ
  | 0 => .ok 0
  | itr + 1 => do
    let left ← load nums itr
    let right ← load nums (itr + 1)
    if left ≥ right then scanLoop nums itr else .ok (itr + 1)

/-- The second loop: `itr` after it. -/
def findLoop (nums : List ℤ) (pivot : ℕ) : ℕ → Except Fault ℕ
  | 0 => do
    let num ← load nums 0
    let pivotNum ← load nums pivot
    if num ≤ pivotNum then prev 0 else .ok 0
  | itr + 1 => do
    let num ← load nums (itr + 1)
    let pivotNum ← load nums pivot
    if num ≤ pivotNum then findLoop nums pivot itr else .ok (itr + 1)

/-- The branch for an element that is less than the one behind it. -/
def swapPivot (nums : List ℤ) (pos last : ℕ) : Except Fault (List ℤ) :=
  if pos > 0 then do
    let pivot ← prev pos
    let itr ← findLoop nums pivot last
    swap nums pivot itr
  else .ok nums

/-- `reverse(pos, nums.end())`. -/
def reverseFrom (nums : List ℤ) (pos : ℕ) : List ℤ := nums.take pos ++ (nums.drop pos).reverse

def nextPermutation (nums : List ℤ) : Except Fault (List ℤ) := do
  let last ← prev nums.length
  let pos ← scanLoop nums last
  let nums ← swapPivot nums pos last
  return reverseFrom nums pos

/-! ### The loops -/

variable {nums front large small : List ℤ} {pivot num : ℤ}

/-- The first loop ends at the longest part at the end that descends. -/
theorem scanLoop_spec {rest : List ℤ} (front : List ℤ)
    (hdescending : (num :: rest).Pairwise (· ≥ ·)) :
    ∃ front' first suffix, front ++ num :: rest = front' ++ first :: suffix ∧
      (first :: suffix).Pairwise (· ≥ ·) ∧ (∀ pivot ∈ front'.getLast?, pivot < first) ∧
      scanLoop (front ++ num :: rest) front.length = .ok front'.length := by
  induction front using List.reverseRecOn generalizing num rest with
  | nil => exact ⟨[], num, rest, rfl, hdescending, nofun, rfl⟩
  | append_singleton front left ih =>
    have hright := load_append (front ++ [left]) num rest
    rw [List.length_append, List.length_singleton] at hright ⊢
    rw [scanLoop, hright]
    rw [List.append_assoc, List.singleton_append, load_append, ok_bind, ok_bind]
    by_cases hge : left ≥ num
    · rw [if_pos hge]
      refine ih (List.pairwise_cons.mpr ⟨List.forall_mem_cons.mpr ⟨hge, fun other hother ↦ ?_⟩,
        hdescending⟩)
      exact hge.trans' ((List.pairwise_cons.mp hdescending).1 other hother)
    · rw [if_neg hge]
      refine ⟨front ++ [left], num, rest, ?_, hdescending, fun pivot hpivot ↦ ?_, ?_⟩
      · rw [List.append_assoc, List.singleton_append]
      · rw [List.getLast?_concat] at hpivot
        cases hpivot
        exact not_le.mp hge
      · rw [List.length_append, List.length_singleton]

/-- The second loop ends at the last element that is greater than the pivot. -/
theorem findLoop_spec {behind : List ℤ} (front : List ℤ) (hbehind : ∃ num ∈ behind, pivot < num)
    (hsmall : ∀ num ∈ small, num ≤ pivot) :
    ∃ large next small', behind ++ small = large ++ next :: small' ∧ pivot < next ∧
      (∀ num ∈ small', num ≤ pivot) ∧
      findLoop (front ++ pivot :: (behind ++ small)) front.length (front.length + behind.length) =
        .ok (front ++ pivot :: large).length := by
  induction behind using List.reverseRecOn generalizing small with
  | nil => obtain ⟨num, hmem, -⟩ := hbehind; cases hmem
  | append_singleton behind last ih =>
    rw [List.length_append, List.length_singleton, ← Nat.add_assoc, findLoop]
    have hlast := load_append (front ++ pivot :: behind) last small
    have hpivot := load_append front pivot (behind ++ last :: small)
    have hassoc : front ++ pivot :: (behind ++ [last] ++ small) =
        front ++ pivot :: behind ++ last :: small := by
      simp only [List.append_assoc, List.cons_append, List.nil_append]
    have hlength : (front ++ pivot :: behind).length = front.length + behind.length + 1 := by
      rw [List.length_append, List.length_cons, Nat.add_assoc]
    have hsplit : front ++ pivot :: behind ++ last :: small =
        front ++ pivot :: (behind ++ last :: small) := by
      rw [List.append_assoc, List.cons_append]
    rw [hlength] at hlast
    rw [hassoc, hlast, ok_bind, hsplit, hpivot, ok_bind]
    by_cases hle : last ≤ pivot
    · rw [if_pos hle, List.append_assoc, List.singleton_append]
      refine ih ?_ (List.forall_mem_cons.mpr ⟨hle, hsmall⟩)
      obtain ⟨num, hmem, hless⟩ := hbehind
      rcases List.mem_append.mp hmem with hmem | hmem
      · exact ⟨num, hmem, hless⟩
      · rw [List.mem_singleton.mp hmem] at hless
        exact absurd hless hle.not_gt
    · rw [if_neg hle]
      refine ⟨behind, last, small, ?_, not_le.mp hle, hsmall, ?_⟩
      · rw [List.append_assoc, List.singleton_append]
      · rw [hlength]

/-! ### The arrangement -/

theorem reverseFrom_append (front rest : List ℤ) :
    reverseFrom (front ++ rest) front.length = front ++ rest.reverse := by
  rw [reverseFrom, List.take_left, List.drop_left]

/-- The next arrangement, or the ascending one behind the greatest, without a fault. -/
theorem nextPermutation_spec (hnums : nums ≠ []) :
    ∃ result, nextPermutation nums = .ok result ∧
      (IsNext nums result ∨
        (∀ other : List ℤ, other.Perm nums → other ≤ nums) ∧
          result.Perm nums ∧ result.Pairwise (· ≤ ·)) := by
  obtain ⟨init, last, rfl⟩ := (List.eq_nil_or_concat' nums).resolve_left hnums
  obtain ⟨front, first, suffix, hsplit, hdescending, hpivot, hscan⟩ :=
    scanLoop_spec init (List.pairwise_singleton (· ≥ ·) last)
  have hlength : (init ++ [last]).length = init.length + 1 := by
    rw [List.length_append, List.length_singleton]
  rw [nextPermutation, hlength, prev, ok_bind, hscan, ok_bind]
  rw [hsplit] at hlength ⊢
  cases front using List.reverseRecOn with
  | nil =>
    refine ⟨(first :: suffix).reverse, rfl, .inr ⟨fun other ↦ ge_of_descending hdescending,
      List.reverse_perm _, ?_⟩⟩
    rwa [List.pairwise_reverse]
  | append_singleton front pivot =>
    rw [List.getLast?_concat] at hpivot
    have hless : pivot < first := hpivot pivot rfl
    obtain ⟨large, next, small, hbehind, hnext, hsmall, hfind⟩ :=
      @findLoop_spec [] pivot (first :: suffix) front ⟨first, List.mem_cons_self, hless⟩
        (List.forall_mem_nil _)
    rw [List.append_nil] at hbehind hfind
    rw [List.append_assoc, List.singleton_append] at hlength ⊢
    have hinit : init.length = front.length + (first :: suffix).length := by
      rw [List.length_append, List.length_cons] at hlength
      omega
    rw [hbehind] at hdescending hfind hinit ⊢
    have hswap := swap_append front pivot large next small
    have hleft : front ++ next :: large ++ pivot :: small =
        (front ++ [next]) ++ (large ++ pivot :: small) := by
      simp only [List.append_assoc, List.cons_append, List.nil_append]
    refine ⟨front ++ next :: (large ++ pivot :: small).reverse, ?_,
      .inl (isNext_of_split hdescending hnext hsmall front)⟩
    rw [List.append_assoc, List.cons_append] at hswap
    rw [List.length_append, List.length_singleton, swapPivot, if_pos (Nat.succ_pos _), prev,
      ok_bind, hinit, hfind, ok_bind, hswap, ok_bind, hleft]
    have hreverse := reverseFrom_append (front ++ [next]) (large ++ pivot :: small)
    rw [List.length_append, List.length_singleton] at hreverse
    rw [hreverse, List.append_assoc, List.singleton_append]
    rfl

/-- Two equal elements behind a lesser one. -/
theorem nextPermutation_three :
    ∃ result, nextPermutation [1, 5, 5] = .ok result ∧
      (IsNext [1, 5, 5] result ∨
        (∀ other : List ℤ, other.Perm [1, 5, 5] → other ≤ [1, 5, 5]) ∧
          result.Perm [1, 5, 5] ∧ result.Pairwise (· ≤ ·)) :=
  nextPermutation_spec (List.cons_ne_nil _ _)

example : nextPermutation [1, 5, 5] = .ok [5, 1, 5] := rfl

end CppLearn.Leetcode.NextPermutation
