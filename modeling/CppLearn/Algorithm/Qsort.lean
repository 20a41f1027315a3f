import CppLearn.Algorithm.Partition

/-!
# Quick sort

`qsort` sorts a range around the median of its first, middle and last element. The left call keeps the
pivot, which may have gone to the last position, and then is made on the range of the call itself. The
last element is then greater than all others, so that the median of three is another one the next time:
twice the length of the range and one more bounds the depth of the calls.

The public entry takes the last index to be one less than the number of elements, and reads an element
that is not there when there are none.
-/

set_option autoImplicit false
set_option relaxedAutoImplicit false

namespace CppLearn.Algorithm.Qsort

open Algorithm.Partition Foundation.VectorAccess

universe u

variable {α : Type u} [LinearOrder α]

/-! ### The program -/

/-- `median_of_three_pivot`, with the vector afterwards. -/
def medianOfThreePivot (nums : List α) (begin last : ℕ) : Except Fault (α × List α) := do
  let mid := wrap (begin + last) / 2
  let atBegin ← load nums begin
  let atMid ← load nums mid
  let atLast ← load nums last
  let pos :=
    if atBegin ≤ atMid ∧ atMid ≤ atLast then mid
    else if atBegin ≤ atLast ∧ atLast ≤ atMid then last
    else begin
  let nums ← swap nums pos begin
  let pivot ← load nums begin
  return (pivot, nums)

def partition (nums : List α) (begin last : ℕ) : Except Fault (ℕ × List α) := do
  let (pivot, nums) ← medianOfThreePivot nums begin last
  partitionAround nums begin last pivot

/-- `qsort` on a range, with a limit on the depth of its calls. -/
def qsortRange : ℕ → List α → ℕ → ℕ → Except Fault (List α)
  | 0, _, _, _ => .error .outOfFuel
  | fuel + 1, nums, begin, last =>
    if begin < last then do
      let (pos, nums) ← partition nums begin last
      let nums ← qsortRange fuel nums begin pos
      qsortRange fuel nums (wrap (pos + 1)) last
    else .ok nums

/-- `qsort` on a vector. -/
def qsort (fuel : ℕ) (nums : List α) : Except Fault (List α) :=
  qsortRange fuel nums 0 (wrapSub nums.length 1)

/-! ### The pivot -/

/-- The last element is greater than all others. -/
def LastGreatest (range : List α) : Prop :=
  ∃ others greatest, range = others ++ [greatest] ∧ ∀ num ∈ others, num < greatest

variable {before range after : List α} {nums : List α} {begin last : ℕ}

theorem LastGreatest.lt {indx : ℕ} (h : LastGreatest range) (hindx : indx + 1 < range.length) :
    range[indx] < range[range.length - 1] := by
  obtain ⟨others, greatest, rfl, hless⟩ := h
  have hlength : (others ++ [greatest]).length = others.length + 1 := List.length_append
  have hother : indx < others.length := by omega
  have hlast : (others ++ [greatest])[(others ++ [greatest]).length - 1] = greatest := by
    simp only [hlength, Nat.add_sub_cancel, List.getElem_concat_length]
  rw [hlast, List.getElem_append_left hother]
  exact hless _ (List.getElem_mem hother)

/-- The pivot is an element of the range, and not its last one when that is greater than all others. -/
theorem medianOfThreePivot_spec (hnums : nums = before ++ range ++ after)
    (hlength : nums.length < 2 ^ 63) (hbegin : begin = before.length)
    (hlast : last + 1 = begin + range.length) (hlt : begin < last) :
    ∃ pivot rest, medianOfThreePivot nums begin last =
        .ok (pivot, before ++ pivot :: rest ++ after) ∧ (pivot :: rest).Perm range ∧
      (LastGreatest range → ∃ num ∈ range, pivot < num) := by
  have hcount := length_of_range hnums hbegin
  obtain ⟨middle, hmiddle⟩ : ∃ middle, (begin + last) / 2 = begin + middle :=
    ⟨(begin + last) / 2 - begin, by omega⟩
  have hmid : wrap (begin + last) / 2 = begin + middle := by rw [wrap_of_lt (by omega), hmiddle]
  have hmiddleLt : middle + 1 < range.length := by omega
  have hbeginLt : 0 < range.length := by omega
  have hlastLt : range.length - 1 < range.length := by omega
  have hend : last = begin + (range.length - 1) := by omega
  have hload {indx : ℕ} (hindx : indx < range.length) : load nums (begin + indx) = .ok range[indx] := by
    rw [hnums, hbegin]
    exact load_range before after hindx
  have hloadBegin : load nums begin = .ok range[0] := hload hbeginLt
  have hloadLast : load nums last = .ok range[range.length - 1] := by
    rw [hend]
    exact hload hlastLt
  -- The position of the pivot, by its distance from the begin.
  obtain ⟨indx, hindx, hpos, hgreatest⟩ : ∃ indx, ∃ hindx : indx < range.length,
      (if range[0] ≤ range[middle] ∧ range[middle] ≤ range[range.length - 1] then begin + middle
        else if range[0] ≤ range[range.length - 1] ∧ range[range.length - 1] ≤ range[middle] then last
        else begin) = begin + indx ∧ (LastGreatest range → indx + 1 < range.length) := by
    by_cases hfirst : range[0] ≤ range[middle] ∧ range[middle] ≤ range[range.length - 1]
    · exact ⟨middle, by omega, if_pos hfirst, fun _ ↦ hmiddleLt⟩
    by_cases hsecond :
        range[0] ≤ range[range.length - 1] ∧ range[range.length - 1] ≤ range[middle]
    · refine ⟨range.length - 1, hlastLt, ?_, fun h ↦ ?_⟩
      · rw [if_neg hfirst, if_pos hsecond, hend]
      · exact absurd hsecond.2 (not_le.mpr (h.lt hmiddleLt))
    · refine ⟨0, hbeginLt, ?_, fun _ ↦ by omega⟩
      rw [if_neg hfirst, if_neg hsecond, Nat.add_zero]
  obtain ⟨rest, hswap, hperm⟩ := swap_begin before after hindx
  rw [← hnums, ← hbegin] at hswap
  refine ⟨range[indx], rest, ?_, hperm, fun h ↦
    ⟨_, List.getElem_mem hlastLt, h.lt (hgreatest h)⟩⟩
  have hpivot : load (before ++ range[indx] :: rest ++ after) begin = .ok range[indx] := by
    rw [hbegin, List.append_assoc]
    exact load_append ..
  rw [medianOfThreePivot, hmid, hloadBegin, ok_bind, hload (by omega), ok_bind, hloadLast, ok_bind]
  simp only [hpos, hswap, ok_bind, hpivot]
  rfl

theorem partition_spec (hnums : nums = before ++ range ++ after)
    (hlength : nums.length < 2 ^ 63) (hbegin : begin = before.length)
    (hlast : last + 1 = begin + range.length) (hlt : begin < last) :
    ∃ lows pivot highs, partition nums begin last =
        .ok (begin + lows.length, before ++ lows ++ pivot :: highs ++ after) ∧
      Splits range lows pivot highs ∧ (LastGreatest range → highs ≠ []) := by
  obtain ⟨pivot, rest, hpivot, hperm, hgreatest⟩ :=
    medianOfThreePivot_spec hnums hlength hbegin hlast hlt
  obtain ⟨lows, highs, hpartition, hsplits⟩ :=
    partitionAround_spec hperm (hnums ▸ hlength) hbegin hlast
  refine ⟨lows, pivot, highs, ?_, hsplits, fun h hempty ↦ ?_⟩
  · rw [partition, hpivot]
    exact hpartition
  · -- An element above the pivot cannot be among those that are not.
    obtain ⟨num, hnum, hless⟩ := hgreatest h
    have hmem := hsplits.perm.mem_iff.mpr hnum
    rw [hempty] at hmem
    rcases List.mem_append.mp hmem with hlow | hsame
    · exact lt_asymm hless (hsplits.lows_lt num hlow)
    · rw [List.mem_singleton.mp hsame] at hless
      exact lt_irrefl _ hless

/-! ### The sort -/

theorem lastGreatest_lows {lows highs : List α} {pivot : α} (hsplits : Splits range lows pivot highs) :
    LastGreatest (lows ++ [pivot]) := ⟨lows, pivot, rfl, hsplits.lows_lt⟩

/-- Sorted parts on both sides of the pivot make a sorted range. -/
theorem pairwise_of_splits {lows highs left right : List α} {pivot : α}
    (hsplits : Splits range lows pivot highs) (hleft : left.Perm (lows ++ [pivot]))
    (hright : right.Perm highs) (hleftSorted : left.Pairwise (· ≤ ·))
    (hrightSorted : right.Pairwise (· ≤ ·)) : (left ++ right).Pairwise (· ≤ ·) := by
  refine List.pairwise_append.mpr ⟨hleftSorted, hrightSorted, fun num hnum other hother ↦ ?_⟩
  have hhigh : pivot ≤ other := hsplits.le_highs other (hright.mem_iff.mp hother)
  rcases List.mem_append.mp (hleft.mem_iff.mp hnum) with hlow | hsame
  · exact (hsplits.lows_lt num hlow).le.trans hhigh
  · rw [List.mem_singleton.mp hsame]
    exact hhigh

/-- A range is sorted within a depth of twice its length, and of one more where its last element is not
greater than all others. -/
theorem qsortRange_spec {fuel : ℕ} (hnums : nums = before ++ range ++ after)
    (hlength : nums.length < 2 ^ 63) (hbegin : begin = before.length)
    (hlast : last + 1 = begin + range.length)
    (hfuel : 2 * range.length < fuel ∨ 2 * range.length ≤ fuel ∧ LastGreatest range) :
    ∃ sorted, qsortRange fuel nums begin last = .ok (before ++ sorted ++ after) ∧
      sorted.Perm range ∧ sorted.Pairwise (· ≤ ·) := by
  induction fuel generalizing nums before range after begin last with
  | zero =>
    obtain hfuel | ⟨hfuel, others, greatest, rfl, -⟩ := hfuel
    · exact absurd hfuel (Nat.not_lt_zero _)
    · rw [List.length_append, List.length_singleton] at hfuel
      omega
  | succ fuel ih =>
    by_cases hlt : begin < last
    · obtain ⟨lows, pivot, highs, hpartition, hsplits, hhighs⟩ :=
        partition_spec hnums hlength hbegin hlast hlt
      have hcount := hsplits.length_eq
      have hdepth : 2 * (lows.length + 1) ≤ fuel := by
        obtain hfuel | ⟨hfuel, hgreatest⟩ := hfuel
        · omega
        · have hpos := List.length_pos_iff.mpr (hhighs hgreatest)
          omega
      have hsame : (before ++ lows ++ pivot :: highs ++ after).length = nums.length := by
        rw [hnums]
        simp only [List.length_append, List.length_cons]
        omega
      have hleftNums : before ++ lows ++ pivot :: highs ++ after =
          before ++ (lows ++ [pivot]) ++ (highs ++ after) := by
        simp only [List.append_assoc, List.cons_append, List.nil_append]
      have hlowsLength : (lows ++ [pivot]).length = lows.length + 1 := List.length_append
      obtain ⟨left, hleft, hleftPerm, hleftSorted⟩ :=
        @ih before (lows ++ [pivot]) (highs ++ after) _ begin (begin + lows.length) hleftNums
          (hsame ▸ hlength) hbegin (by rw [hlowsLength, Nat.add_assoc])
          (Or.inr ⟨by rwa [hlowsLength], lastGreatest_lows hsplits⟩)
      have hleftLength : left.length = lows.length + 1 := hleftPerm.length_eq.trans hlowsLength
      obtain ⟨right, hright, hrightPerm, hrightSorted⟩ :=
        @ih (before ++ left) highs after _ (begin + lows.length + 1) last rfl
          (by
            rw [← hsame] at hlength
            simp only [List.length_append, List.length_cons, hleftLength] at hlength ⊢
            omega)
          (by rw [List.length_append, hleftLength, hbegin, Nat.add_assoc]) (by omega)
          (Or.inl (by omega))
      have hposLt : begin + lows.length + 1 < 2 ^ 64 := by
        rw [← hsame] at hlength
        simp only [List.length_append, List.length_cons, ← hbegin] at hlength
        omega
      refine ⟨left ++ right, ?_, ?_,
        pairwise_of_splits hsplits hleftPerm hrightPerm hleftSorted hrightSorted⟩
      · rw [qsortRange, if_pos hlt, hpartition]
        simp only [ok_bind]
        rw [hleft, ok_bind, wrap_of_lt hposLt, ← List.append_assoc, hright, ← List.append_assoc]
      · refine ((hleftPerm.append hrightPerm).trans ?_).trans hsplits.perm
        rw [List.append_assoc]
        rfl
    · refine ⟨range, ?_, .refl _, ?_⟩
      · rw [qsortRange, if_neg hlt, hnums]
      · rcases range with _ | ⟨num, _ | ⟨other, rest⟩⟩
        · exact .nil
        · exact List.pairwise_singleton ..
        · simp only [List.length_cons] at hlast
          omega

/-- A limit that does not stop the sort does not matter. -/
theorem qsortRange_settles (fuel : ℕ) (nums : List α) (begin last : ℕ) :
    SettlesAt (fun fuel ↦ qsortRange fuel nums begin last) fuel := by
  induction fuel generalizing nums begin last with
  | zero => exact fun hfuel ↦ absurd rfl hfuel
  | succ fuel ih =>
    change SettlesAt (fun fuel ↦ qsortRange (fuel + 1) nums begin last) fuel
    simp only [qsortRange]
    by_cases hlt : begin < last
    · simp only [if_pos hlt]
      refine (settlesAt_const _ fuel).bind fun ⟨pos, nums⟩ ↦ ?_
      exact (ih nums begin pos).bind fun nums ↦ ih nums (wrap (pos + 1)) last
    · simp only [if_neg hlt]
      exact settlesAt_const _ fuel

/-! ### Results -/

/-- The elements from one index up to another. -/
def slice (nums : List α) (begin last : ℕ) : List α := (nums.take (last + 1)).drop begin

/-- The range has been sorted, and all else left. -/
structure SortsRange (nums : List α) (begin last : ℕ) (result : List α) : Prop where
  before_eq : result.take begin = nums.take begin
  after_eq : result.drop (last + 1) = nums.drop (last + 1)
  perm : (slice result begin last).Perm (slice nums begin last)
  sorted : (slice result begin last).Pairwise (· ≤ ·)

omit [LinearOrder α] in
theorem eq_append_slice (hle : begin ≤ last + 1) :
    nums = nums.take begin ++ slice nums begin last ++ nums.drop (last + 1) := by
  have htake : (nums.take (last + 1)).take begin = nums.take begin := by
    rw [List.take_take, Nat.min_eq_left hle]
  rw [slice, ← htake, List.take_append_drop, List.take_append_drop]

omit [LinearOrder α] in
theorem slice_append (hbegin : before.length = begin) (hlast : begin + range.length = last + 1) :
    slice (before ++ range ++ after) begin last = range := by
  rw [slice, ← hlast, ← hbegin, ← List.length_append, List.take_left, List.drop_left]

/-- `qsort` sorts the range it is called on, and returns. -/
theorem qsortRange_sorts (nums : Elements α) {begin last : ℕ} (hle : begin ≤ last)
    (hlast : last < nums.val.length) :
    ∃ result, Returns (fun fuel ↦ qsortRange fuel nums.val begin last) result ∧
      SortsRange nums.val begin last result := by
  have hbegin : (nums.val.take begin).length = begin := List.length_take_of_le (by omega)
  have hslice : (slice nums.val begin last).length = last + 1 - begin := by
    rw [slice, List.length_drop, List.length_take_of_le hlast]
  have hsplit := @eq_append_slice _ nums.val begin last (by omega)
  obtain ⟨sorted, hsort, hperm, hsorted⟩ :=
    qsortRange_spec hsplit nums.property hbegin.symm
      (by omega : last + 1 = begin + (slice nums.val begin last).length)
      (Or.inl (Nat.lt_succ_self (2 * (slice nums.val begin last).length)))
  have hcount : (nums.val.take begin ++ sorted).length = last + 1 := by
    rw [List.length_append, hbegin, hperm.length_eq, hslice]
    omega
  have hresult := @slice_append _ _ sorted (nums.val.drop (last + 1)) _ last hbegin <| by
    rw [← hcount, List.length_append, hbegin]
  refine ⟨_, returns_of_settles (fun fuel ↦ qsortRange_settles fuel nums.val begin last) hsort,
    ?_, ?_, ?_, ?_⟩
  · rw [List.append_assoc, List.take_left' hbegin]
  · rw [List.drop_left' hcount]
  · rw [hresult]
    exact hperm
  · rw [hresult]
    exact hsorted

/-- The second half of a vector, sorted. -/
theorem qsortRange_sorts_four :
    ∃ result, Returns (fun fuel ↦ qsortRange fuel [4, 3, 2, 1] 2 3) result ∧
      SortsRange [4, 3, 2, 1] 2 3 result :=
  qsortRange_sorts ⟨[4, 3, 2, 1], by decide⟩ (by decide) (by decide)

/-- No access of `qsort` to an element is outside the vector. -/
def IndexSafe (nums : List α) : Prop := ∀ fuel indx, qsort fuel nums ≠ .error (.outOfRange indx)

/-- On an empty vector the last index wraps, and the pivot is looked for. -/
theorem qsort_nil (fuel : ℕ) : qsort (fuel + 1) ([] : List α) = .error (.outOfRange 0) := by
  have hlast : 0 < wrapSub ([] : List α).length 1 := by
    rw [List.length_nil]
    decide
  have hload : load ([] : List α) 0 = .error (.outOfRange 0) := load_of_le (Nat.zero_le 0)
  rw [qsort, qsortRange, if_pos hlast, partition, medianOfThreePivot, hload, error_bind, error_bind,
    error_bind]

/-- All accesses are inside the vector exactly when it is not empty. -/
theorem indexSafe_iff (nums : Elements α) : IndexSafe nums.val ↔ nums.val ≠ [] := by
  constructor
  · intro hsafe hempty
    exact hsafe 1 0 (hempty ▸ qsort_nil 0)
  · intro hne fuel indx hfault
    have hpos := List.length_pos_iff.mpr hne
    have hlast : wrapSub nums.val.length 1 = nums.val.length - 1 :=
      wrapSub_of_le hpos (nums.property.trans (by decide))
    obtain ⟨result, hreturns, -⟩ :=
      qsortRange_sorts nums (Nat.zero_le (nums.val.length - 1)) (by omega)
    rw [qsort, hlast] at hfault
    exact ne_outOfRange_of_returns (fun fuel ↦ qsortRange_settles fuel nums.val 0 _) hreturns fuel
      indx hfault

theorem not_indexSafe_nil : ¬ IndexSafe ([] : List ℤ) := fun hsafe ↦ hsafe 1 0 (qsort_nil 0)

end CppLearn.Algorithm.Qsort
