import CppLearn.Algorithm.Partition
import CppLearn.Foundation.OrderStatistic
import Mathlib.Algebra.Ring.Int.Defs

/-!
# Selection with random pivots and with a heap

`randomized_select` narrows a range of the vector to the part in which the element of a rank lies, and
takes the rank relative to it; `rand()` may return any sequence of numbers. `heap_select` goes through
the vector once with a heap of the least elements so far. Both find the same order statistic.
-/

set_option autoImplicit false
set_option relaxedAutoImplicit false

namespace CppLearn.Algorithm.Qselect

open Algorithm.Partition Foundation.OrderStatistic Foundation.VectorAccess

universe u

variable {α : Type u} [LinearOrder α]

/-! ### The program -/

/-- What `rand()` still returns, call by call. -/
abbrev Rands := ℕ → ℕ

/-- `random_pivot`: the pivot, the vector and what `rand()` returns afterwards. -/
def randomPivot (rands : Rands) (nums : List α) (begin last : ℕ) :
    Except Fault (α × List α × Rands) :=
  if begin < last then do
    let pos := wrap (rands 0 % wrap (wrapSub last begin + 1) + begin)
    let nums ← swap nums pos begin
    let pivot ← load nums begin
    return (pivot, nums, fun call ↦ rands (call + 1))
  else do
    let pivot ← load nums begin
    return (pivot, nums, rands)

def randomizedPartition (rands : Rands) (nums : List α) (begin last : ℕ) :
    Except Fault (ℕ × List α × Rands) := do
  let (pivot, nums, rands) ← randomPivot rands nums begin last
  let (pos, nums) ← partitionAround nums begin last pivot
  return (pos, nums, rands)

/-- The loop of `randomized_select` on a range, with a limit on its rounds, and the vector afterwards. -/
def randomizedLoop : ℕ → Rands → List α → ℕ → ℕ → ℕ → ℕ → Except Fault (α × List α)
  | 0, _, _, _, _, _, _ => .error .outOfFuel
  | fuel + 1, rands, nums, pos, begin, last, k =>
    if begin ≤ last then do
      let (pos, nums, rands) ← randomizedPartition rands nums begin last
      let ordinal := wrap (wrapSub pos begin + 1)
      if k = ordinal then do
        let num ← load nums pos
        return (num, nums)
      else if k < ordinal then randomizedLoop fuel rands nums pos begin (wrapSub pos 1) k
      else randomizedLoop fuel rands nums pos (wrap (pos + 1)) last (wrapSub k ordinal)
    else do
      let num ← load nums pos
      return (num, nums)

/-- `randomized_select` on a vector, with the vector afterwards. -/
def randomizedSelect [Zero α] (fuel : ℕ) (rands : Rands) (nums : List α) (k : ℕ) :
    Except Fault (α × List α) :=
  if nums.length = 0 ∨ k = 0 then .ok (0, nums)
  else randomizedLoop fuel rands nums 0 0 (wrapSub nums.length 1) (min k nums.length)

/-- `heap.top()`, undefined on an empty heap. -/
def top (heap : List α) : Option α := heap.max?

/-- `heap.push(elem)`. -/
def push (heap : List α) (elem : α) : List α := elem :: heap

/-- `heap.pop()`. -/
def pop (heap : List α) : List α :=
  match top heap with
  | some greatest => heap.erase greatest
  | none => heap

/-- The loop of `heap_select` over the elements. -/
def heapLoop (k : ℕ) : List α → List α → ℕ → Option (List α)
  | [], heap, _ => some heap
  | elem :: nums, heap, ordinal =>
    if ordinal ≤ k then heapLoop k nums (push heap elem) (wrap (ordinal + 1))
    else do
      let greatest ← top heap
      if elem < greatest then heapLoop k nums (push (pop heap) elem) (wrap (ordinal + 1))
      else heapLoop k nums heap (wrap (ordinal + 1))

def heapSelect [Zero α] (nums : List α) (k : ℕ) : Option α :=
  if nums.length = 0 ∨ k = 0 then some 0
  else do
    let heap ← heapLoop k nums [] 1
    top heap

/-! ### The heap -/

/-- The heap has as many of the elements so far as it may, and none of the others is less than one that
it has. -/
def Keeps (k : ℕ) (seen heap : List α) : Prop :=
  ∃ rest, (heap ++ rest).Perm seen ∧ heap.length = min k seen.length ∧
    ∀ num ∈ heap, ∀ other ∈ rest, num ≤ other

theorem top_eq_some {heap : List α} (hheap : heap ≠ []) :
    ∃ greatest, top heap = some greatest ∧ greatest ∈ heap ∧ ∀ num ∈ heap, num ≤ greatest := by
  obtain ⟨greatest, hgreatest⟩ := Option.isSome_iff_exists.mp (List.isSome_max?_iff.mpr hheap)
  exact ⟨greatest, hgreatest, List.max?_eq_some_iff.mp hgreatest⟩

variable {k : ℕ} {seen heap : List α} {elem : α}

/-- While there is room every element goes into the heap. -/
theorem Keeps.push (h : Keeps k seen heap) (hroom : seen.length + 1 ≤ k) :
    Keeps k (seen ++ [elem]) (push heap elem) := by
  obtain ⟨rest, hperm, hlength, -⟩ := h
  have hall := hperm.length_eq
  rw [List.length_append] at hall
  obtain rfl : rest = [] := List.length_eq_zero_iff.mp (by omega)
  refine ⟨[], ?_, ?_, fun _ _ _ hother ↦ (List.not_mem_nil hother).elim⟩
  · rw [List.append_nil] at hperm ⊢
    exact (hperm.cons elem).trans (List.perm_append_singleton elem seen).symm
  · rw [Qselect.push, List.length_cons, List.length_append, List.length_singleton]
    omega

/-- An element that is less than the greatest of a full heap takes its place. -/
theorem Keeps.replace {greatest : α} (h : Keeps k seen heap) (hfull : k ≤ seen.length)
    (htop : top heap = some greatest) (hmem : greatest ∈ heap) (hle : ∀ num ∈ heap, num ≤ greatest)
    (hless : elem < greatest) : Keeps k (seen ++ [elem]) (Qselect.push (pop heap) elem) := by
  obtain ⟨rest, hperm, hlength, hrest⟩ := h
  have herase := List.perm_cons_erase hmem
  have hpop : pop heap = heap.erase greatest := by rw [pop, htop]
  refine ⟨greatest :: rest, ?_, ?_, ?_⟩
  · rw [hpop, Qselect.push, List.cons_append]
    refine (List.Perm.cons elem ?_).trans (List.perm_append_singleton elem seen).symm
    exact (List.perm_middle.trans (herase.symm.append_right rest)).trans hperm
  · have hcount := herase.length_eq
    rw [hpop, Qselect.push, List.length_cons, ← List.length_cons (a := greatest), ← hcount, hlength,
      List.length_append, List.length_singleton]
    omega
  · intro num hnum other hother
    have hgreatest : num ≤ greatest := by
      rcases List.mem_cons.mp hnum with rfl | hnum
      · exact hless.le
      · exact hle num (List.mem_of_mem_erase (hpop ▸ hnum))
    rcases List.mem_cons.mp hother with rfl | hother
    · exact hgreatest
    · exact hgreatest.trans (hrest greatest hmem other hother)

/-- Any other element is left out of a full heap. -/
theorem Keeps.skip {greatest : α} (h : Keeps k seen heap) (hfull : k ≤ seen.length)
    (hle : ∀ num ∈ heap, num ≤ greatest) (hless : greatest ≤ elem) :
    Keeps k (seen ++ [elem]) heap := by
  obtain ⟨rest, hperm, hlength, hrest⟩ := h
  refine ⟨rest ++ [elem], ?_, ?_, fun num hnum other hother ↦ ?_⟩
  · rw [← List.append_assoc]
    exact hperm.append_right [elem]
  · rw [List.length_append, List.length_singleton]
    omega
  · rcases List.mem_append.mp hother with hother | hother
    · exact hrest num hnum other hother
    · rw [List.mem_singleton.mp hother]
      exact (hle num hnum).trans hless

theorem heapLoop_keeps {nums : List α} {ordinal : ℕ} (hk : 1 ≤ k) (h : Keeps k seen heap)
    (hordinal : ordinal = seen.length + 1) (hlength : (seen ++ nums).length < 2 ^ 63) :
    ∃ heap', heapLoop k nums heap ordinal = some heap' ∧ Keeps k (seen ++ nums) heap' := by
  induction nums generalizing seen heap ordinal with
  | nil => exact ⟨heap, rfl, (List.append_nil seen).symm ▸ h⟩
  | cons elem nums ih =>
    rw [List.append_cons] at hlength ⊢
    have hwrap : wrap (ordinal + 1) = (seen ++ [elem]).length + 1 := by
      simp only [List.length_append, List.length_singleton] at hlength ⊢
      rw [wrap_of_lt (by omega), hordinal]
    by_cases hroom : ordinal ≤ k
    · obtain ⟨heap', hloop, hkeeps⟩ := ih (h.push (hordinal ▸ hroom)) hwrap hlength
      refine ⟨heap', ?_, hkeeps⟩
      rw [heapLoop, if_pos hroom, hloop]
    · have hfull : k ≤ seen.length := by omega
      have hheap : heap ≠ [] := by
        obtain ⟨rest, -, hcount, -⟩ := h
        rintro rfl
        rw [List.length_nil] at hcount
        omega
      obtain ⟨greatest, htop, hmem, hle⟩ := top_eq_some hheap
      rw [heapLoop, if_neg hroom, htop]
      by_cases hless : elem < greatest
      · obtain ⟨heap', hloop, hkeeps⟩ := ih (h.replace hfull htop hmem hle hless) hwrap hlength
        refine ⟨heap', ?_, hkeeps⟩
        simp only [Option.bind_eq_bind, Option.bind_some, if_pos hless]
        exact hloop
      · obtain ⟨heap', hloop, hkeeps⟩ := ih (h.skip hfull hle (not_lt.mp hless)) hwrap hlength
        refine ⟨heap', ?_, hkeeps⟩
        simp only [Option.bind_eq_bind, Option.bind_some, if_neg hless]
        exact hloop

/-- `heap_select` finds the element of the rank, or the greatest where there are fewer. -/
theorem heapSelect_eq [Zero α] (nums : Elements α) (hnums : nums.val ≠ []) (hk : 1 ≤ k) :
    heapSelect nums.val k = orderStatistic nums.val (min k nums.val.length - 1) := by
  have hpos := List.length_pos_iff.mpr hnums
  have hempty : Keeps k ([] : List α) [] :=
    ⟨[], .nil, (Nat.min_zero k).symm, fun _ hnum ↦ (List.not_mem_nil hnum).elim⟩
  obtain ⟨heap, hloop, rest, hperm, hlength, hrest⟩ :=
    @heapLoop_keeps _ _ k [] [] nums.val 1 hk hempty rfl nums.property
  rw [List.nil_append] at hperm hlength
  have hheap : heap ≠ [] := by
    rw [← List.length_pos_iff]
    omega
  obtain ⟨greatest, htop, hmem, hle⟩ := top_eq_some hheap
  have herase := List.perm_cons_erase hmem
  have hsplit : (heap.erase greatest ++ greatest :: rest).Perm nums.val :=
    (List.perm_middle.trans (herase.symm.append_right rest)).trans hperm
  have hrank : min k nums.val.length - 1 = (heap.erase greatest).length := by
    rw [← hlength, herase.length_eq, List.length_cons, Nat.add_sub_cancel]
  rw [heapSelect, if_neg (by omega), hloop, hrank,
    orderStatistic_self hsplit (fun num hnum ↦ hle num (List.mem_of_mem_erase hnum))
      fun other hother ↦ hrest greatest hmem other hother]
  exact htop

/-! ### The narrowed range -/

variable {before range after nums : List α} {begin last : ℕ}

omit [LinearOrder α] in
/-- Whatever `rand()` returns, the pivot is an element of the range. -/
theorem randomPivot_spec (rands : Rands) (hnums : nums = before ++ range ++ after)
    (hlength : nums.length < 2 ^ 63) (hbegin : begin = before.length)
    (hlast : last + 1 = begin + range.length) (hle : begin ≤ last) :
    ∃ pivot rest rands', randomPivot rands nums begin last =
        .ok (pivot, before ++ pivot :: rest ++ after, rands') ∧ (pivot :: rest).Perm range := by
  have hcount := length_of_range hnums hbegin
  have hpivot (pivot : α) (rest : List α) : load (before ++ pivot :: rest ++ after) begin =
      .ok pivot := by
    rw [hbegin, List.append_assoc]
    exact load_append ..
  by_cases hlt : begin < last
  · have hsize : wrap (wrapSub last begin + 1) = range.length := by
      rw [wrapSub_of_le hle (by omega), wrap_of_lt (by omega)]
      omega
    have hindx : rands 0 % range.length < range.length := Nat.mod_lt _ (by omega)
    obtain ⟨rest, hswap, hperm⟩ := swap_begin before after hindx
    rw [← hnums, Nat.add_comm, ← hbegin] at hswap
    refine ⟨_, rest, fun call ↦ rands (call + 1), ?_, hperm⟩
    rw [randomPivot, if_pos hlt, hsize, wrap_of_lt (by omega)]
    simp only [hswap, ok_bind, hpivot]
    rfl
  · obtain ⟨pivot, hrange⟩ := List.length_eq_one_iff.mp (by omega : range.length = 1)
    rw [hrange] at hnums
    refine ⟨pivot, [], rands, ?_, by rw [hrange]⟩
    rw [randomPivot, if_neg hlt, hnums, hpivot]
    rfl

theorem randomizedPartition_spec (rands : Rands) (hnums : nums = before ++ range ++ after)
    (hlength : nums.length < 2 ^ 63) (hbegin : begin = before.length)
    (hlast : last + 1 = begin + range.length) (hle : begin ≤ last) :
    ∃ lows pivot highs rands', randomizedPartition rands nums begin last =
        .ok (begin + lows.length, before ++ lows ++ pivot :: highs ++ after, rands') ∧
      Splits range lows pivot highs := by
  obtain ⟨pivot, rest, rands', hpivot, hperm⟩ :=
    randomPivot_spec rands hnums hlength hbegin hlast hle
  obtain ⟨lows, highs, hpartition, hsplits⟩ :=
    partitionAround_spec hperm (hnums ▸ hlength) hbegin hlast
  refine ⟨lows, pivot, highs, rands', ?_, hsplits⟩
  rw [randomizedPartition, hpivot]
  simp only [ok_bind, hpartition]
  rfl

/-- The loop finds the element of the rank in the range, and permutes only the range. -/
theorem randomizedLoop_spec {fuel pos : ℕ} (rands : Rands) (hnums : nums = before ++ range ++ after)
    (hlength : nums.length < 2 ^ 63) (hbegin : begin = before.length)
    (hlast : last + 1 = begin + range.length) (hk : 1 ≤ k) (hrank : k ≤ range.length)
    (hfuel : range.length ≤ fuel) :
    ∃ num range', randomizedLoop fuel rands nums pos begin last k =
        .ok (num, before ++ range' ++ after) ∧ range'.Perm range ∧
      orderStatistic range (k - 1) = some num := by
  induction fuel generalizing rands nums before range after begin last k pos with
  | zero => omega
  | succ fuel ih =>
    have hcount := length_of_range hnums hbegin
    obtain ⟨lows, pivot, highs, rands', hpartition, hsplits⟩ :=
      randomizedPartition_spec rands hnums hlength hbegin hlast (by omega)
    have hparts := hsplits.length_eq
    have hsame : (before ++ lows ++ pivot :: highs ++ after).length = nums.length := by
      rw [hnums]
      simp only [List.length_append, List.length_cons]
      omega
    have hordinal : wrap (wrapSub (begin + lows.length) begin + 1) = lows.length + 1 := by
      rw [wrapSub_of_le (Nat.le_add_right ..) (by omega), Nat.add_sub_cancel_left,
        wrap_of_lt (by omega)]
    have hlows (num : α) (hnum : num ∈ lows) : num ≤ pivot := (hsplits.lows_lt num hnum).le
    rw [randomizedLoop, if_pos (by omega), hpartition]
    simp only [ok_bind, hordinal]
    rcases Nat.lt_trichotomy k (lows.length + 1) with hlow | hself | hhigh
    · obtain ⟨num, lows', hloop, hperm, hnum⟩ :=
        @ih k before lows (pivot :: highs ++ after) (before ++ lows ++ pivot :: highs ++ after) begin
          (begin + lows.length - 1) (begin + lows.length) rands' (by simp only [List.append_assoc])
          (hsame ▸ hlength) hbegin (by omega) hk (by omega) (by omega)
      refine ⟨num, lows' ++ pivot :: highs, ?_, (hperm.append_right _).trans hsplits.perm, ?_⟩
      · rw [if_neg hlow.ne, if_pos hlow, wrapSub_of_le (by omega) (by omega), hloop]
        simp only [List.append_assoc]
      · rw [orderStatistic_of_lt hsplits.perm hlows hsplits.le_highs (by omega), hnum]
    · refine ⟨pivot, lows ++ pivot :: highs, ?_, hsplits.perm, ?_⟩
      · have hload : load (before ++ lows ++ pivot :: highs ++ after) (begin + lows.length) =
            .ok pivot := load_behind rfl (by rw [hbegin])
        rw [if_pos hself, hload, List.append_assoc before]
        rfl
      · rw [hself, Nat.add_sub_cancel, orderStatistic_self hsplits.perm hlows hsplits.le_highs]
    · obtain ⟨rank, rfl⟩ := Nat.exists_eq_add_of_lt hhigh
      obtain ⟨num, highs', hloop, hperm, hnum⟩ :=
        @ih (rank + 1) (before ++ lows ++ [pivot]) highs after
          (before ++ lows ++ pivot :: highs ++ after) (begin + lows.length + 1) last
          (begin + lows.length) rands'
          (by simp only [List.append_assoc, List.cons_append, List.nil_append]) (hsame ▸ hlength)
          (by simp only [List.length_append, List.length_singleton, hbegin])
          (by omega) (by omega) (by omega) (by omega)
      have hrest : lows.length + 1 + rank + 1 - (lows.length + 1) = rank + 1 := by omega
      refine ⟨num, lows ++ pivot :: highs', ?_,
        ((hperm.cons pivot).append_left lows).trans hsplits.perm, ?_⟩
      · rw [if_neg (by omega), if_neg (by omega), wrap_of_lt (by omega),
          wrapSub_of_le (by omega) (by omega), hrest, hloop]
        simp only [List.append_assoc, List.cons_append, List.nil_append]
      · rw [← hnum, ← orderStatistic_of_gt hsplits.perm hlows hsplits.le_highs]
        rfl

theorem randomizedLoop_settles (fuel : ℕ) (rands : Rands) (nums : List α) (pos begin last k : ℕ) :
    SettlesAt (fun fuel ↦ randomizedLoop fuel rands nums pos begin last k) fuel := by
  induction fuel generalizing rands nums pos begin last k with
  | zero => exact fun hfuel ↦ absurd rfl hfuel
  | succ fuel ih =>
    change SettlesAt (fun fuel ↦ randomizedLoop (fuel + 1) rands nums pos begin last k) fuel
    simp only [randomizedLoop]
    by_cases hle : begin ≤ last
    · simp only [if_pos hle]
      refine (settlesAt_const _ fuel).bind fun ⟨pos, nums, rands⟩ ↦ ?_
      simp only
      split_ifs
      · exact settlesAt_const _ fuel
      · exact ih rands nums pos begin (wrapSub pos 1) k
      · exact ih rands nums pos (wrap (pos + 1)) last _
    · simp only [if_neg hle]
      exact settlesAt_const _ fuel

/-- Both selections return the element of the rank, or the greatest where there are fewer elements,
whatever `rand()` returns. The one with random pivots permutes the vector, and reads nothing outside. -/
theorem randomizedSelect_eq_heapSelect [Zero α] (nums : Elements α) (hnums : nums.val ≠ []) {k : ℕ}
    (hk : 1 ≤ k) (rands : Rands) :
    ∃ num result, Returns (fun fuel ↦ randomizedSelect fuel rands nums.val k) (num, result) ∧
      heapSelect nums.val k = some num ∧
      orderStatistic nums.val (min k nums.val.length - 1) = some num ∧ result.Perm nums.val ∧
      ∀ fuel indx, randomizedSelect fuel rands nums.val k ≠ .error (.outOfRange indx) := by
  have hpos := List.length_pos_iff.mpr hnums
  have hlast : wrapSub nums.val.length 1 = nums.val.length - 1 :=
    wrapSub_of_le hpos (nums.property.trans (by decide))
  obtain ⟨num, result, hloop, hperm, hnum⟩ :=
    @randomizedLoop_spec _ _ (min k nums.val.length) [] nums.val [] nums.val 0 (nums.val.length - 1)
      nums.val.length 0 rands (by rw [List.nil_append, List.append_nil]) nums.property rfl (by omega)
      (by omega) (Nat.min_le_right ..) le_rfl
  have hselect (fuel : ℕ) : randomizedSelect fuel rands nums.val k =
      randomizedLoop fuel rands nums.val 0 0 (nums.val.length - 1) (min k nums.val.length) := by
    rw [randomizedSelect, if_neg (by omega), hlast]
  have hsettles (fuel : ℕ) := randomizedLoop_settles fuel rands nums.val 0 0 (nums.val.length - 1)
    (min k nums.val.length)
  rw [List.nil_append, List.append_nil] at hloop
  have hreturns := returns_of_settles hsettles hloop
  refine ⟨num, result, ?_, ?_, hnum, hperm, fun fuel indx ↦ ?_⟩
  · simp only [hselect]
    exact hreturns
  · rw [heapSelect_eq nums hnums hk, hnum]
  · rw [hselect]
    exact ne_outOfRange_of_returns hsettles hreturns fuel indx

/-- Four elements, two of them equal, with some sequence of random numbers. -/
theorem randomizedSelect_eq_heapSelect_four :
    ∃ num result, Returns (fun fuel ↦ randomizedSelect fuel (fun call ↦ 7 * call + 2)
        ([3, 1, 3, 0] : List ℤ) 3) (num, result) ∧
      heapSelect ([3, 1, 3, 0] : List ℤ) 3 = some num ∧
      orderStatistic ([3, 1, 3, 0] : List ℤ) (min 3 4 - 1) = some num ∧ result.Perm [3, 1, 3, 0] ∧
      ∀ fuel indx, randomizedSelect fuel (fun call ↦ 7 * call + 2) ([3, 1, 3, 0] : List ℤ) 3 ≠
        .error (.outOfRange indx) :=
  randomizedSelect_eq_heapSelect ⟨[3, 1, 3, 0], by decide⟩ (by decide) (by decide)
    fun call ↦ 7 * call + 2

end CppLearn.Algorithm.Qselect
