import CppLearn.Algorithm.Isort
import CppLearn.Algorithm.Qselect
import Mathlib.Logic.Relation

/-!
# Selection with the median of medians

`median_of_median_select` sorts groups of five, brings their medians to the front and calls itself on
these, then splits the range around its middle element and goes on with one of the parts. It differs from
what it is meant to be in two places. The groups are sorted by `isort`, which reads outside when the
range begins with the vector and its first element is not the least of its group. And the rank among the
medians is their middle as an index of the vector, and not counted from the begin of the range.

Whether a run is hurt by this is seen from the calls that it makes (`Harmless`). A run that is not
returns what `heap_select` returns: the call among the medians only rearranges them, and what it returns
is not used. What is said of runs holds with any sort in the place of `isort` that sorts what it returns
(`Serves`).
-/

set_option autoImplicit false
set_option relaxedAutoImplicit false

namespace CppLearn.Algorithm.MedianOfMedians

open Algorithm.Partition Foundation.OrderStatistic Foundation.VectorAccess Isort Qselect

universe u

variable {α : Type u} [LinearOrder α]

/-! ### The program -/

def medianPartition (nums : List α) (begin last : ℕ) : Except Fault (ℕ × List α) := do
  let mid := wrap (begin + wrapSub last begin / 2)
  let pivot ← load nums mid
  let nums ← swap nums mid begin
  partitionAround nums begin last pivot

/-- The last index of a group. -/
def groupEnd (last i : ℕ) : ℕ := if wrap (i + 4) < last then wrap (i + 4) else last

/-- The loop over the groups, with a limit on its rounds: the index behind the medians, and the vector. -/
def groupLoop (last : ℕ) : ℕ → List α → ℕ → ℕ → Except Fault (ℕ × List α)
  | 0, _, _, _ => .error .outOfFuel
  | fuel + 1, nums, i, tail =>
    if i < last then do
      let j := groupEnd last i
      let nums ← isort nums i j
      let nums ← swap nums tail (wrap (i + wrapSub j i / 2))
      groupLoop last fuel nums (wrap (i + 5)) (wrap (tail + 1))
    else .ok (tail, nums)

/-- `median_of_median_select` on a range, with a limit on the depth of its calls, and the vector
afterwards. -/
def selectRange : ℕ → List α → ℕ → ℕ → ℕ → Except Fault (α × List α)
  | 0, _, _, _, _ => .error .outOfFuel
  | fuel + 1, nums, begin, last, k =>
    if wrap (wrapSub last begin + 1) ≤ 5 then do
      let nums ← isort nums begin last
      let num ← load nums (wrapSub (wrap (begin + k)) 1)
      return (num, nums)
    else do
      let (tail, nums) ← groupLoop last (nums.length + 1) nums begin begin
      let mid := wrap (begin + wrapSub tail begin / 2)
      let (_, nums) ← selectRange fuel nums begin tail mid
      let (pos, nums) ← medianPartition nums begin last
      let ordinal := wrap (wrapSub pos begin + 1)
      if k = ordinal then do
        let num ← load nums pos
        return (num, nums)
      else if k < ordinal then selectRange fuel nums begin (wrapSub pos 1) k
      else selectRange fuel nums (wrap (pos + 1)) last (wrapSub k ordinal)

/-- `median_of_median_select` on a vector, with the vector afterwards. -/
def medianOfMedianSelect [Zero α] (fuel : ℕ) (nums : List α) (k : ℕ) : Except Fault (α × List α) :=
  if nums.length = 0 ∨ k = 0 then .ok (0, nums)
  else selectRange fuel nums 0 (wrapSub nums.length 1) (min k nums.length)

/-! ### The program with another sort -/

/-- A sort of the places of a vector from one index to another. -/
abbrev RangeSort (α : Type u) := List α → ℕ → ℕ → Except Fault (List α)

/-- `groupLoop`, with a sort in the place of `isort`. -/
def groupLoopBy (sort : RangeSort α) (last : ℕ) :
    ℕ → List α → ℕ → ℕ → Except Fault (ℕ × List α)
  | 0, _, _, _ => .error .outOfFuel
  | fuel + 1, nums, i, tail =>
    if i < last then do
      let j := groupEnd last i
      let nums ← sort nums i j
      let nums ← swap nums tail (wrap (i + wrapSub j i / 2))
      groupLoopBy sort last fuel nums (wrap (i + 5)) (wrap (tail + 1))
    else .ok (tail, nums)

/-- `selectRange`, with a sort in the place of `isort`. -/
def selectRangeBy (sort : RangeSort α) : ℕ → List α → ℕ → ℕ → ℕ → Except Fault (α × List α)
  | 0, _, _, _, _ => .error .outOfFuel
  | fuel + 1, nums, begin, last, k =>
    if wrap (wrapSub last begin + 1) ≤ 5 then do
      let nums ← sort nums begin last
      let num ← load nums (wrapSub (wrap (begin + k)) 1)
      return (num, nums)
    else do
      let (tail, nums) ← groupLoopBy sort last (nums.length + 1) nums begin begin
      let mid := wrap (begin + wrapSub tail begin / 2)
      let (_, nums) ← selectRangeBy sort fuel nums begin tail mid
      let (pos, nums) ← medianPartition nums begin last
      let ordinal := wrap (wrapSub pos begin + 1)
      if k = ordinal then do
        let num ← load nums pos
        return (num, nums)
      else if k < ordinal then selectRangeBy sort fuel nums begin (wrapSub pos 1) k
      else selectRangeBy sort fuel nums (wrap (pos + 1)) last (wrapSub k ordinal)

theorem groupLoopBy_isort (last fuel : ℕ) (nums : List α) (i tail : ℕ) :
    groupLoopBy isort last fuel nums i tail = groupLoop last fuel nums i tail := by
  induction fuel generalizing nums i tail with
  | zero => rfl
  | succ fuel ih => simp only [groupLoopBy, groupLoop, ih]

/-- With `isort` it is the program. -/
theorem selectRangeBy_isort (fuel : ℕ) (nums : List α) (begin last k : ℕ) :
    selectRangeBy isort fuel nums begin last k = selectRange fuel nums begin last k := by
  induction fuel generalizing nums begin last k with
  | zero => rfl
  | succ fuel ih => simp only [selectRangeBy, selectRange, groupLoopBy_isort, ih]

/-! ### Steps on a range -/

variable {before range after nums : List α} {begin last : ℕ}

theorem medianPartition_spec (hnums : nums = before ++ range ++ after) (hlength : nums.length < 2 ^ 63)
    (hbegin : begin = before.length) (hlast : last + 1 = begin + range.length) (hle : begin ≤ last) :
    ∃ lows pivot highs, medianPartition nums begin last =
        .ok (begin + lows.length, before ++ lows ++ pivot :: highs ++ after) ∧
      Splits range lows pivot highs := by
  have hcount := length_of_range hnums hbegin
  obtain ⟨middle, hmiddle⟩ : ∃ middle, (last - begin) / 2 = middle := ⟨_, rfl⟩
  have hlt : middle < range.length := by omega
  have hmid : wrap (begin + wrapSub last begin / 2) = begin + middle := by
    rw [wrapSub_of_le hle (by omega), hmiddle, wrap_of_lt (by omega)]
  have hload : load nums (begin + middle) = .ok range[middle] := by
    rw [hnums, hbegin]
    exact load_range before after hlt
  obtain ⟨rest, hswap, hperm⟩ := swap_begin before after hlt
  rw [← hnums, ← hbegin] at hswap
  obtain ⟨lows, highs, hpartition, hsplits⟩ :=
    partitionAround_spec hperm (hnums ▸ hlength) hbegin hlast
  refine ⟨lows, _, highs, ?_, hsplits⟩
  rw [medianPartition, hmid, hload, ok_bind, hswap, ok_bind, hpartition]

/-! ### Groups -/

theorem groupEnd_eq {i : ℕ} (hlt : i + 4 < 2 ^ 64) : groupEnd last i = min (i + 4) last := by
  rw [groupEnd, wrap_of_lt hlt]
  split_ifs with hless
  · exact (Nat.min_eq_left hless.le).symm
  · exact (Nat.min_eq_right (not_lt.mp hless)).symm

/-- The range from one index to another is sorted, if it is one of the vector. -/
def SortsAt (sort : RangeSort α) (nums : List α) (begin last : ℕ) : Prop :=
  ∀ before range after, nums = before ++ range ++ after → begin = before.length →
    last + 1 = begin + range.length → ∃ sorted, sort nums begin last = .ok (before ++ sorted ++ after) ∧
      sorted.Perm range ∧ sorted.Pairwise (· ≤ ·)

/-- `isort` sorts a group, the first one if no element of it is less than the first. -/
theorem sortsAt_isort {i : ℕ} (hlength : nums.length < 2 ^ 63)
    (hstop : i ≠ 0 ∨ 4 ≤ last ∧ FirstLeast (nums.take 5)) : SortsAt isort nums i (groupEnd last i) := by
  intro front group back hnums hfront hgroup
  refine isort_spec hnums hlength hfront hgroup ?_
  by_cases hzero : i = 0
  · refine Or.inr ?_
    obtain ⟨hfour, hfirst⟩ := hstop.resolve_left (not_not.mpr hzero)
    have hnil : front = [] := List.length_eq_zero_iff.mp (by omega)
    have hsize : group.length = 5 := by
      rw [groupEnd_eq (by omega)] at hgroup
      omega
    have htake : nums.take 5 = group := by
      rw [hnums, hnil, List.nil_append]
      exact List.take_left' hsize
    exact htake ▸ hfirst
  · exact Or.inl hzero

/-- One round sorts a group, and puts its median behind those before. -/
theorem roundBy_spec {sort : RangeSort α} {i done : ℕ} (hpermutes : Permutes before range after nums)
    (hlength : nums.length < 2 ^ 63) (hbegin : begin = before.length)
    (hlast : last + 1 = begin + range.length) (hi : i = begin + 5 * done) (hlt : i < last)
    (hsort : SortsAt sort nums i (groupEnd last i)) :
    ∃ sorted nums', sort nums i (groupEnd last i) = .ok sorted ∧
      swap sorted (begin + done) (wrap (i + wrapSub (groupEnd last i) i / 2)) = .ok nums' ∧
      Permutes before range after nums' := by
  have hcount := hpermutes.length_eq
  rw [List.length_append, List.length_append, ← hbegin] at hcount
  obtain ⟨range', hnums, hperm⟩ := hpermutes
  have hsize := hperm.length_eq
  rw [groupEnd_eq (by omega)] at hsort ⊢
  set group := (range'.drop (5 * done)).take 5 with hgroup
  have hfront : (range'.take (5 * done)).length = 5 * done := List.length_take_of_le (by omega)
  have hgroupLength : group.length = min 5 (range.length - 5 * done) := by
    rw [hgroup, List.length_take, List.length_drop, hsize]
  have hparts : range' = range'.take (5 * done) ++ group ++ (range'.drop (5 * done)).drop 5 := by
    rw [List.append_assoc, List.take_append_drop, List.take_append_drop]
  have hsplit : nums = before ++ range'.take (5 * done) ++ group ++
      ((range'.drop (5 * done)).drop 5 ++ after) := by
    rw [hnums]
    conv_lhs => rw [hparts]
    simp only [List.append_assoc]
  obtain ⟨sorted, hrun, hsorted, -⟩ := hsort _ _ _ hsplit
    (by rw [List.length_append, hfront, ← hbegin, hi]) (by rw [hgroupLength]; omega)
  have hgrouped : Permutes before range after
      (before ++ range'.take (5 * done) ++ sorted ++ ((range'.drop (5 * done)).drop 5 ++ after)) :=
    Permutes.part ⟨sorted, rfl, hsorted⟩ (hparts ▸ hperm)
  obtain ⟨range'', hnums'', hperm''⟩ := id hgrouped
  have hmid : wrap (i + wrapSub (min (i + 4) last) i / 2) =
      before.length + (5 * done + (min (i + 4) last - i) / 2) := by
    rw [wrapSub_of_le (by omega) (by omega), wrap_of_lt (by omega)]
    omega
  have hsize'' := hperm''.length_eq
  obtain ⟨nums', hswap, hpermutes⟩ := @swap_permutes _ before range'' after done
    (5 * done + (min (i + 4) last - i) / 2) (by omega) (by omega)
  obtain ⟨range₃, hnums₃, hperm₃⟩ := hpermutes
  refine ⟨_, nums', hrun, ?_, range₃, hnums₃, hperm₃.trans hperm''⟩
  rw [hmid, hbegin, hnums'', hswap]

/-- How many groups a range has: a last element on its own is in none. -/
def groupCount (size : ℕ) : ℕ := (size + 3) / 5

/-- The loop permutes the range, and ends behind as many medians as there are groups. -/
theorem groupLoopBy_spec {sort : RangeSort α} {fuel i done : ℕ}
    (hpermutes : Permutes before range after nums) (hlength : nums.length < 2 ^ 63)
    (hbegin : begin = before.length) (hlast : last + 1 = begin + range.length)
    (hi : i = begin + 5 * done) (hdone : done ≤ groupCount range.length)
    (hfuel : groupCount range.length < fuel + done)
    (hfirst : i < last → SortsAt sort nums i (groupEnd last i))
    (hothers : ∀ (nums : Elements α) (i : ℕ), i ≠ 0 → i < last → last < nums.val.length →
      SortsAt sort nums.val i (groupEnd last i)) :
    ∃ nums', groupLoopBy sort last fuel nums i (begin + done) =
        .ok (begin + groupCount range.length, nums') ∧ Permutes before range after nums' := by
  unfold groupCount at *
  induction fuel generalizing nums i done with
  | zero => omega
  | succ fuel ih =>
    have hcount := hpermutes.length_eq
    rw [List.length_append, List.length_append, ← hbegin] at hcount
    rw [groupLoopBy]
    by_cases hlt : i < last
    · obtain ⟨sorted, nums', hsort, hswap, hpermutes'⟩ :=
        roundBy_spec hpermutes hlength hbegin hlast hi hlt (hfirst hlt)
      have hlength' : nums'.length = nums.length := by
        rw [hpermutes'.length_eq, ← hpermutes.length_eq]
      obtain ⟨nums'', hloop, hpermutes''⟩ := @ih nums' (i + 5) (done + 1) hpermutes'
        (hlength' ▸ hlength) (by omega) (by omega) (by omega)
        fun hmore ↦ hothers ⟨nums', hlength' ▸ hlength⟩ (i + 5) (by omega) hmore (by dsimp only; omega)
      refine ⟨nums'', ?_, hpermutes''⟩
      rw [if_pos hlt]
      simp only [hsort, ok_bind, hswap]
      rw [wrap_of_lt (by omega), wrap_of_lt (by omega), Nat.add_assoc, hloop]
    · refine ⟨nums, ?_, hpermutes⟩
      have hall : done = (range.length + 3) / 5 := by omega
      rw [if_neg hlt, ← hall]

theorem groupLoop_spec {fuel : ℕ} (hnums : nums = before ++ range ++ after)
    (hlength : nums.length < 2 ^ 63) (hbegin : begin = before.length)
    (hlast : last + 1 = begin + range.length) (hfuel : groupCount range.length < fuel)
    (hfive : 5 ≤ range.length) (hstop : begin ≠ 0 ∨ FirstLeast (nums.take 5)) :
    ∃ nums', groupLoop last fuel nums begin begin =
        .ok (begin + groupCount range.length, nums') ∧ Permutes before range after nums' := by
  have hcount := length_of_range hnums hbegin
  rw [← groupLoopBy_isort]
  refine @groupLoopBy_spec _ _ before range after nums begin last isort fuel begin 0
    ⟨range, hnums, .refl range⟩ hlength hbegin hlast rfl (Nat.zero_le _) hfuel (fun _ ↦ ?_)
    fun others i hi _ _ ↦ ?_
  · exact sortsAt_isort hlength (hstop.imp_right fun hfirst ↦ ⟨by omega, hfirst⟩)
  · exact sortsAt_isort others.property (Or.inl hi)

theorem groupLoop_fault {fuel : ℕ} (hlength : nums.length < 2 ^ 63) (hfive : 5 ≤ nums.length)
    (hlast : 5 ≤ last) (hfirst : ¬ FirstLeast (nums.take 5)) :
    groupLoop last (fuel + 1) nums 0 0 = .error (.outOfRange (wrapSub 0 1)) := by
  have hend : groupEnd last 0 = 4 := by
    rw [groupEnd_eq (by decide)]
    omega
  have hsort := @isort_fault _ _ (nums.drop 5) nums 4 (nums.take 5)
    (List.take_append_drop 5 nums).symm hlength (by rw [List.length_take_of_le hfive]) hfirst
  rw [groupLoop, if_pos (by omega)]
  simp only [hend, hsort, error_bind]

/-! ### Calls -/

/-- What a call of `median_of_median_select` on a range is given. -/
structure Call (α : Type u) where
  nums : List α
  begin : ℕ
  last : ℕ
  k : ℕ

namespace Call

variable (call : Call α)

def run (fuel : ℕ) : Except Fault (α × List α) :=
  selectRange fuel call.nums call.begin call.last call.k

def groups : Except Fault (ℕ × List α) :=
  groupLoop call.last (call.nums.length + 1) call.nums call.begin call.begin

/-- The call, with a sort in the place of `isort`. -/
def runBy (sort : RangeSort α) (fuel : ℕ) : Except Fault (α × List α) :=
  selectRangeBy sort fuel call.nums call.begin call.last call.k

def groupsBy (sort : RangeSort α) : Except Fault (ℕ × List α) :=
  groupLoopBy sort call.last (call.nums.length + 1) call.nums call.begin call.begin

/-- Where a pivot stands in the range, counted from one. -/
def ordinal (pos : ℕ) : ℕ := wrap (wrapSub pos call.begin + 1)

/-- The call among the medians. -/
def medians (tail : ℕ) (grouped : List α) : Call α :=
  ⟨grouped, call.begin, tail, wrap (call.begin + wrapSub tail call.begin / 2)⟩

/-- The call on the elements below the pivot. -/
def lower (pos : ℕ) (parted : List α) : Call α := ⟨parted, call.begin, wrapSub pos 1, call.k⟩

/-- The call on the others. -/
def upper (pos : ℕ) (parted : List α) : Call α :=
  ⟨parted, wrap (pos + 1), call.last, wrapSub call.k (call.ordinal pos)⟩

/-- The call does not read outside on its own account: where it begins with the vector the first element
is the least of its group, and the index of the element that it is to return is one of the vector. -/
def Harmless : Prop :=
  (call.begin = 0 → FirstLeast (call.nums.take (min 5 (call.last + 1)))) ∧
    1 ≤ call.begin + call.k ∧ call.begin + call.k ≤ call.nums.length

end Call

/-- The calls that a call makes, in the states that it makes them in. -/
inductive Calls (call : Call α) : Call α → Prop
  | medians {tail : ℕ} {grouped : List α} (hsize : 5 < wrap (wrapSub call.last call.begin + 1))
      (hgroups : call.groups = .ok (tail, grouped)) : Calls call (call.medians tail grouped)
  | lower {tail pos : ℕ} {grouped rearranged parted : List α} {num : α}
      (hsize : 5 < wrap (wrapSub call.last call.begin + 1))
      (hgroups : call.groups = .ok (tail, grouped))
      (hmedians : Returns (call.medians tail grouped).run (num, rearranged))
      (hpartition : medianPartition rearranged call.begin call.last = .ok (pos, parted))
      (hlt : call.k < call.ordinal pos) : Calls call (call.lower pos parted)
  | upper {tail pos : ℕ} {grouped rearranged parted : List α} {num : α}
      (hsize : 5 < wrap (wrapSub call.last call.begin + 1))
      (hgroups : call.groups = .ok (tail, grouped))
      (hmedians : Returns (call.medians tail grouped).run (num, rearranged))
      (hpartition : medianPartition rearranged call.begin call.last = .ok (pos, parted))
      (hlt : call.ordinal pos < call.k) : Calls call (call.upper pos parted)

/-- The calls that a call makes, with a sort in the place of `isort`. -/
inductive CallsBy (sort : RangeSort α) (call : Call α) : Call α → Prop
  | medians {tail : ℕ} {grouped : List α} (hsize : 5 < wrap (wrapSub call.last call.begin + 1))
      (hgroups : call.groupsBy sort = .ok (tail, grouped)) :
      CallsBy sort call (call.medians tail grouped)
  | lower {tail pos : ℕ} {grouped rearranged parted : List α} {num : α}
      (hsize : 5 < wrap (wrapSub call.last call.begin + 1))
      (hgroups : call.groupsBy sort = .ok (tail, grouped))
      (hmedians : Returns ((call.medians tail grouped).runBy sort) (num, rearranged))
      (hpartition : medianPartition rearranged call.begin call.last = .ok (pos, parted))
      (hlt : call.k < call.ordinal pos) : CallsBy sort call (call.lower pos parted)
  | upper {tail pos : ℕ} {grouped rearranged parted : List α} {num : α}
      (hsize : 5 < wrap (wrapSub call.last call.begin + 1))
      (hgroups : call.groupsBy sort = .ok (tail, grouped))
      (hmedians : Returns ((call.medians tail grouped).runBy sort) (num, rearranged))
      (hpartition : medianPartition rearranged call.begin call.last = .ok (pos, parted))
      (hlt : call.ordinal pos < call.k) : CallsBy sort call (call.upper pos parted)

theorem CallsBy.large {sort : RangeSort α} {call next : Call α} (hcalls : CallsBy sort call next) :
    5 < wrap (wrapSub call.last call.begin + 1) := by
  cases hcalls with
  | medians hsize => exact hsize
  | lower hsize => exact hsize
  | upper hsize => exact hsize

/-- A call on a range of the vector, which may be empty. A rank of zero is asked for only among two
medians. -/
structure Valid (call : Call α) (before range after : List α) : Prop where
  nums_eq : call.nums = before ++ range ++ after
  length_lt : call.nums.length < 2 ^ 63
  begin_eq : call.begin = before.length
  last_eq : call.last + 1 = call.begin + range.length
  k_lt : call.k < 2 ^ 63
  rank : 1 ≤ call.k ∨ range.length = 2

variable {call : Call α}

omit [LinearOrder α] in
theorem Valid.count (h : Valid call before range after) :
    call.nums.length = call.begin + range.length + after.length := by
  rw [h.nums_eq, List.length_append, List.length_append, h.begin_eq]

omit [LinearOrder α] in
theorem Valid.size_eq (h : Valid call before range after) :
    wrap (wrapSub call.last call.begin + 1) = range.length := by
  have hcount := h.count
  have hlt := h.length_lt
  have hlast := h.last_eq
  unfold wrapSub wrap
  omega

/-- The loop over the groups returns exactly where the first group can be sorted. -/
theorem Valid.groups (h : Valid call before range after) (hsize : 5 < range.length)
    (hstop : call.begin ≠ 0 ∨ FirstLeast (call.nums.take 5)) :
    ∃ grouped, call.groups = .ok (call.begin + groupCount range.length, grouped) ∧
      Permutes before range after grouped := by
  have hcount := h.count
  have hfew : groupCount range.length ≤ range.length := by
    rw [groupCount]
    omega
  exact groupLoop_spec h.nums_eq h.length_lt h.begin_eq h.last_eq (by omega) (by omega) hstop

theorem Valid.firstLeast (h : Valid call before range after) (hsize : 5 < range.length)
    {result : ℕ × List α} (hgroups : call.groups = .ok result) :
    call.begin ≠ 0 ∨ FirstLeast (call.nums.take 5) := by
  have hcount := h.count
  have hlast := h.last_eq
  by_contra hstop
  obtain ⟨hbegin, hfirst⟩ := not_or.mp hstop
  rw [not_not] at hbegin
  have hfault := @groupLoop_fault _ _ call.nums call.last call.nums.length h.length_lt (by omega)
    (by omega) hfirst
  rw [Call.groups, hbegin, hfault] at hgroups
  cases hgroups

omit [LinearOrder α] in
/-- The call among the medians is on one more element than there are groups, and its rank is the index
`mid`. -/
theorem Valid.medians_of_permutes {grouped : List α} (h : Valid call before range after)
    (hsize : 5 < range.length) (hpermutes : Permutes before range after grouped) :
    ∃ front back,
      Valid (call.medians (call.begin + groupCount range.length) grouped) before front (back ++ after) ∧
      (front ++ back).Perm range ∧ front.length = groupCount range.length + 1 ∧
      (call.medians (call.begin + groupCount range.length) grouped).k =
        call.begin + groupCount range.length / 2 := by
  have hcount := h.count
  have hlt := h.length_lt
  have hlength := hpermutes.length_eq
  rw [← h.nums_eq] at hlength
  obtain ⟨range', rfl, hperm⟩ := hpermutes
  have hfew : groupCount range.length + 1 < range.length := by
    rw [groupCount]
    omega
  have hsome : groupCount range.length = 1 ∨ 2 ≤ groupCount range.length := by
    rw [groupCount]
    omega
  have hfront : (range'.take (groupCount range.length + 1)).length = groupCount range.length + 1 :=
    List.length_take_of_le (hperm.length_eq ▸ hfew.le)
  have hmid : (call.medians (call.begin + groupCount range.length)
      (before ++ range' ++ after)).k = call.begin + groupCount range.length / 2 := by
    rw [Call.medians, wrapSub_of_le (Nat.le_add_right ..) (by omega), Nat.add_sub_cancel_left,
      wrap_of_lt (by omega)]
  refine ⟨range'.take (groupCount range.length + 1), range'.drop (groupCount range.length + 1),
    ⟨?_, ?_, h.begin_eq, ?_, ?_, ?_⟩, ?_, hfront, hmid⟩
  · rw [← List.append_assoc, List.append_assoc before (List.take ..), List.take_append_drop,
      Call.medians]
  · exact hlength ▸ hlt
  · rw [hfront]
    exact Nat.add_assoc ..
  · omega
  · omega
  · rw [List.take_append_drop]
    exact hperm

omit [LinearOrder α] in
/-- The call on the elements behind the pivot asks for what is left of the rank. -/
theorem Valid.upper_k {pos count : ℕ} (h : Valid call before range after) (parted : List α)
    (hordinal : call.ordinal pos = count) (hle : count ≤ call.k) :
    (call.upper pos parted).k = call.k - count := by
  have hklt := h.k_lt
  rw [Call.upper, hordinal, wrapSub_of_le hle (by omega)]

/-- After the split the range has its pivot where it stands when sorted, and the calls that may follow
are on the elements before and behind it. -/
theorem Valid.parts {rearranged parted : List α} {pos : ℕ} (h : Valid call before range after)
    (hsize : 5 < range.length) (hpermutes : Permutes before range after rearranged)
    (hpartition : medianPartition rearranged call.begin call.last = .ok (pos, parted)) :
    ∃ lows pivot highs, Splits range lows pivot highs ∧
      parted = before ++ lows ++ pivot :: highs ++ after ∧ pos = call.begin + lows.length ∧
      call.ordinal pos = lows.length + 1 ∧
      (call.k < lows.length + 1 → Valid (call.lower pos parted) before lows (pivot :: highs ++ after)) ∧
      (lows.length + 1 < call.k → Valid (call.upper pos parted) (before ++ lows ++ [pivot]) highs after) := by
  have hcount := h.count
  have hlt := h.length_lt
  have hlast := h.last_eq
  have hk := h.rank.resolve_right (by omega)
  have hklt := h.k_lt
  have hlength := hpermutes.length_eq
  rw [← h.nums_eq] at hlength
  obtain ⟨range', hrearranged, hperm⟩ := hpermutes
  obtain ⟨lows, pivot, highs, hparted, hsplits⟩ := medianPartition_spec hrearranged
    (hlength ▸ hlt) h.begin_eq (by rw [hperm.length_eq, hlast]) (by omega)
  rw [hpartition] at hparted
  cases hparted
  have hparts := hsplits.length_eq
  rw [hperm.length_eq] at hparts
  have hsame : (before ++ lows ++ pivot :: highs ++ after).length = call.nums.length := by
    rw [h.nums_eq]
    simp only [List.length_append, List.length_cons]
    omega
  have hordinal : call.ordinal (call.begin + lows.length) = lows.length + 1 := by
    rw [Call.ordinal, wrapSub_of_le (Nat.le_add_right ..) (by omega), Nat.add_sub_cancel_left,
      wrap_of_lt (by omega)]
  set parted := before ++ lows ++ pivot :: highs ++ after with hparted
  have hlower (hlow : call.k < lows.length + 1) :
      (call.lower (call.begin + lows.length) parted).last + 1 = call.begin + lows.length := by
    rw [Call.lower, wrapSub_of_le (by omega) (by omega)]
    exact Nat.sub_add_cancel (by omega)
  have hbegin : (call.upper (call.begin + lows.length) parted).begin = call.begin + lows.length + 1 :=
    wrap_of_lt (by omega)
  have hupper (hhigh : lows.length + 1 < call.k) := h.upper_k parted hordinal hhigh.le
  refine ⟨lows, pivot, highs, ⟨hsplits.perm.trans hperm, hsplits.lows_lt, hsplits.le_highs⟩, rfl, rfl,
    hordinal, fun hlow ↦ ⟨?_, hsame ▸ hlt, h.begin_eq, hlower hlow, hklt, Or.inl hk⟩,
    fun hhigh ↦ ⟨?_, hsame ▸ hlt, ?_, ?_, ?_, Or.inl ?_⟩⟩
  · simp only [Call.lower, hparted, List.append_assoc]
  · simp only [Call.upper, hparted, List.append_assoc, List.cons_append, List.nil_append]
  · rw [hbegin, h.begin_eq, List.length_append, List.length_append, List.length_singleton]
  · rw [hbegin]
    exact hlast.trans (by omega)
  · rw [hupper hhigh]
    omega
  · rw [hupper hhigh]
    omega

/-! ### Runs -/

theorem runBy_isort (call : Call α) : call.runBy isort = call.run :=
  funext fun fuel ↦ selectRangeBy_isort fuel ..

theorem groupsBy_isort (call : Call α) : call.groupsBy isort = call.groups := groupLoopBy_isort ..

/-- With `isort` they are the calls of the program. -/
theorem callsBy_isort : (CallsBy isort : Call α → Call α → Prop) = Calls := by
  funext call next
  refine propext ⟨fun hcalls ↦ ?_, fun hcalls ↦ ?_⟩
  · cases hcalls with
    | medians hsize hgroups => exact .medians hsize (groupsBy_isort call ▸ hgroups)
    | lower hsize hgroups hmedians hpartition hlt =>
      exact .lower hsize (groupsBy_isort call ▸ hgroups) (runBy_isort (call.medians ..) ▸ hmedians)
        hpartition hlt
    | upper hsize hgroups hmedians hpartition hlt =>
      exact .upper hsize (groupsBy_isort call ▸ hgroups) (runBy_isort (call.medians ..) ▸ hmedians)
        hpartition hlt
  · cases hcalls with
    | medians hsize hgroups => exact .medians hsize ((groupsBy_isort call).symm ▸ hgroups)
    | lower hsize hgroups hmedians hpartition hlt =>
      exact .lower hsize ((groupsBy_isort call).symm ▸ hgroups)
        ((runBy_isort (call.medians ..)).symm ▸ hmedians) hpartition hlt
    | upper hsize hgroups hmedians hpartition hlt =>
      exact .upper hsize ((groupsBy_isort call).symm ▸ hgroups)
        ((runBy_isort (call.medians ..)).symm ▸ hmedians) hpartition hlt

theorem runBy_settles (sort : RangeSort α) (fuel : ℕ) (call : Call α) :
    SettlesAt (call.runBy sort) fuel := by
  induction fuel generalizing call with
  | zero => exact fun hfuel ↦ absurd rfl hfuel
  | succ fuel ih =>
    change SettlesAt
      (fun fuel ↦ selectRangeBy sort (fuel + 1) call.nums call.begin call.last call.k) fuel
    simp only [selectRangeBy]
    by_cases hsize : wrap (wrapSub call.last call.begin + 1) ≤ 5
    · simp only [if_pos hsize]
      exact settlesAt_const _ fuel
    · simp only [if_neg hsize]
      refine (settlesAt_const _ fuel).bind fun ⟨tail, grouped⟩ ↦ ?_
      refine (ih (call.medians tail grouped)).bind fun ⟨_, rearranged⟩ ↦ ?_
      refine (settlesAt_const _ fuel).bind fun ⟨pos, parted⟩ ↦ ?_
      simp only
      split_ifs
      · exact settlesAt_const _ fuel
      · exact ih (call.lower pos parted)
      · exact ih (call.upper pos parted)

theorem run_settles (fuel : ℕ) (call : Call α) : SettlesAt call.run fuel :=
  runBy_isort call ▸ runBy_settles isort fuel call

/-- A call on few elements that returns has read the element at the index of its rank. -/
theorem runBy_small {sort : RangeSort α} {fuel : ℕ} {num : α} {result : List α}
    (hsize : wrap (wrapSub call.last call.begin + 1) ≤ 5)
    (hrun : call.runBy sort (fuel + 1) = .ok (num, result)) :
    sort call.nums call.begin call.last = .ok result ∧
      load result (wrapSub (wrap (call.begin + call.k)) 1) = .ok num := by
  rw [Call.runBy, selectRangeBy, if_pos hsize, bind_eq_ok_iff] at hrun
  obtain ⟨sorted, hsort, hload⟩ := hrun
  obtain ⟨num', hnum, hreturn⟩ := bind_eq_ok_iff.mp hload
  cases hreturn
  exact ⟨hsort, hnum⟩

/-- How a call on more elements goes on after the split. -/
def Call.goOn (call : Call α) (fuel pos : ℕ) (parted : List α) : Except Fault (α × List α) :=
  if call.k = call.ordinal pos then do
    let num ← load parted pos
    return (num, parted)
  else if call.k < call.ordinal pos then (call.lower pos parted).run fuel
  else (call.upper pos parted).run fuel

/-- `Call.goOn`, with a sort in the place of `isort`. -/
def Call.goOnBy (call : Call α) (sort : RangeSort α) (fuel pos : ℕ) (parted : List α) :
    Except Fault (α × List α) :=
  if call.k = call.ordinal pos then do
    let num ← load parted pos
    return (num, parted)
  else if call.k < call.ordinal pos then (call.lower pos parted).runBy sort fuel
  else (call.upper pos parted).runBy sort fuel

theorem runBy_large {sort : RangeSort α} {fuel : ℕ}
    (hsize : 5 < wrap (wrapSub call.last call.begin + 1)) :
    call.runBy sort (fuel + 1) = call.groupsBy sort >>= fun (tail, grouped) ↦
      (call.medians tail grouped).runBy sort fuel >>= fun (_, rearranged) ↦
        medianPartition rearranged call.begin call.last >>= fun (pos, parted) ↦
          call.goOnBy sort fuel pos parted := by
  rw [Call.runBy, selectRangeBy, if_neg (not_le.mpr hsize)]
  rfl

/-- A call on more elements returns where all that it does returns. -/
theorem runBy_large_ok_iff {sort : RangeSort α} {fuel : ℕ} {result : α × List α}
    (hsize : 5 < wrap (wrapSub call.last call.begin + 1)) :
    call.runBy sort (fuel + 1) = .ok result ↔
      ∃ tail grouped median rearranged pos parted, call.groupsBy sort = .ok (tail, grouped) ∧
        (call.medians tail grouped).runBy sort fuel = .ok (median, rearranged) ∧
        medianPartition rearranged call.begin call.last = .ok (pos, parted) ∧
        call.goOnBy sort fuel pos parted = .ok result := by
  rw [runBy_large hsize]
  constructor
  · intro hrun
    obtain ⟨⟨tail, grouped⟩, hgroups, hrun⟩ := bind_eq_ok_iff.mp hrun
    obtain ⟨⟨median, rearranged⟩, hmedians, hrun⟩ := bind_eq_ok_iff.mp hrun
    obtain ⟨⟨pos, parted⟩, hpartition, hrun⟩ := bind_eq_ok_iff.mp hrun
    exact ⟨tail, grouped, median, rearranged, pos, parted, hgroups, hmedians, hpartition, hrun⟩
  · rintro ⟨tail, grouped, median, rearranged, pos, parted, hgroups, hmedians, hpartition, hrun⟩
    simp only [hgroups, ok_bind, hmedians, hpartition, hrun]

theorem run_large_ok_iff {fuel : ℕ} {result : α × List α}
    (hsize : 5 < wrap (wrapSub call.last call.begin + 1)) :
    call.run (fuel + 1) = .ok result ↔
      ∃ tail grouped median rearranged pos parted, call.groups = .ok (tail, grouped) ∧
        (call.medians tail grouped).run fuel = .ok (median, rearranged) ∧
        medianPartition rearranged call.begin call.last = .ok (pos, parted) ∧
        call.goOn fuel pos parted = .ok result := by
  have hlarge := @runBy_large_ok_iff _ _ call isort fuel result hsize
  simp only [runBy_isort, groupsBy_isort, Call.goOnBy] at hlarge
  exact hlarge

/-- For a kind of calls that is closed under the calls that they make, the sort has sorted what it
returns. -/
structure Serves (sort : RangeSort α) (good : Call α → Prop) : Prop where
  next : ∀ {call other}, good call → CallsBy sort call other → good other
  few : ∀ {call before range after result}, good call → Valid call before range after →
    range.length ≤ 5 → sort call.nums call.begin call.last = .ok result →
      ∃ sorted, result = before ++ sorted ++ after ∧ sorted.Perm range ∧ sorted.Pairwise (· ≤ ·)
  many : ∀ {call before range after tail grouped}, good call → Valid call before range after →
    5 < range.length → call.groupsBy sort = .ok (tail, grouped) →
      tail = call.begin + groupCount range.length ∧ Permutes before range after grouped

variable {sort : RangeSort α} {good : Call α → Prop}

/-- The medians, and one element behind them, are fewer than the range has. -/
theorem Serves.medians {tail : ℕ} {grouped : List α} (hserves : Serves sort good) (hgood : good call)
    (h : Valid call before range after) (hsize : 5 < range.length)
    (hgroups : call.groupsBy sort = .ok (tail, grouped)) :
    ∃ front back, Valid (call.medians tail grouped) before front (back ++ after) ∧
      (front ++ back).Perm range ∧ front.length < range.length := by
  obtain ⟨rfl, hpermutes⟩ := hserves.many hgood h hsize hgroups
  obtain ⟨front, back, hvalid, hrange, hfront, -⟩ := h.medians_of_permutes hsize hpermutes
  refine ⟨front, back, hvalid, hrange, ?_⟩
  rw [hfront, groupCount]
  omega

/-- What a call that returns has done with its range, and returned. -/
structure Effects (call : Call α) (before range after : List α) (num : α) (result : List α) :
    Prop where
  permutes : Permutes before range after result
  one_le : 1 ≤ call.begin + call.k
  le_length : call.begin + call.k ≤ call.nums.length
  value : 1 ≤ call.k → call.k ≤ range.length → orderStatistic range (call.k - 1) = some num

theorem Valid.isort_spec (h : Valid call before range after)
    (hfirst : call.begin = 0 → FirstLeast range) :
    ∃ sorted, isort call.nums call.begin call.last = .ok (before ++ sorted ++ after) ∧
      sorted.Perm range ∧ sorted.Pairwise (· ≤ ·) :=
  Isort.isort_spec h.nums_eq h.length_lt h.begin_eq h.last_eq
    (or_iff_not_imp_left.mpr fun hbegin ↦ hfirst (not_not.mp hbegin))

theorem Valid.firstLeast_of_isort {result : List α} (h : Valid call before range after)
    (hsort : isort call.nums call.begin call.last = .ok result) (hbegin : call.begin = 0) :
    FirstLeast range := by
  by_contra hfirst
  have hbefore : before = [] := List.length_eq_zero_iff.mp (h.begin_eq ▸ hbegin)
  have hnums : call.nums = range ++ after := by rw [h.nums_eq, hbefore, List.nil_append]
  have hlast : call.last + 1 = range.length := by rw [h.last_eq, hbegin, Nat.zero_add]
  rw [hbegin, isort_fault hnums h.length_lt hlast hfirst] at hsort
  cases hsort

theorem serves_isort : Serves (isort : RangeSort α) fun _ ↦ True := by
  refine ⟨fun _ _ ↦ trivial, fun {call before range after result} _ h _ hsort ↦ ?_,
    fun {call before range after tail grouped} _ h hsize hgroups ↦ ?_⟩
  · obtain ⟨sorted, hsorted, hsorts⟩ := h.isort_spec (h.firstLeast_of_isort hsort)
    rw [hsort] at hsorted
    exact ⟨sorted, Except.ok.inj hsorted, hsorts⟩
  · rw [groupsBy_isort] at hgroups
    obtain ⟨grouped', hgrouped, hpermutes⟩ := h.groups hsize (h.firstLeast hsize hgroups)
    rw [hgroups] at hgrouped
    cases hgrouped
    exact ⟨rfl, hpermutes⟩

theorem Serves.effects_few {fuel : ℕ} {num : α} {result : List α} (hserves : Serves sort good)
    (hgood : good call) (h : Valid call before range after) (hsize : range.length ≤ 5)
    (hrun : call.runBy sort (fuel + 1) = .ok (num, result)) :
    Effects call before range after num result := by
  have hcount := h.count
  have hlt := h.length_lt
  have hklt := h.k_lt
  obtain ⟨hsort, hload⟩ := runBy_small (by rwa [h.size_eq]) hrun
  obtain ⟨sorted, rfl, hperm, hpairwise⟩ := hserves.few hgood h hsize hsort
  have hpermutes : Permutes before range after (before ++ sorted ++ after) := ⟨sorted, rfl, hperm⟩
  have hlength := hpermutes.length_eq
  rw [← h.nums_eq] at hlength
  rw [wrap_of_lt (by omega)] at hload
  have hindx : wrapSub (call.begin + call.k) 1 < call.nums.length := by
    rw [← hlength]
    exact (List.getElem?_eq_some_iff.mp (load_ok hload)).1
  have hone : 1 ≤ call.begin + call.k := by
    by_contra hzero
    have hwrap : call.nums.length ≤ wrapSub 0 1 := hlt.le.trans (by decide)
    rw [Nat.lt_one_iff.mp (not_le.mp hzero)] at hindx
    omega
  rw [wrapSub_of_le hone (by omega)] at hindx hload
  refine ⟨hpermutes, hone, by omega, fun hk hrank ↦ ?_⟩
  obtain ⟨rank, hrank'⟩ := Nat.exists_eq_add_of_le' hk
  have hread := load_range before after (by rw [hperm.length_eq]; omega : rank < sorted.length)
  have hsame : call.begin + call.k - 1 = before.length + rank := by
    rw [h.begin_eq, hrank']
    rfl
  rw [hsame, hread] at hload
  rw [hrank', Nat.add_sub_cancel, orderStatistic_of_sorted hperm hpairwise,
    List.getElem?_eq_getElem (by rw [hperm.length_eq]; omega), Except.ok.inj hload]

/-- Every call that returns has permuted its range only, and returned the element of its rank. -/
theorem Serves.effects {fuel : ℕ} {num : α} {result : List α} (hserves : Serves sort good)
    (hgood : good call) (h : Valid call before range after)
    (hrun : call.runBy sort fuel = .ok (num, result)) : Effects call before range after num result := by
  induction fuel generalizing call before range after num result with
  | zero => cases hrun
  | succ fuel ih =>
    by_cases hsize : range.length ≤ 5
    · exact hserves.effects_few hgood h hsize hrun
    have hcount := h.count
    have hlt := h.length_lt
    have hlarge : 5 < range.length := not_le.mp hsize
    have hlarge' : 5 < wrap (wrapSub call.last call.begin + 1) := by rwa [h.size_eq]
    obtain ⟨tail, grouped, median, rearranged, pos, parted, hgroups, hmedians, hpartition, hgoOn⟩ :=
      (runBy_large_ok_iff hlarge').mp hrun
    obtain ⟨front, back, hvalid, hrange, -⟩ := hserves.medians hgood h hlarge hgroups
    have hrearranged : Permutes before range after rearranged :=
      (ih (hserves.next hgood (.medians hlarge' hgroups)) hvalid hmedians).permutes.front hrange
    have hreturns := returns_of_settles (fun fuel ↦ runBy_settles sort fuel _) hmedians
    obtain ⟨lows, pivot, highs, hsplits, hparted, hpos, hordinal, hlower, hupper⟩ :=
      h.parts hlarge hrearranged hpartition
    have hparts := hsplits.length_eq
    have hlows (low : α) (hlow : low ∈ lows) : low ≤ pivot := (hsplits.lows_lt low hlow).le
    rw [Call.goOnBy, hordinal] at hgoOn
    rcases Nat.lt_trichotomy (lows.length + 1) call.k with hhigh | hself | hlow
    rotate_left
    · rw [if_pos hself.symm] at hgoOn
      obtain ⟨num', hload, hreturn⟩ := bind_eq_ok_iff.mp hgoOn
      cases hreturn
      refine ⟨⟨lows ++ pivot :: highs, ?_, hsplits.perm⟩, by omega, by omega, fun _ _ ↦ ?_⟩
      · rw [hparted]
        simp only [List.append_assoc]
      · have hpivot := load_behind hparted (h.begin_eq ▸ hpos)
        rw [hload] at hpivot
        rw [← hself, Nat.add_sub_cancel, orderStatistic_self hsplits.perm hlows hsplits.le_highs,
          Except.ok.inj hpivot]
    · rw [if_neg hlow.ne, if_pos hlow] at hgoOn
      have heffects := ih (hserves.next hgood
        (.lower hlarge' hgroups hreturns hpartition (hordinal ▸ hlow))) (hlower hlow) hgoOn
      refine ⟨heffects.permutes.front hsplits.perm, heffects.one_le, by omega, fun hk _ ↦ ?_⟩
      rw [orderStatistic_of_lt hsplits.perm hlows hsplits.le_highs (by omega)]
      exact heffects.value hk (Nat.le_of_lt_succ hlow)
    · rw [if_neg hhigh.ne', if_neg hhigh.not_gt] at hgoOn
      have heffects := ih (hserves.next hgood
        (.upper hlarge' hgroups hreturns hpartition (hordinal ▸ hhigh))) (hupper hhigh) hgoOn
      have hbegin : (call.upper pos parted).begin = call.begin + lows.length + 1 := by
        rw [(hupper hhigh).begin_eq, h.begin_eq]
        simp only [List.length_append, List.length_singleton]
      have hk := h.upper_k parted hordinal hhigh.le
      have hlength : (call.upper pos parted).nums.length = call.nums.length := by
        rw [(hupper hhigh).count, hcount, hbegin]
        omega
      have hrange' : (lows ++ [pivot] ++ highs).Perm range := by
        rw [List.append_assoc]
        exact hsplits.perm
      have hone := heffects.one_le
      have hle := heffects.le_length
      have hpermutes := heffects.permutes
      rw [List.append_assoc before] at hpermutes
      refine ⟨hpermutes.back hrange', by omega, by omega, fun _ hrank ↦ ?_⟩
      have hvalue := heffects.value (by omega) (by omega)
      rw [← orderStatistic_of_gt hsplits.perm hlows hsplits.le_highs] at hvalue
      have hindx : lows.length + 1 + ((call.upper pos parted).k - 1) = call.k - 1 := by omega
      rwa [hindx] at hvalue

theorem effects_of_run {fuel : ℕ} {num : α} {result : List α} (h : Valid call before range after)
    (hrun : call.run fuel = .ok (num, result)) : Effects call before range after num result :=
  serves_isort.effects trivial h (runBy_isort call ▸ hrun)

/-! ### Runs that are not hurt -/

/-- A call on few elements returns where it is harmless. -/
theorem run_of_harmless_small {fuel : ℕ} (h : Valid call before range after)
    (hsize : range.length ≤ 5) (hharmless : call.Harmless) : ∃ result, call.run (fuel + 1) = .ok result := by
  have hcount := h.count
  have hlt := h.length_lt
  have hlast := h.last_eq
  obtain ⟨hfirst, hone, hle⟩ := hharmless
  have hstop : call.begin = 0 → FirstLeast range := by
    intro hbegin
    have hbefore : before = [] := List.length_eq_zero_iff.mp (h.begin_eq ▸ hbegin)
    have htake : call.nums.take (min 5 (call.last + 1)) = range := by
      rw [h.nums_eq, hbefore, List.nil_append, Nat.min_eq_right (by omega)]
      exact List.take_left' (by omega)
    exact htake ▸ hfirst hbegin
  obtain ⟨sorted, hsort, hperm, -⟩ := h.isort_spec hstop
  have hpermutes : Permutes before range after (before ++ sorted ++ after) := ⟨sorted, rfl, hperm⟩
  have hlength := hpermutes.length_eq
  rw [← h.nums_eq] at hlength
  have hread : wrapSub (wrap (call.begin + call.k)) 1 < (before ++ sorted ++ after).length := by
    rw [hlength, wrap_of_lt (by omega), wrapSub_of_le hone (by omega)]
    omega
  obtain ⟨num, hload⟩ : ∃ num, load (before ++ sorted ++ after)
      (wrapSub (wrap (call.begin + call.k)) 1) = .ok num := ⟨_, load_of_lt hread⟩
  refine ⟨(num, before ++ sorted ++ after), ?_⟩
  rw [Call.run, selectRange, if_pos (by rwa [h.size_eq]), hsort, ok_bind, hload]
  rfl

/-- A call returns if all calls of its kind do that are on few elements, and all others sort their
groups. -/
theorem Serves.exists_run {fuel : ℕ} (hserves : Serves sort good)
    (hfew : ∀ {call before range after}, good call → Valid call before range after →
      range.length ≤ 5 → ∀ fuel, ∃ result, call.runBy sort (fuel + 1) = .ok result)
    (hmany : ∀ {call before range after}, good call → Valid call before range after →
      5 < range.length → ∃ result, call.groupsBy sort = .ok result)
    (hgood : good call) (h : Valid call before range after) (hfuel : range.length < fuel) :
    ∃ result, call.runBy sort fuel = .ok result := by
  induction fuel generalizing call before range after with
  | zero => omega
  | succ fuel ih =>
    by_cases hsize : range.length ≤ 5
    · exact hfew hgood h hsize fuel
    have hlast := h.last_eq
    have hlarge : 5 < range.length := not_le.mp hsize
    have hlarge' : 5 < wrap (wrapSub call.last call.begin + 1) := by rwa [h.size_eq]
    obtain ⟨⟨tail, grouped⟩, hgroups⟩ := hmany hgood h hlarge
    obtain ⟨front, back, hvalid, hrange, hfewer⟩ := hserves.medians hgood h hlarge hgroups
    have hfront := hserves.next hgood (.medians hlarge' hgroups)
    obtain ⟨⟨median, rearranged⟩, hmedians⟩ := ih hfront hvalid (by omega)
    have hrearranged := (hserves.effects hfront hvalid hmedians).permutes.front hrange
    obtain ⟨range', hrearranged', hperm⟩ := id hrearranged
    obtain ⟨pos, parted, hpartition⟩ : ∃ pos parted,
        medianPartition rearranged call.begin call.last = .ok (pos, parted) := by
      obtain ⟨lows, pivot, highs, hpartition, -⟩ := medianPartition_spec hrearranged'
        (by rw [hrearranged.length_eq, ← h.nums_eq]; exact h.length_lt) h.begin_eq
        (by rw [hperm.length_eq, hlast]) (by omega)
      exact ⟨_, _, hpartition⟩
    obtain ⟨lows, pivot, highs, hsplits, hparted, hpos, hordinal, hlower, hupper⟩ :=
      h.parts hlarge hrearranged hpartition
    have hparts := hsplits.length_eq
    have hreturns := returns_of_settles (fun fuel ↦ runBy_settles sort fuel _) hmedians
    suffices hgoOn : ∃ result, call.goOnBy sort fuel pos parted = .ok result by
      obtain ⟨result, hgoOn⟩ := hgoOn
      exact ⟨result, (runBy_large_ok_iff hlarge').mpr
        ⟨_, _, _, _, _, _, hgroups, hmedians, hpartition, hgoOn⟩⟩
    rw [Call.goOnBy]
    rcases Nat.lt_trichotomy call.k (call.ordinal pos) with hlow | hself | hhigh
    · rw [if_neg hlow.ne, if_pos hlow]
      exact ih (hserves.next hgood (.lower hlarge' hgroups hreturns hpartition hlow))
        (hlower (hordinal ▸ hlow)) (by omega)
    · have hload : load parted pos = .ok pivot := load_behind hparted (h.begin_eq ▸ hpos)
      rw [if_pos hself, hload]
      exact ⟨_, rfl⟩
    · rw [if_neg hhigh.ne', if_neg hhigh.not_gt]
      exact ih (hserves.next hgood (.upper hlarge' hgroups hreturns hpartition hhigh))
        (hupper (hordinal ▸ hhigh)) (by omega)

/-- A call returns where all calls are harmless that are made from it. -/
theorem run_of_harmless {fuel : ℕ} (h : Valid call before range after) (hfuel : range.length < fuel)
    (hharmless : ∀ other, Relation.ReflTransGen Calls call other → other.Harmless) :
    ∃ result, call.run fuel = .ok result := by
  have hserves : Serves (isort : RangeSort α)
      fun call ↦ ∀ other, Relation.ReflTransGen Calls call other → other.Harmless := by
    refine ⟨fun {call next} hmade hcalls other hother ↦ ?_, fun _ ↦ serves_isort.few trivial,
      fun _ ↦ serves_isort.many trivial⟩
    rw [callsBy_isort] at hcalls
    exact hmade other (hother.head hcalls)
  rw [← runBy_isort]
  refine hserves.exists_run (fun {call before range after} hmade h hsize fuel ↦ ?_)
    (fun {call before range after} hmade h hlarge ↦ ?_) hharmless h hfuel
  · rw [runBy_isort]
    exact run_of_harmless_small h hsize (hmade call .refl)
  · have hlast := h.last_eq
    have hfirst : call.begin ≠ 0 ∨ FirstLeast (call.nums.take 5) := by
      refine or_iff_not_imp_left.mpr fun hbegin ↦ ?_
      have hleast := (hmade call .refl).1 (not_not.mp hbegin)
      rwa [Nat.min_eq_left (by omega)] at hleast
    obtain ⟨grouped, hgroups, -⟩ := h.groups hlarge hfirst
    exact ⟨_, (groupsBy_isort call).trans hgroups⟩

/-! ### Runs that return -/

/-- A call that returns is harmless. -/
theorem harmless_of_run {fuel : ℕ} {num : α} {result : List α} (h : Valid call before range after)
    (hrun : call.run fuel = .ok (num, result)) : call.Harmless := by
  have hlast := h.last_eq
  have heffects := effects_of_run h hrun
  refine ⟨fun hbegin ↦ ?_, heffects.one_le, heffects.le_length⟩
  cases fuel with
  | zero => cases hrun
  | succ fuel =>
    by_cases hsize : range.length ≤ 5
    · have hbefore : before = [] := List.length_eq_zero_iff.mp (h.begin_eq ▸ hbegin)
      have htake : call.nums.take (min 5 (call.last + 1)) = range := by
        rw [h.nums_eq, hbefore, List.nil_append, Nat.min_eq_right (by omega)]
        exact List.take_left' (by omega)
      rw [htake]
      exact h.firstLeast_of_isort (runBy_small (by rwa [h.size_eq]) (runBy_isort call ▸ hrun)).1 hbegin
    · have hlarge : 5 < range.length := not_le.mp hsize
      obtain ⟨tail, grouped, -, -, -, -, hgroups, -⟩ :=
        (run_large_ok_iff (by rwa [h.size_eq])).mp hrun
      rw [Nat.min_eq_left (by omega)]
      exact (h.firstLeast hlarge hgroups).resolve_left (not_not.mpr hbegin)

/-- The calls that a call makes that returns return as well. -/
theorem Serves.returns_of_calls {next : Call α} {result : α × List α} (hserves : Serves sort good)
    (hgood : good call) (h : Valid call before range after) (hreturns : Returns (call.runBy sort) result)
    (hcalls : CallsBy sort call next) :
    ∃ before' range' after' result',
      Valid next before' range' after' ∧ Returns (next.runBy sort) result' := by
  have hsettles (other : Call α) (fuel : ℕ) := runBy_settles sort fuel other
  obtain ⟨bound, hbound⟩ := hreturns
  have hrun := hbound (bound + 1) (Nat.le_succ bound)
  have hsize := hcalls.large
  have hlarge : 5 < range.length := h.size_eq ▸ hsize
  obtain ⟨tail, grouped, median, rearranged, pos, parted, hgroups, hmedians, hpartition, hgoOn⟩ :=
    (runBy_large_ok_iff hsize).mp hrun
  obtain ⟨front, back, hvalid, hrange, -⟩ := hserves.medians hgood h hlarge hgroups
  have hreturns := returns_of_settles (hsettles _) hmedians
  have hfront := hserves.next hgood (.medians hsize hgroups)
  have hrearranged := (hserves.effects hfront hvalid hmedians).permutes.front hrange
  obtain ⟨lows, pivot, highs, hsplits, hparted, hpos, hordinal, hlower, hupper⟩ :=
    h.parts hlarge hrearranged hpartition
  -- The call has been in the states that the relation speaks of.
  cases hcalls with
  | medians _ hgroups' =>
    cases hgroups.symm.trans hgroups'
    exact ⟨before, front, back ++ after, _, hvalid, hreturns⟩
  | lower _ hgroups' hreturns' hpartition' hlow =>
    cases hgroups.symm.trans hgroups'
    cases hreturns.unique hreturns'
    cases hpartition.symm.trans hpartition'
    rw [Call.goOnBy, if_neg hlow.ne, if_pos hlow] at hgoOn
    exact ⟨_, _, _, _, hlower (hordinal ▸ hlow), returns_of_settles (hsettles _) hgoOn⟩
  | upper _ hgroups' hreturns' hpartition' hhigh =>
    cases hgroups.symm.trans hgroups'
    cases hreturns.unique hreturns'
    cases hpartition.symm.trans hpartition'
    rw [Call.goOnBy, if_neg hhigh.ne', if_neg hhigh.not_gt] at hgoOn
    exact ⟨_, _, _, _, hupper (hordinal ▸ hhigh), returns_of_settles (hsettles _) hgoOn⟩

/-- All calls are harmless that are made from one that returns. -/
theorem harmless_of_returns {other : Call α} {result : α × List α}
    (h : Valid call before range after) (hreturns : Returns call.run result)
    (hmade : Relation.ReflTransGen Calls call other) : other.Harmless := by
  have hlast : ∃ before' range' after' result', Valid other before' range' after' ∧
      Returns other.run result' := by
    induction hmade with
    | refl => exact ⟨before, range, after, result, h, hreturns⟩
    | @tail middle next _ hcalls ih =>
      obtain ⟨before', range', after', result', hvalid, hreturns'⟩ := ih
      rw [← runBy_isort] at hreturns' ⊢
      rw [← callsBy_isort] at hcalls
      exact serves_isort.returns_of_calls trivial hvalid hreturns' hcalls
  obtain ⟨before', range', after', ⟨num, result'⟩, hvalid, bound, hbound⟩ := hlast
  exact harmless_of_run hvalid (hbound bound le_rfl)

/-! ### Results -/

/-- The call on the whole vector. -/
def entry (nums : List α) (k : ℕ) : Call α := ⟨nums, 0, wrapSub nums.length 1, min k nums.length⟩

/-- The selection returns what `heap_select` returns, reads nothing outside, and permutes the vector. -/
def Agrees [Zero α] (nums : List α) (k : ℕ) : Prop :=
  ∃ num result, Returns (fun fuel ↦ medianOfMedianSelect fuel nums k) (num, result) ∧
    heapSelect nums k = some num ∧ result.Perm nums

variable {k : ℕ}

omit [LinearOrder α] in
theorem valid_entry (nums : Elements α) (hnums : nums.val ≠ []) (hk : 1 ≤ k) :
    Valid (entry nums.val k) [] nums.val [] := by
  have hpos := List.length_pos_iff.mpr hnums
  have hlt := nums.property
  refine ⟨?_, nums.property, rfl, ?_, ?_, Or.inl ?_⟩
  · rw [List.nil_append, List.append_nil, entry]
  · have hlast : (entry nums.val k).last = nums.val.length - 1 := wrapSub_of_le hpos (by omega)
    rw [hlast, Nat.sub_add_cancel hpos, entry, Nat.zero_add]
  · exact (Nat.min_le_right ..).trans_lt hlt
  · exact le_min hk hpos

/-- A call on the whole vector that returns has found what `heap_select` finds. -/
theorem Effects.heapSelect_eq [Zero α] {nums : Elements α} {num : α} {result : List α}
    (h : Effects (entry nums.val k) [] nums.val [] num result) (hnums : nums.val ≠ []) (hk : 1 ≤ k) :
    heapSelect nums.val k = some num ∧ result.Perm nums.val := by
  have hpos := List.length_pos_iff.mpr hnums
  obtain ⟨range, hresult, hperm⟩ := h.permutes
  rw [List.nil_append, List.append_nil] at hresult
  refine ⟨?_, hresult ▸ hperm⟩
  rw [Qselect.heapSelect_eq nums hnums hk]
  exact h.value (le_min hk hpos) (Nat.min_le_right ..)

theorem select_eq [Zero α] {nums : List α} (hnums : nums ≠ []) (hk : 1 ≤ k) :
    (fun fuel ↦ medianOfMedianSelect fuel nums k) = (entry nums k).run := by
  have hpos := List.length_pos_iff.mpr hnums
  funext fuel
  exact if_neg (by omega)

/-- The selection agrees with `heap_select` exactly where all calls that it makes are harmless. -/
theorem agrees_iff [Zero α] (nums : Elements α) (hnums : nums.val ≠ []) (hk : 1 ≤ k) :
    Agrees nums.val k ↔
      ∀ call, Relation.ReflTransGen Calls (entry nums.val k) call → call.Harmless := by
  have hvalid := valid_entry nums hnums hk
  have hselect : (fun fuel ↦ medianOfMedianSelect fuel nums.val k) = (entry nums.val k).run :=
    select_eq hnums hk
  rw [Agrees, hselect]
  constructor
  · rintro ⟨num, result, hreturns, -⟩ call hmade
    exact harmless_of_returns hvalid hreturns hmade
  · intro hharmless
    obtain ⟨⟨num, result⟩, hrun⟩ := run_of_harmless hvalid (Nat.lt_succ_self _) hharmless
    exact ⟨num, result, returns_of_settles (fun fuel ↦ run_settles fuel _) hrun,
      (effects_of_run hvalid hrun).heapSelect_eq hnums hk⟩

theorem agrees_iff_three :
    Agrees ([1, 3, 2] : List ℤ) 2 ↔
      ∀ call, Relation.ReflTransGen Calls (entry ([1, 3, 2] : List ℤ) 2) call → call.Harmless :=
  agrees_iff ⟨[1, 3, 2], by decide⟩ (by decide) (by decide)

/-- Two elements in descending order. -/
theorem not_agrees_two : ¬ Agrees ([2, 1] : List ℤ) 1 := by
  rintro ⟨num, result, hreturns, -⟩
  rw [select_eq (by decide) (by decide)] at hreturns
  have hharmless := harmless_of_returns (valid_entry ⟨[2, 1], by decide⟩ (by decide) (by decide))
    hreturns .refl
  exact absurd (hharmless.1 rfl 2 rfl 1 (by decide)) (by decide)

end CppLearn.Algorithm.MedianOfMedians
