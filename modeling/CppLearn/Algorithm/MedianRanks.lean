import CppLearn.Algorithm.MedianOfMedians

/-!
# Ranks in the selection with the median of medians

A call of `median_of_median_select` is on a range, and asks for a rank of it. With a sort in the place
of `isort` that sorts every range, what a call hands on is seen from its bounds. A call on the elements
before or behind the pivot asks for a rank of theirs. The call among the medians asks for `mid`, which
is an index of the vector: it is a rank among the medians if the range begins near the front of the
vector, and has not the first six elements only (`Call.NearFront`). So all ranks are those of their
ranges exactly where all calls are near the front (`ranksInRange_iff`), which no run is on a vector
whose medians, or medians of medians, come to six elements (`RanksInRange.iterate_ne_six`).
-/

set_option autoImplicit false
set_option relaxedAutoImplicit false

namespace CppLearn.Algorithm.MedianOfMedians

open Algorithm.Partition Foundation.VectorAccess Isort Qselect

universe u

variable {α : Type u} [LinearOrder α]

/-! ### Sorts -/

/-- Every range of a vector is sorted, as it is to be by `isort`. -/
def Sorts (sort : RangeSort α) : Prop :=
  ∀ (nums : Elements α) (begin last : ℕ), begin ≤ last → last < nums.val.length →
    SortsAt sort nums.val begin last

def sortRange (nums : List α) (begin last : ℕ) : Except Fault (List α) :=
  .ok (nums.take begin ++ ((nums.take (last + 1)).drop begin).insertionSort (· ≤ ·) ++
    nums.drop (last + 1))

theorem sorts_sortRange : Sorts (sortRange : RangeSort α) := by
  intro nums begin last hle hlast before range after hnums hbegin hrange
  have htake : nums.val.take (last + 1) = before ++ range := by
    rw [hnums]
    exact List.take_left' (by rw [List.length_append, hrange, hbegin])
  have hfront : nums.val.take begin = before := by
    rw [hnums, List.append_assoc]
    exact List.take_left' hbegin.symm
  have hback : nums.val.drop (last + 1) = after := by
    rw [hnums]
    exact List.drop_left' (by rw [List.length_append, hrange, hbegin])
  refine ⟨range.insertionSort (· ≤ ·), ?_, List.perm_insertionSort _ range,
    List.pairwise_insertionSort _ range⟩
  rw [sortRange, htake, hfront, hback, List.drop_left' hbegin.symm]

/-! ### Calls -/

namespace Call

variable (call : Call α)

/-- The index of the element that a call on few elements returns. -/
def indx : ℕ := wrapSub (wrap (call.begin + call.k)) 1

/-- The call is on elements of the vector, and its rank is one among them. -/
structure InRange : Prop where
  begin_le : call.begin ≤ call.last
  last_lt : call.last < call.nums.length
  one_le : 1 ≤ call.k
  k_le : call.k ≤ call.last - call.begin + 1

/-- A call on more than five elements is not on the first six of the vector, and its begin is at most
half the number of its groups, rounded up, and one more. -/
def NearFront : Prop :=
  5 ≤ call.last - call.begin → (call.begin = 0 → call.last ≠ 5) ∧
    call.begin ≤ (groupCount (call.last - call.begin + 1) + 1) / 2 + 1

end Call

/-! ### One step -/

variable {sort : RangeSort α} {call next : Call α} {before range after : List α}

omit [LinearOrder α] in
theorem Valid.inRange_iff (h : Valid call before range after) :
    call.InRange ↔ 1 ≤ call.k ∧ call.k ≤ range.length := by
  have hcount := h.count
  have hlast := h.last_eq
  constructor
  · rintro ⟨hle, -, hone, hk⟩
    omega
  · rintro ⟨hone, hk⟩
    exact ⟨by omega, by omega, hone, by omega⟩

omit [LinearOrder α] in
theorem Valid.nearFront_iff (h : Valid call before range after) (hsize : 5 < range.length) :
    call.NearFront ↔ (call.begin = 0 → range.length ≠ 6) ∧
      call.begin ≤ (groupCount range.length + 1) / 2 + 1 := by
  have hlast := h.last_eq
  have hlength : call.last - call.begin + 1 = range.length := by omega
  rw [Call.NearFront, hlength, forall_prop_of_true (by omega)]
  refine and_congr_left fun _ ↦ forall_congr' fun hbegin ↦ not_congr ?_
  omega

omit [LinearOrder α] in
/-- The element that a call in its range returns is one of the range. -/
theorem Valid.indx_mem (h : Valid call before range after) (hrank : call.InRange) :
    call.begin ≤ call.indx ∧ call.indx ≤ call.last := by
  have hlt := h.length_lt
  obtain ⟨hle, hlast, hone, hk⟩ := hrank
  rw [Call.indx, wrap_of_lt (by omega), wrapSub_of_le (by omega) (by omega)]
  omega

theorem Valid.groupsBy (hsorts : Sorts sort) (h : Valid call before range after)
    (hsize : 5 < range.length) :
    ∃ grouped, call.groupsBy sort = .ok (call.begin + groupCount range.length, grouped) ∧
      Permutes before range after grouped := by
  have hcount := h.count
  have hlast := h.last_eq
  have hfew : groupCount range.length ≤ range.length := by
    rw [groupCount]
    omega
  have hgroup (nums : Elements α) {i : ℕ} (hlt : i < call.last) (hin : call.last < nums.val.length) :
      SortsAt sort nums.val i (groupEnd call.last i) := by
    have hlength := nums.property
    rw [groupEnd_eq (by omega)]
    exact hsorts nums i _ (by omega) (by omega)
  exact groupLoopBy_spec ⟨range, h.nums_eq, .refl range⟩ h.length_lt h.begin_eq hlast rfl
    (Nat.zero_le _) (by omega) (fun hlt ↦ hgroup ⟨call.nums, h.length_lt⟩ hlt (by dsimp only; omega))
    fun nums i _ hlt hin ↦ hgroup nums hlt hin

theorem Valid.eq_of_groupsBy {tail : ℕ} {grouped : List α} (hsorts : Sorts sort)
    (h : Valid call before range after) (hsize : 5 < range.length)
    (hgroups : call.groupsBy sort = .ok (tail, grouped)) :
    tail = call.begin + groupCount range.length ∧ Permutes before range after grouped := by
  obtain ⟨grouped', hgrouped, hpermutes⟩ := h.groupsBy hsorts hsize
  rw [hgroups] at hgrouped
  cases hgrouped
  exact ⟨rfl, hpermutes⟩

/-- The sort does its work on the range of a call. -/
theorem Valid.sortsBy (hsorts : Sorts sort) (h : Valid call before range after)
    (hrank : call.InRange) :
    ∃ sorted, sort call.nums call.begin call.last = .ok (before ++ sorted ++ after) ∧
      sorted.Perm range ∧ sorted.Pairwise (· ≤ ·) :=
  hsorts ⟨call.nums, h.length_lt⟩ _ _ hrank.begin_le hrank.last_lt before range after h.nums_eq
    h.begin_eq h.last_eq

/-- The call among the medians has a rank among them where the range is near the front. -/
theorem Valid.mediansBy {tail : ℕ} {grouped : List α} (hsorts : Sorts sort)
    (h : Valid call before range after) (hsize : 5 < range.length)
    (hgroups : call.groupsBy sort = .ok (tail, grouped)) :
    ∃ front back, Valid (call.medians tail grouped) before front (back ++ after) ∧
      (front ++ back).Perm range ∧ front.length = groupCount range.length + 1 ∧
      ((call.medians tail grouped).InRange ↔ call.NearFront) := by
  obtain ⟨rfl, hpermutes⟩ := h.eq_of_groupsBy hsorts hsize hgroups
  obtain ⟨front, back, hvalid, hrange, hfront, hmid⟩ := h.medians_of_permutes hsize hpermutes
  refine ⟨front, back, hvalid, hrange, hfront, ?_⟩
  rw [hvalid.inRange_iff, h.nearFront_iff hsize, hmid, hfront]
  unfold groupCount
  omega

/-- What a call hands on, if the call among the medians has returned in its range. -/
theorem Valid.callsBy (hsorts : Sorts sort) (h : Valid call before range after) (hrank : call.InRange)
    (hkept : ∀ tail grouped num rearranged, call.groupsBy sort = .ok (tail, grouped) →
      Returns ((call.medians tail grouped).runBy sort) (num, rearranged) →
      Permutes before range after rearranged) (hcalls : CallsBy sort call next) :
    ∃ before' range' after', Valid next before' range' after' ∧ range'.length < range.length ∧
      (call.NearFront → next.InRange) := by
  have hk := (h.inRange_iff.mp hrank).2
  have hsize := h.size_eq
  have hklt := h.k_lt
  cases hcalls with
  | medians hlarge hgroups =>
    rw [hsize] at hlarge
    obtain ⟨front, back, hvalid, -, hfront, hnear⟩ := h.mediansBy hsorts hlarge hgroups
    refine ⟨before, front, back ++ after, hvalid, ?_, hnear.mpr⟩
    rw [hfront, groupCount]
    omega
  | lower hlarge hgroups hmedians hpartition hlow =>
    rw [hsize] at hlarge
    obtain ⟨lows, pivot, highs, hsplits, -, -, hordinal, hlower, -⟩ :=
      h.parts hlarge (hkept _ _ _ _ hgroups hmedians) hpartition
    have hparts := hsplits.length_eq
    rw [hordinal] at hlow
    refine ⟨_, _, _, hlower hlow, by omega, fun _ ↦ (hlower hlow).inRange_iff.mpr ?_⟩
    exact ⟨hrank.one_le, Nat.le_of_lt_succ hlow⟩
  | @upper tail pos grouped rearranged parted num hlarge hgroups hmedians hpartition hhigh =>
    rw [hsize] at hlarge
    obtain ⟨lows, pivot, highs, hsplits, -, -, hordinal, -, hupper⟩ :=
      h.parts hlarge (hkept _ _ _ _ hgroups hmedians) hpartition
    have hparts := hsplits.length_eq
    rw [hordinal] at hhigh
    have hrest := h.upper_k parted hordinal hhigh.le
    refine ⟨_, _, _, hupper hhigh, by omega, fun _ ↦ (hupper hhigh).inRange_iff.mpr ?_⟩
    omega

/-! ### Runs -/

/-- The sort serves the calls from which only calls in their ranges are made. -/
theorem serves_of_sorts (hsorts : Sorts sort) :
    Serves sort fun call ↦
      ∀ other, Relation.ReflTransGen (CallsBy sort) call other → other.InRange := by
  refine ⟨fun hranks hcalls other hother ↦ hranks other (hother.head hcalls),
    fun {call before range after result} hranks h _ hsort ↦ ?_,
    fun _ h hsize hgroups ↦ h.eq_of_groupsBy hsorts hsize hgroups⟩
  obtain ⟨sorted, hsorted, hperm⟩ := h.sortsBy hsorts (hranks call .refl)
  rw [hsort] at hsorted
  exact ⟨sorted, Except.ok.inj hsorted, hperm⟩

/-- The call among the medians permutes the range, if only calls in their ranges are made from it. -/
theorem Valid.permutes_medians {tail : ℕ} {grouped rearranged : List α} {num : α}
    (hsorts : Sorts sort) (h : Valid call before range after) (hsize : 5 < range.length)
    (hgroups : call.groupsBy sort = .ok (tail, grouped))
    (hranks : ∀ other, Relation.ReflTransGen (CallsBy sort) (call.medians tail grouped) other →
      other.InRange)
    (hreturns : Returns ((call.medians tail grouped).runBy sort) (num, rearranged)) :
    Permutes before range after rearranged := by
  obtain ⟨front, back, hvalid, hrange, -⟩ := h.mediansBy hsorts hsize hgroups
  obtain ⟨bound, hbound⟩ := hreturns
  have heffects := (serves_of_sorts hsorts).effects hranks hvalid (hbound bound le_rfl)
  exact heffects.permutes.front hrange

/-- Every call that is made is on a range of the vector, if all are in their ranges. -/
theorem valid_of_made {other : Call α} (hsorts : Sorts sort) (h : Valid call before range after)
    (hranks : ∀ other, Relation.ReflTransGen (CallsBy sort) call other → other.InRange)
    (hmade : Relation.ReflTransGen (CallsBy sort) call other) :
    ∃ before' range' after', Valid other before' range' after' := by
  induction hmade with
  | refl => exact ⟨before, range, after, h⟩
  | @tail middle other hmade hcalls ih =>
    obtain ⟨before', range', after', hvalid⟩ := ih
    have hsize : 5 < range'.length := hvalid.size_eq ▸ hcalls.large
    obtain ⟨before'', range'', after'', hvalid', -⟩ := hvalid.callsBy hsorts (hranks middle hmade)
      (fun tail grouped num rearranged hgroups hreturns ↦
        hvalid.permutes_medians hsorts hsize hgroups (fun last hlast ↦ hranks last
          ((hmade.tail (.medians hcalls.large hgroups)).trans hlast)) hreturns) hcalls
    exact ⟨before'', range'', after'', hvalid'⟩

/-- All calls are in their ranges that are made from one that is, if all are near the front. -/
theorem inRange_of_nearFront (hsorts : Sorts sort) (h : Valid call before range after)
    (hrank : call.InRange)
    (hnear : ∀ other, Relation.ReflTransGen (CallsBy sort) call other → other.NearFront) :
    ∀ other, Relation.ReflTransGen (CallsBy sort) call other → other.InRange := by
  obtain ⟨size, hsize⟩ : ∃ size, range.length = size := ⟨_, rfl⟩
  induction size using Nat.strong_induction_on generalizing call before range after with
  | _ size ih =>
    intro other hmade
    rcases hmade.cases_head with rfl | ⟨next, hcalls, hmade⟩
    · exact hrank
    · have hlarge : 5 < range.length := h.size_eq ▸ hcalls.large
      have hfrom {next : Call α} (hcalls : CallsBy sort call next) (other : Call α)
          (hother : Relation.ReflTransGen (CallsBy sort) next other) : other.NearFront :=
        hnear other (hother.head hcalls)
      -- The call among the medians comes first, and is on fewer elements as well.
      have hkept (tail : ℕ) (grouped : List α) (num : α) (rearranged : List α)
          (hgroups : call.groupsBy sort = .ok (tail, grouped))
          (hreturns : Returns ((call.medians tail grouped).runBy sort) (num, rearranged)) :
          Permutes before range after rearranged := by
        have hmedians : CallsBy sort call (call.medians tail grouped) := .medians hcalls.large hgroups
        obtain ⟨front, back, hvalid, -, hfront, hmid⟩ := h.mediansBy hsorts hlarge hgroups
        have hfew : front.length < size := by
          rw [hfront, groupCount]
          omega
        exact h.permutes_medians hsorts hlarge hgroups
          (ih _ hfew hvalid (hmid.mpr (hnear call .refl)) (hfrom hmedians) rfl) hreturns
      obtain ⟨before', range', after', hvalid, hless, hnext⟩ := h.callsBy hsorts hrank hkept hcalls
      exact ih _ (hsize ▸ hless) hvalid (hnext (hnear call .refl)) (hfrom hcalls) rfl other hmade

theorem iterate_le_five (step : ℕ) {size : ℕ} (hsize : size ≤ 5) :
    (fun size ↦ groupCount size + 1)^[step] size ≤ 5 := by
  induction step generalizing size with
  | zero => exact hsize
  | succ step ih =>
    refine ih ?_
    dsimp only
    rw [groupCount]
    omega

/-- A call is near the front if the call among the medians is in its range. -/
theorem Valid.nearFront (hsorts : Sorts sort) (h : Valid call before range after)
    (hranks : ∀ next, CallsBy sort call next → next.InRange) : call.NearFront := by
  by_cases hsize : 5 < range.length
  · obtain ⟨grouped, hgroups, -⟩ := h.groupsBy hsorts hsize
    obtain ⟨front, back, -, -, -, hmid⟩ := h.mediansBy hsorts hsize hgroups
    exact hmid.mp (hranks _ (.medians (h.size_eq.symm ▸ hsize) hgroups))
  · have hlast := h.last_eq
    intro hlarge
    omega

/-- A call returns if all calls are in their ranges that are made from it. -/
theorem run_of_inRange {fuel : ℕ} (hsorts : Sorts sort) (h : Valid call before range after)
    (hranks : ∀ other, Relation.ReflTransGen (CallsBy sort) call other → other.InRange)
    (hfuel : range.length < fuel) : ∃ result, call.runBy sort fuel = .ok result := by
  refine (serves_of_sorts hsorts).exists_run (fun {call before range after} hranks h hsize fuel ↦ ?_)
    (fun {call before range after} _ h hlarge ↦ ?_) hranks h hfuel
  · have hrank := hranks call .refl
    obtain ⟨sorted, hsort, hperm, -⟩ := h.sortsBy hsorts hrank
    have hpermutes : Permutes before range after (before ++ sorted ++ after) := ⟨sorted, rfl, hperm⟩
    have hlength : (before ++ sorted ++ after).length = call.nums.length := by
      rw [hpermutes.length_eq, h.nums_eq]
    have hlt : call.indx < (before ++ sorted ++ after).length :=
      hlength ▸ (h.indx_mem hrank).2.trans_lt hrank.last_lt
    obtain ⟨num, hload⟩ : ∃ num, load (before ++ sorted ++ after) call.indx = .ok num :=
      ⟨_, load_of_lt hlt⟩
    refine ⟨(num, before ++ sorted ++ after), ?_⟩
    rw [Call.indx] at hload
    rw [Call.runBy, selectRangeBy, if_pos (by rwa [h.size_eq]), hsort, ok_bind, hload]
    rfl
  · obtain ⟨grouped, hgroups, -⟩ := h.groupsBy hsorts hlarge
    exact ⟨_, hgroups⟩

/-- None of the calls among medians, each on those of the one before, is on the first six elements of
the vector. -/
theorem iterate_ne_six_of_inRange (hsorts : Sorts sort) (h : Valid call [] range after)
    (hranks : ∀ other, Relation.ReflTransGen (CallsBy sort) call other → other.InRange) (step : ℕ) :
    (fun size ↦ groupCount size + 1)^[step] range.length ≠ 6 := by
  induction step generalizing call range after with
  | zero =>
    intro hsix
    rw [Function.iterate_zero, id] at hsix
    have hnear := h.nearFront hsorts fun next hcalls ↦ hranks next (.single hcalls)
    exact ((h.nearFront_iff (by omega)).mp hnear).1 h.begin_eq hsix
  | succ step ih =>
    rw [Function.iterate_succ_apply]
    by_cases hsize : 5 < range.length
    · obtain ⟨grouped, hgroups, -⟩ := h.groupsBy hsorts hsize
      obtain ⟨front, back, hvalid, -, hfront, -⟩ := h.mediansBy hsorts hsize hgroups
      have hmedians : CallsBy sort call (call.medians _ grouped) :=
        .medians (h.size_eq.symm ▸ hsize) hgroups
      rw [← hfront]
      exact ih hvalid fun other hother ↦ hranks other (hother.head hmedians)
    · have hfew := iterate_le_five step (by rw [groupCount]; omega : groupCount range.length + 1 ≤ 5)
      omega

/-! ### Results -/

/-- All calls that a selection makes are in their ranges, and the element at the index of the rank is
one of the range. -/
def RanksInRange (sort : RangeSort α) (nums : List α) (k : ℕ) : Prop :=
  ∀ call, Relation.ReflTransGen (CallsBy sort) (entry nums k) call →
    call.InRange ∧ call.begin ≤ call.indx ∧ call.indx ≤ call.last

variable {k : ℕ}

omit [LinearOrder α] in
theorem inRange_entry (nums : Elements α) (hnums : nums.val ≠ []) (hk : 1 ≤ k) :
    (entry nums.val k).InRange :=
  (valid_entry nums hnums hk).inRange_iff.mpr
    ⟨le_min hk (List.length_pos_iff.mpr hnums), Nat.min_le_right ..⟩

/-- The ranks are those of their ranges exactly where all calls are near the front. -/
theorem ranksInRange_iff (hsorts : Sorts sort) (nums : Elements α) (hnums : nums.val ≠ [])
    (hk : 1 ≤ k) :
    RanksInRange sort nums.val k ↔
      ∀ call, Relation.ReflTransGen (CallsBy sort) (entry nums.val k) call → call.NearFront := by
  have hentry := valid_entry nums hnums hk
  constructor
  · intro hranks call hmade
    have hin (other : Call α) (hother : Relation.ReflTransGen (CallsBy sort) (entry nums.val k) other) :
        other.InRange := (hranks other hother).1
    obtain ⟨before, range, after, hvalid⟩ := valid_of_made hsorts hentry hin hmade
    exact hvalid.nearFront hsorts fun next hcalls ↦ hin next (hmade.tail hcalls)
  · intro hnear call hmade
    have hin := inRange_of_nearFront hsorts hentry (inRange_entry nums hnums hk) hnear
    obtain ⟨before, range, after, hvalid⟩ := valid_of_made hsorts hentry hin hmade
    exact ⟨hin call hmade, hvalid.indx_mem (hin call hmade)⟩

theorem ranksInRange_iff_seven :
    RanksInRange sortRange ([5, 2, 7, 1, 6, 3, 4] : List ℤ) 4 ↔
      ∀ call, Relation.ReflTransGen (CallsBy sortRange) (entry ([5, 2, 7, 1, 6, 3, 4] : List ℤ) 4) call →
        call.NearFront :=
  ranksInRange_iff sorts_sortRange ⟨[5, 2, 7, 1, 6, 3, 4], by decide⟩ (by decide) (by decide)

/-- Six elements have one group, whose middle has no rank among the medians. -/
theorem not_ranksInRange_six :
    Sorts (sortRange : RangeSort ℤ) ∧ ¬ RanksInRange sortRange ([1, 2, 3, 4, 5, 6] : List ℤ) 1 := by
  refine ⟨sorts_sortRange, fun hranks ↦ ?_⟩
  have hgroups : (entry ([1, 2, 3, 4, 5, 6] : List ℤ) 1).groupsBy sortRange =
      .ok (1, [3, 2, 1, 4, 5, 6]) := by decide
  have hmedians := (hranks _ (.single (.medians (by decide) hgroups))).1
  exact absurd hmedians.one_le (by decide)

/-- A vector fails if its elements, their medians, or the medians of these, and so on, are six. -/
theorem RanksInRange.iterate_ne_six (hsorts : Sorts sort) {nums : Elements α} (hnums : nums.val ≠ [])
    (hk : 1 ≤ k) (hranks : RanksInRange sort nums.val k) (step : ℕ) :
    (fun size ↦ groupCount size + 1)^[step] nums.val.length ≠ 6 :=
  iterate_ne_six_of_inRange hsorts (valid_entry nums hnums hk)
    (fun other hother ↦ (hranks other hother).1) step

/-- Where the ranks are those of their ranges the selection finds what `heap_select` finds. -/
theorem RanksInRange.heapSelect_eq [Zero α] (hsorts : Sorts sort) {nums : Elements α}
    (hnums : nums.val ≠ []) (hk : 1 ≤ k) (hranks : RanksInRange sort nums.val k) :
    ∃ num result, Returns ((entry nums.val k).runBy sort) (num, result) ∧
      heapSelect nums.val k = some num ∧ result.Perm nums.val := by
  have hvalid := valid_entry nums hnums hk
  have hin (other : Call α) (hother : Relation.ReflTransGen (CallsBy sort) (entry nums.val k) other) :
      other.InRange := (hranks other hother).1
  obtain ⟨⟨num, result⟩, hrun⟩ := run_of_inRange hsorts hvalid hin (Nat.lt_succ_self _)
  exact ⟨num, result, returns_of_settles (fun fuel ↦ runBy_settles sort fuel _) hrun,
    ((serves_of_sorts hsorts).effects hin hvalid hrun).heapSelect_eq hnums hk⟩

end CppLearn.Algorithm.MedianOfMedians
