import CppLearn.Leetcode.SortList

/-!
# Removing duplicates from a sorted list

There are two functions `deleteDuplicates`, both documented to leave each element once. The second
one does: it takes out a node that has the value of the one before it. The first one takes out all
nodes of a value that there is more than once, and so does what is documented only where there is
nothing to do.
-/

set_option autoImplicit false
set_option relaxedAutoImplicit false

namespace CppLearn.Leetcode.RemoveDuplicates

open Foundation.HeapList Foundation.NodeHeap
open SortList (canMove)

/-! ### The programs -/

/-- `cur->val == cur->next->val`. -/
def sameVal (heap : Heap (ListNode ℤ)) (cur : Ptr) : Option Bool := do
  let node ← heap.load cur
  let nextNode ← heap.load node.next
  return node.val = nextNode.val

/-- `cur->next != nullptr && cur->val == cur->next->val`. -/
def isTwin (heap : Heap (ListNode ℤ)) (cur : Ptr) : Option Bool := do
  let next ← nextOf heap cur
  if next = none then return false else sameVal heap cur

/-- The inner loop of the first function, with a limit on its rounds. -/
def twinLoop (heap : Heap (ListNode ℤ)) : ℕ → Ptr → Bool → Option (Ptr × Bool)
  | 0, _, _ => none
  | fuel + 1, cur, isDup => do
    let twin ← isTwin heap cur
    if twin then do
      let cur ← nextOf heap cur
      twinLoop heap fuel cur true
    else return (cur, isDup)

/-- The branches of the outer loop: `ptr` after them, and the heap. -/
def skip (heap : Heap (ListNode ℤ)) (ptr cur : Ptr) (isDup : Bool) :
    Option (Ptr × Heap (ListNode ℤ)) :=
  if isDup then do
    let next ← nextOf heap cur
    let heap ← setNext heap ptr next
    return (ptr, heap)
  else do
    let ptr ← nextOf heap ptr
    return (ptr, heap)

/-- The outer loop, with a limit on its rounds. -/
def skipLoop : ℕ → Heap (ListNode ℤ) → Ptr → Option (Heap (ListNode ℤ))
  | 0, _, _ => none
  | fuel + 1, heap, ptr => do
    let more ← canMove heap ptr
    if more then do
      let cur ← nextOf heap ptr
      let (cur, isDup) ← twinLoop heap (heap.bound + 1) cur false
      let (ptr, heap) ← skip heap ptr cur isDup
      skipLoop fuel heap ptr
    else return heap

/-- `deleteDuplicates` of `remove_duplicates_from_sorted_list.cpp`, with the guard as a node of its
own for the time of the loop. -/
def deleteDuplicates (alloc : Allocator (ListNode ℤ)) (heap : Heap (ListNode ℤ)) (head : Ptr) :
    Option (Ptr × Heap (ListNode ℤ)) := do
  let (dummy, heap) := alloc.new heap ⟨0, head⟩
  let heap ← skipLoop (heap.bound + 1) heap (some dummy)
  release heap dummy

/-- One round of the loop of the second function: `cur` after it, and the heap. -/
def dropTwin (heap : Heap (ListNode ℤ)) (cur : Ptr) : Option (Ptr × Heap (ListNode ℤ)) := do
  let next ← nextOf heap cur
  let same ← sameVal heap cur
  if same then do
    let next ← nextOf heap next
    let heap ← setNext heap cur next
    return (cur, heap)
  else return (next, heap)

/-- The loop of the second function, with a limit on its rounds. -/
def dropLoop : ℕ → Heap (ListNode ℤ) → Ptr → Option (Heap (ListNode ℤ))
  | 0, _, _ => none
  | fuel + 1, heap, cur => do
    let more ← canMove heap cur
    if more then do
      let (cur, heap) ← dropTwin heap cur
      dropLoop fuel heap cur
    else return heap

/-- `deleteDuplicates` of `remove_duplicates_from_sorted_list_ii.cpp`. -/
def deleteDuplicatesII (heap : Heap (ListNode ℤ)) (head : Ptr) :
    Option (Ptr × Heap (ListNode ℤ)) := do
  let heap ← dropLoop (heap.bound + 1) heap head
  return (head, heap)

/-! ### What occurs once -/

/-- The nodes whose value no other one has. -/
def unrepeated (cells : Cells ℤ) : Cells ℤ :=
  cells.filter fun cell ↦ (vals cells).count cell.2 = 1

variable {heap : Heap (ListNode ℤ)} {head : Ptr} {cells front rest xs ys : Cells ℤ}
    {cur ptr address fuel : ℕ} {val elem : ℤ}

/-- Values that are less do not count among those that are greater. -/
theorem unrepeated_append (hless : ∀ x ∈ xs, ∀ y ∈ ys, x.2 < y.2) :
    unrepeated (xs ++ ys) = unrepeated xs ++ unrepeated ys := by
  rw [unrepeated, List.filter_append]
  congr 1
  · refine List.filter_congr fun cell hcell ↦ ?_
    have hzero : (vals ys).count cell.2 = 0 := List.count_eq_zero.mpr fun hmem ↦ by
      obtain ⟨other, hother, heq⟩ := List.mem_map.mp hmem
      exact (hless cell hcell other hother).ne heq.symm
    rw [vals_append, List.count_append, hzero, Nat.add_zero]
  · refine List.filter_congr fun cell hcell ↦ ?_
    have hzero : (vals xs).count cell.2 = 0 := List.count_eq_zero.mpr fun hmem ↦ by
      obtain ⟨other, hother, heq⟩ := List.mem_map.mp hmem
      exact (hless other hother cell hcell).ne heq
    rw [vals_append, List.count_append, hzero, Nat.zero_add]

/-- One node of a value is kept, and none of several. -/
theorem unrepeated_run {run : Cells ℤ} (hrun : ∀ cell ∈ run, cell.2 = val) :
    unrepeated ((address, val) :: run) = if run = [] then [(address, val)] else [] := by
  cases run with
  | nil => simp [unrepeated]
  | cons other run =>
    rw [if_neg (List.cons_ne_nil _ _), unrepeated, List.filter_eq_nil_iff]
    intro cell hcell
    have hval : cell.2 = val := by
      rcases List.mem_cons.mp hcell with rfl | hmem
      · rfl
      · exact hrun cell hmem
    have hother := hrun other List.mem_cons_self
    simp [hval, hother, vals]

/-! ### The first function -/

/-- The inner loop goes to the last node of the run of equal values. -/
theorem twinLoop_spec {isDup : Bool} (h : Segment heap ((cur, val) :: rest) none)
    (hfuel : rest.length < fuel) :
    ∃ run rest', rest = run ++ rest' ∧ (∀ cell ∈ run, cell.2 = val) ∧
      (∀ cell ∈ rest'.head?, cell.2 ≠ val) ∧ twinLoop heap fuel (some cur) isDup =
        some (some (lastOf cur run), isDup || decide (run ≠ [])) := by
  induction rest generalizing cur fuel isDup with
  | nil =>
    obtain ⟨fuel, rfl⟩ := Nat.exists_eq_succ_of_ne_zero (Nat.ne_of_gt hfuel)
    refine ⟨[], [], rfl, List.forall_mem_nil _, fun cell hcell ↦ (nomatch hcell), ?_⟩
    simp [twinLoop, isTwin, nextOf_some h.1]
  | cons cell rest ih =>
    obtain ⟨fuel, rfl⟩ := Nat.exists_eq_succ_of_ne_zero (Nat.ne_of_gt (Nat.zero_lt_of_lt hfuel))
    obtain ⟨other, elem⟩ := cell
    have htwin : isTwin heap (some cur) = some (decide (val = elem)) := by
      simp [isTwin, sameVal, nextOf_some h.1, h.1, h.2.1]
    rw [twinLoop, htwin]
    by_cases heq : val = elem
    · obtain ⟨run, rest', hsplit, hrun, hend, hloop⟩ :=
        @ih other fuel true (heq ▸ h.2) (Nat.lt_of_succ_lt_succ hfuel)
      refine ⟨(other, elem) :: run, rest', congrArg _ hsplit,
        List.forall_mem_cons.mpr ⟨heq.symm, hrun⟩, hend, ?_⟩
      simp [heq, nextOf_some h.1, hloop]
    · refine ⟨[], (other, elem) :: rest, rfl, List.forall_mem_nil _, ?_, ?_⟩
      · rintro cell ⟨⟩
        exact Ne.symm heq
      · simp [heq]

/-- Behind the run of equal values that a sorted list begins with all are greater. -/
theorem lt_of_sorted {run : Cells ℤ}
    (hsorted : (vals ((cur, val) :: (run ++ rest))).Pairwise (· ≤ ·))
    (hend : ∀ cell ∈ rest.head?, cell.2 ≠ val) : ∀ cell ∈ rest, val < cell.2 := by
  rw [vals_cons, vals_append, List.pairwise_cons, List.pairwise_append] at hsorted
  obtain ⟨hle, -, hrest, -⟩ := hsorted
  cases rest with
  | nil => exact List.forall_mem_nil _
  | cons first rest =>
    have hfirst : val < first.2 :=
      lt_of_le_of_ne (hle _ (List.mem_append_right _ List.mem_cons_self)) (Ne.symm (hend _ rfl))
    refine List.forall_mem_cons.mpr ⟨hfirst, fun cell hcell ↦ hfirst.trans_le ?_⟩
    exact (List.pairwise_cons.mp hrest).1 _ (List.mem_map_of_mem hcell)

/-- The outer loop leaves the nodes behind `ptr` whose value occurs once. -/
theorem skipLoop_spec {seen todo : Cells ℤ} (h : Segment heap (seen ++ (ptr, elem) :: todo) none)
    (hsorted : (vals todo).Pairwise (· ≤ ·)) (hfuel : todo.length < fuel) :
    ∃ heap', skipLoop fuel heap (some ptr) = some heap' ∧
      Segment heap' (seen ++ (ptr, elem) :: unrepeated todo) none ∧
      SameOff {address | address ∈ addresses ((ptr, elem) :: todo)} heap heap' := by
  induction fuel generalizing heap seen ptr elem todo with
  | zero => cases hfuel
  | succ fuel ih =>
    have htail := (segment_append.mp h).2
    cases todo with
    | nil =>
      refine ⟨heap, ?_, h, .refl _ heap⟩
      simp [skipLoop, canMove, nextOf_some htail.1]
    | cons cell rest =>
      obtain ⟨cur, val⟩ := cell
      have hlength := h.length_le h.nodup
      rw [List.length_append, List.length_cons, List.length_cons] at hlength
      obtain ⟨run, rest', rfl, hrun, hend, hloop⟩ :=
        @twinLoop_spec heap rest cur (heap.bound + 1) val false htail.2 (by omega)
      have hmore := lt_of_sorted hsorted hend
      have hkept : unrepeated ((cur, val) :: (run ++ rest')) =
          unrepeated ((cur, val) :: run) ++ unrepeated rest' := by
        refine @unrepeated_append ((cur, val) :: run) rest' fun cell hcell other hother ↦ ?_
        rcases List.mem_cons.mp hcell with rfl | hmem
        · exact hmore other hother
        · rw [hrun cell hmem]
          exact hmore other hother
      have hsorted' : (vals rest').Pairwise (· ≤ ·) := by
        rw [vals_cons, vals_append, List.pairwise_cons, List.pairwise_append] at hsorted
        exact hsorted.2.2.1
      rw [List.length_cons, List.length_append] at hfuel
      have hstep : skipLoop (fuel + 1) heap (some ptr) =
          (skip heap (some ptr) (some (lastOf cur run)) (decide (run ≠ []))).bind fun after ↦
            skipLoop fuel after.2 after.1 := by
        rw [Bool.false_or] at hloop
        simp [skipLoop, canMove, nextOf_some htail.1, hloop]
      rw [hstep, hkept, unrepeated_run hrun]
      by_cases hsingle : run = []
      · subst hsingle
        have hnext : Segment heap (seen ++ [(ptr, elem)] ++ (cur, val) :: rest') none := by
          rw [List.append_assoc]
          exact h
        obtain ⟨heap', hrest, hsegment, hsame⟩ := ih hnext hsorted' (by omega)
        rw [List.append_assoc] at hsegment
        refine ⟨heap', ?_, hsegment, hsame.mono fun _ ↦ List.mem_cons_of_mem ptr⟩
        simp [skip, nextOf_some htail.1, hrest]
      · have hlast := htail.2.nextOf_lastOf
        obtain ⟨heap', hrest, hsegment, hsame⟩ :=
          ih (@Segment.takeOutMany _ heap ptr elem seen rest' ((cur, val) :: run) h) hsorted'
            (by omega)
        rw [if_neg hsingle, List.nil_append]
        refine ⟨heap', ?_, hsegment, (sameOff_set_of_mem List.mem_cons_self heap _).trans
          (hsame.mono fun address hmem ↦ ?_)⟩
        · simp [skip, hsingle, hlast, setNext_some htail.1, hrest]
        · rcases List.mem_cons.mp hmem with rfl | hmem
          · exact List.mem_cons_self
          · refine List.mem_cons_of_mem ptr (List.mem_cons_of_mem cur ?_)
            rw [← addresses, addresses_append]
            exact List.mem_append_right _ hmem

/-- The first function leaves the nodes whose value occurs once. -/
theorem deleteDuplicates_eq {alloc : Allocator (ListNode ℤ)} (h : IsList heap head cells)
    (hsorted : (vals cells).Pairwise (· ≤ ·)) :
    ∃ heap', deleteDuplicates alloc heap head = some (headOf (unrepeated cells) none, heap') ∧
      IsList heap' (headOf (unrepeated cells) none) (unrepeated cells) ∧
      SameOff {address | address ∈ addresses cells} heap heap' := by
  obtain ⟨dummy, hnew, hfree, hguarded⟩ := h.guarded alloc 0
  have hle := hguarded.length_le hguarded.nodup
  rw [List.length_cons] at hle
  obtain ⟨heap1, hloop, hsegment, hsame⟩ :=
    @skipLoop_spec _ dummy ((heap.set dummy ⟨0, head⟩).bound + 1) 0 [] cells hguarded hsorted
      (by omega)
  obtain ⟨heap', hrelease, hlist, hsame', -⟩ := Segment.release hsegment hfree
    ((sameOff_set_of_mem List.mem_cons_self heap _).trans hsame)
  refine ⟨heap', ?_, hlist, hsame'⟩
  rw [deleteDuplicates, hnew]
  simp [hloop, hrelease]

/-! ### The second function -/

/-- The loop leaves the first node of each value. -/
theorem dropLoop_spec {seen : Cells ℤ} (h : Segment heap (seen ++ (cur, val) :: rest) none)
    (hsorted : (vals ((cur, val) :: rest)).Pairwise (· ≤ ·)) (hfuel : rest.length < fuel) :
    ∃ heap' kept, dropLoop fuel heap (some cur) = some heap' ∧
      Segment heap' (seen ++ (cur, val) :: kept) none ∧
      (vals ((cur, val) :: kept)).Pairwise (· < ·) ∧
      (∀ elem, elem ∈ vals ((cur, val) :: kept) ↔ elem ∈ vals ((cur, val) :: rest)) ∧
      kept.Sublist rest ∧
      SameOff {address | address ∈ addresses ((cur, val) :: rest)} heap heap' := by
  induction rest generalizing heap seen cur val fuel with
  | nil =>
    obtain ⟨fuel, rfl⟩ := Nat.exists_eq_succ_of_ne_zero (Nat.ne_of_gt hfuel)
    refine ⟨heap, [], ?_, h, List.pairwise_singleton _ _, fun _ ↦ Iff.rfl, .refl [], .refl _ heap⟩
    simp [dropLoop, canMove, nextOf_some (segment_append.mp h).2.1]
  | cons cell rest ih =>
    obtain ⟨fuel, rfl⟩ := Nat.exists_eq_succ_of_ne_zero (Nat.ne_of_gt (Nat.zero_lt_of_lt hfuel))
    obtain ⟨other, elem⟩ := cell
    obtain ⟨hcur, hother, -⟩ := (segment_append.mp h).2
    rw [vals_cons, vals_cons, List.pairwise_cons, List.forall_mem_cons] at hsorted
    obtain ⟨⟨hle, hleRest⟩, hsorted'⟩ := hsorted
    have hstep : dropLoop (fuel + 1) heap (some cur) =
        (dropTwin heap (some cur)).bind fun after ↦ dropLoop fuel after.2 after.1 := by
      simp [dropLoop, canMove, nextOf_some hcur]
    rw [hstep]
    by_cases heq : val = elem
    · subst heq
      obtain ⟨heap', kept, hloop, hsegment, hstrict, hmem, hsublist, hsame⟩ :=
        ih h.takeOut hsorted' (Nat.lt_of_succ_lt_succ hfuel)
      refine ⟨heap', kept, ?_, hsegment, hstrict, fun elem ↦ ?_, hsublist.cons _, ?_⟩
      · simp [dropTwin, sameVal, nextOf_some hcur, hcur, hother, nextOf_some hother,
          setNext_some hcur, hloop]
      · rw [hmem, vals_cons, vals_cons, vals_cons, List.mem_cons, List.mem_cons, List.mem_cons]
        tauto
      · refine (sameOff_set_of_mem List.mem_cons_self heap _).trans
          (hsame.mono fun address hin ↦ ?_)
        rcases List.mem_cons.mp hin with rfl | hin
        · exact List.mem_cons_self
        · exact List.mem_cons_of_mem cur (List.mem_cons_of_mem other hin)
    · have hnext : Segment heap (seen ++ [(cur, val)] ++ (other, elem) :: rest) none := by
        rw [List.append_assoc]
        exact h
      obtain ⟨heap', kept, hloop, hsegment, hstrict, hmem, hsublist, hsame⟩ :=
        ih hnext hsorted' (Nat.lt_of_succ_lt_succ hfuel)
      rw [List.append_assoc] at hsegment
      refine ⟨heap', (other, elem) :: kept, ?_, hsegment, ?_, fun value ↦ ?_, hsublist.cons_cons _,
        hsame.mono fun _ ↦ List.mem_cons_of_mem cur⟩
      · simp [dropTwin, sameVal, nextOf_some hcur, hcur, hother, heq, hloop]
      · have hless : val < elem := lt_of_le_of_ne hle heq
        refine List.pairwise_cons.mpr
          ⟨List.forall_mem_cons.mpr ⟨hless, fun value hin ↦ ?_⟩, hstrict⟩
        exact hless.trans ((List.pairwise_cons.mp hstrict).1 value hin)
      · exact (List.mem_cons.trans (or_congr_right (hmem value))).trans List.mem_cons.symm

/-! ### The documented result -/

/-- What is documented: the list that is returned has each value once, in ascending order. -/
def DeletesDuplicates (run : Heap (ListNode ℤ) → Ptr → Option (Ptr × Heap (ListNode ℤ)))
    (heap : Heap (ListNode ℤ)) (head : Ptr) (cells : Cells ℤ) : Prop :=
  ∃ head' heap' kept, run heap head = some (head', heap') ∧ IsList heap' head' kept ∧
    (vals kept).Pairwise (· < ·) ∧ (∀ val, val ∈ vals kept ↔ val ∈ vals cells) ∧
    kept.Sublist cells ∧ SameOff {address | address ∈ addresses cells} heap heap'

theorem deletesDuplicates_second (h : IsList heap head cells)
    (hsorted : (vals cells).Pairwise (· ≤ ·)) :
    DeletesDuplicates deleteDuplicatesII heap head cells := by
  obtain ⟨rfl, hsegment⟩ := h
  cases cells with
  | nil =>
    exact ⟨none, heap, [], rfl, ⟨rfl, segment_nil⟩, List.Pairwise.nil, fun _ ↦ Iff.rfl, .refl [],
      .refl _ heap⟩
  | cons cell rest =>
    obtain ⟨cur, val⟩ := cell
    have hle := hsegment.length_le hsegment.nodup
    rw [List.length_cons] at hle
    obtain ⟨heap', kept, hloop, hsegment', hstrict, hmem, hsublist, hsame⟩ :=
      @dropLoop_spec heap rest cur (heap.bound + 1) val [] hsegment hsorted (by omega)
    refine ⟨some cur, heap', (cur, val) :: kept, ?_, ⟨rfl, hsegment'⟩, hstrict, hmem,
      hsublist.cons_cons _, hsame⟩
    rw [deleteDuplicatesII, headOf_cons, hloop]
    rfl

/-- The first function does what is documented where no two values are equal. -/
theorem deletesDuplicates_first_iff {alloc : Allocator (ListNode ℤ)} (h : IsList heap head cells)
    (hsorted : (vals cells).Pairwise (· ≤ ·)) :
    DeletesDuplicates (deleteDuplicates alloc) heap head cells ↔ (vals cells).Nodup := by
  obtain ⟨heap', hrun, hlist, hsame⟩ := @deleteDuplicates_eq heap head cells alloc h hsorted
  constructor
  · rintro ⟨head1, heap1, kept, hrun1, hlist1, -, hmem, -⟩
    obtain ⟨rfl, rfl⟩ := Prod.mk.inj (Option.some.inj (hrun.symm.trans hrun1))
    obtain rfl : kept = unrepeated cells :=
      hlist1.segment.unique hlist.segment (hlist1.head_eq.trans hlist.head_eq.symm)
    refine List.nodup_iff_count_le_one.mpr fun val ↦ ?_
    by_cases hval : val ∈ vals cells
    · obtain ⟨cell, hcell, rfl⟩ := List.mem_map.mp ((hmem val).mpr hval)
      exact (of_decide_eq_true (List.mem_filter.mp hcell).2).le
    · rw [List.count_eq_zero.mpr hval]
      exact Nat.zero_le 1
  · intro hnodup
    have hself : unrepeated cells = cells := by
      refine List.filter_eq_self.mpr fun cell hcell ↦ decide_eq_true ?_
      exact List.count_eq_one_of_mem hnodup (List.mem_map_of_mem hcell)
    rw [hself] at hrun hlist
    exact ⟨_, heap', cells, hrun, hlist, hsorted.imp₂ (fun _ _ ↦ lt_of_le_of_ne) hnodup,
      fun _ ↦ Iff.rfl, .refl cells, hsame⟩

/-- Both functions do what is documented exactly if there is nothing to delete. -/
theorem deletesDuplicates_iff {alloc : Allocator (ListNode ℤ)} (h : IsList heap head cells)
    (hsorted : (vals cells).Pairwise (· ≤ ·)) :
    DeletesDuplicates (deleteDuplicates alloc) heap head cells ∧
      DeletesDuplicates deleteDuplicatesII heap head cells ↔ (vals cells).Nodup := by
  rw [deletesDuplicates_first_iff h hsorted]
  exact and_iff_left (deletesDuplicates_second h hsorted)

/-- A list of two values. -/
theorem deletesDuplicates_two :
    let heap := (Heap.empty.set 0 ⟨1, some 1⟩).set 1 ⟨2, none⟩
    DeletesDuplicates (deleteDuplicates .next) heap (some 0) [(0, 1), (1, 2)] ∧
      DeletesDuplicates deleteDuplicatesII heap (some 0) [(0, 1), (1, 2)] := by
  intro heap
  have h : IsList heap (some 0) [(0, 1), (1, 2)] := ⟨rfl, rfl, rfl, trivial⟩
  exact (deletesDuplicates_iff h (by decide)).mpr (by decide)

/-- Of two nodes with one value the first function leaves none. -/
theorem not_deletesDuplicates_twins :
    let heap := (Heap.empty.set 0 ⟨1, some 1⟩).set 1 ⟨1, none⟩
    IsList heap (some 0) [(0, 1), (1, 1)] ∧
      (vals [(0, (1 : ℤ)), (1, 1)]).Pairwise (· ≤ ·) ∧
      ¬ (DeletesDuplicates (deleteDuplicates .next) heap (some 0) [(0, 1), (1, 1)] ∧
        DeletesDuplicates deleteDuplicatesII heap (some 0) [(0, 1), (1, 1)]) := by
  intro heap
  have h : IsList heap (some 0) [(0, 1), (1, 1)] := ⟨rfl, rfl, rfl, trivial⟩
  refine ⟨h, by decide, fun ⟨hfirst, _⟩ ↦ ?_⟩
  have hnodup := (deletesDuplicates_first_iff h (by decide)).mp hfirst
  exact absurd hnodup (by decide)

end CppLearn.Leetcode.RemoveDuplicates
