import CppLearn.Foundation.HeapList

/-!
# Partition of a list

`partition` links the nodes that are less than a bound behind one local node and the others behind a
second one. At the end it links the first part to the second local node itself, not to what follows
it. That node is gone when the function returns, so that what is returned leads to no node after the
first part (`partition_spec`), and the second part is lost.
-/

set_option autoImplicit false
set_option relaxedAutoImplicit false

namespace CppLearn.Leetcode.PartitionList

open Foundation.HeapList Foundation.NodeHeap

/-! ### The program -/

/-- The loop, with a limit on its rounds: the pointers `f` and `s` after it, and the heap. -/
def partitionLoop (x : ℤ) :
    ℕ → Heap (ListNode ℤ) → Ptr → Ptr → Ptr → Option (Ptr × Ptr × Heap (ListNode ℤ))
  | 0, _, _, _, _ => none
  | fuel + 1, heap, f, s, ptr =>
    if ptr ≠ none then do
      let node ← heap.load ptr
      if x ≤ node.val then do
        let heap ← setNext heap s ptr
        let s ← nextOf heap s
        let ptr ← nextOf heap ptr
        partitionLoop x fuel heap f s ptr
      else do
        let heap ← setNext heap f ptr
        let f ← nextOf heap f
        let ptr ← nextOf heap ptr
        partitionLoop x fuel heap f s ptr
    else some (f, s, heap)

variable (alloc : Allocator (ListNode ℤ))

/-- `partition`, with its local nodes in the heap until it returns. -/
def partition (heap : Heap (ListNode ℤ))
    (head : Ptr) (x : ℤ) : Option (Ptr × Heap (ListNode ℤ)) := do
  let (firstPart, heap) := alloc.new heap ⟨0, none⟩
  let (secondPart, heap) := alloc.new heap ⟨0, none⟩
  let (f, s, heap) ← partitionLoop x (heap.bound + 1) heap (some firstPart) (some secondPart) head
  let heap ← setNext heap s none
  let heap ← setNext heap f (some secondPart)
  let next ← nextOf heap (some firstPart)
  let heap ← heap.delete (some secondPart)
  let heap ← heap.delete (some firstPart)
  return (next, heap)

/-! ### The parts -/

/-- The nodes less than the bound. -/
def lesser (x : ℤ) (cells : Cells ℤ) : Cells ℤ := cells.filter fun cell ↦ cell.2 < x

/-- The nodes that are not. -/
def greater (x : ℤ) (cells : Cells ℤ) : Cells ℤ := cells.filter fun cell ↦ x ≤ cell.2

theorem lesser_of_lt {x : ℤ} {cell : ℕ × ℤ} {cells : Cells ℤ} (hlt : cell.2 < x) :
    lesser x (cell :: cells) = cell :: lesser x cells :=
  List.filter_cons_of_pos (decide_eq_true hlt)

theorem lesser_of_le {x : ℤ} {cell : ℕ × ℤ} {cells : Cells ℤ} (hle : x ≤ cell.2) :
    lesser x (cell :: cells) = lesser x cells :=
  List.filter_cons_of_neg (decide_eq_true_iff.not.mpr (not_lt.mpr hle))

theorem greater_of_le {x : ℤ} {cell : ℕ × ℤ} {cells : Cells ℤ} (hle : x ≤ cell.2) :
    greater x (cell :: cells) = cell :: greater x cells :=
  List.filter_cons_of_pos (decide_eq_true hle)

theorem greater_of_lt {x : ℤ} {cell : ℕ × ℤ} {cells : Cells ℤ} (hlt : cell.2 < x) :
    greater x (cell :: cells) = greater x cells :=
  List.filter_cons_of_neg (decide_eq_true_iff.not.mpr (not_le.mpr hlt))

variable {alloc} {heap : Heap (ListNode ℤ)} {head : Ptr} {cells front back rest : Cells ℤ} {x : ℤ}
  {first second : ℕ} {stop stop' : Ptr}

/-- The parts so far and the nodes that are left, none of them in two places. -/
structure Parts (heap : Heap (ListNode ℤ))
    (first second : ℕ) (front back rest : Cells ℤ) : Prop where
  isFront : ∃ stop, Segment heap ((first, 0) :: front) stop
  isBack : ∃ stop, Segment heap ((second, 0) :: back) stop
  isRest : Segment heap rest none
  nodup : ((first :: addresses front) ++ ((second :: addresses back) ++ addresses rest)).Nodup

theorem Parts.symm (h : Parts heap first second front back rest) :
    Parts heap second first back front rest where
  isFront := h.isBack
  isBack := h.isFront
  isRest := h.isRest
  nodup := by
    refine (List.Perm.nodup_iff ?_).mp h.nodup
    rw [← List.append_assoc, ← List.append_assoc]
    exact List.perm_append_comm.append_right _

/-- The pointer behind the first part is written. -/
theorem Parts.setFront (h : Parts heap first second front back rest) (next : Ptr) :
    ∃ heap', setNext heap (some (lastOf first front)) next = some heap' ∧
      nextOf heap' (some (lastOf first front)) = some next ∧
      Segment heap' ((first, 0) :: front) next ∧ Parts heap' first second front back rest := by
  obtain ⟨stop, hfront⟩ := h.isFront
  obtain ⟨stop', hback⟩ := h.isBack
  obtain ⟨hnodup, -, hdisjoint⟩ := List.nodup_append'.mp h.nodup
  obtain ⟨heap', hset, hnext, hfront', hsame⟩ := hfront.setLast hnodup next
  have hother {address : ℕ} (hmem : address ∈ (second :: addresses back) ++ addresses rest) :
      address ∉ ({lastOf first front} : Set ℕ) := by
    intro heq
    obtain rfl : address = lastOf first front := heq
    exact hdisjoint lastOf_mem hmem
  refine ⟨heap', hset, hnext, hfront', ⟨next, hfront'⟩, ⟨stop', ?_⟩, ?_, h.nodup⟩
  · exact hback.frame hsame fun address hmem ↦ hother (List.mem_append_left _ hmem)
  · exact h.isRest.frame hsame fun address hmem ↦ hother (List.mem_append_right _ hmem)

/-- The next node goes to the end of the first part. -/
theorem Parts.push {address : ℕ}
    {val : ℤ} (h : Parts heap first second front back ((address, val) :: rest)) :
    ∃ heap', setNext heap (some (lastOf first front)) (some address) = some heap' ∧
      nextOf heap' (some (lastOf first front)) = some (some address) ∧
      nextOf heap' (some address) = some (headOf rest none) ∧
      Parts heap' first second (front ++ [(address, val)]) back rest := by
  obtain ⟨heap', hset, hnext, hfront, hparts⟩ := h.setFront (some address)
  refine ⟨heap', hset, hnext, nextOf_some hparts.isRest.1, ⟨headOf rest none, ?_⟩, hparts.isBack,
    hparts.isRest.2, ?_⟩
  · rw [← List.cons_append]
    exact segment_append.mpr ⟨hfront, hparts.isRest.1, trivial⟩
  · refine (List.Perm.nodup_iff ?_).mp h.nodup
    rw [addresses_append, ← List.cons_append, addresses_cons, List.append_assoc]
    refine List.Perm.append_left _ ?_
    exact List.perm_middle

/-- The loop sends each node that is left to its part. -/
theorem partitionLoop_spec {fuel : ℕ} (h : Parts heap first second front back rest)
    (hfuel : rest.length < fuel) :
    ∃ heap', partitionLoop x fuel heap (some (lastOf first front)) (some (lastOf second back))
      (headOf rest none) = some (some (lastOf first (front ++ lesser x rest)),
      some (lastOf second (back ++ greater x rest)), heap') ∧
      Parts heap' first second (front ++ lesser x rest) (back ++ greater x rest) [] := by
  induction fuel generalizing heap front back rest with
  | zero => cases hfuel
  | succ fuel ih =>
    cases rest with
    | nil =>
      rw [lesser, greater, List.filter_nil, List.filter_nil, List.append_nil, List.append_nil]
      exact ⟨heap, rfl, h⟩
    | cons cell rest =>
      obtain ⟨address, val⟩ := cell
      rw [headOf_cons, partitionLoop, if_pos (Option.some_ne_none address), Heap.load_some,
        h.isRest.1]
      by_cases hle : x ≤ val
      · obtain ⟨heap1, hset, hnext, hrest, hparts⟩ := h.symm.push
        obtain ⟨heap', hloop, hparts'⟩ := ih hparts.symm (Nat.lt_of_succ_lt_succ hfuel)
        have hlast : lastOf second (back ++ [(address, val)]) = address := lastOf_append
        rw [hlast, List.append_assoc, List.singleton_append] at hloop
        rw [List.append_assoc, List.singleton_append] at hparts'
        refine ⟨heap', ?_, ?_⟩
        · simp only [Option.bind_eq_bind, Option.bind_some, if_pos hle, hset, hnext, hrest]
          rw [lesser_of_le hle, greater_of_le hle]
          exact hloop
        · rw [lesser_of_le hle, greater_of_le hle]
          exact hparts'
      · have hlt := not_le.mp hle
        obtain ⟨heap1, hset, hnext, hrest, hparts⟩ := h.push
        obtain ⟨heap', hloop, hparts'⟩ := ih hparts (Nat.lt_of_succ_lt_succ hfuel)
        have hlast : lastOf first (front ++ [(address, val)]) = address := lastOf_append
        rw [hlast, List.append_assoc, List.singleton_append] at hloop
        rw [List.append_assoc, List.singleton_append] at hparts'
        refine ⟨heap', ?_, ?_⟩
        · simp only [Option.bind_eq_bind, Option.bind_some, if_neg hle, hset, hnext, hrest]
          rw [lesser_of_lt hlt, greater_of_lt hlt]
          exact hloop
        · rw [lesser_of_lt hlt, greater_of_lt hlt]
          exact hparts'

/-- What is returned leads over the lesser nodes to an address where there is no node. -/
theorem partition_spec (alloc : Allocator (ListNode ℤ)) (h : IsList heap head cells) (x : ℤ) :
    ∃ dead heap', partition alloc heap head x = some (headOf (lesser x cells) (some dead), heap') ∧
      Segment heap' (lesser x cells) (some dead) ∧ heap'.node dead = none := by
  obtain ⟨rfl, hsegment⟩ := h
  obtain ⟨first, hfirst, hfree⟩ := alloc.exists_address heap
  obtain ⟨second, hsecond, hfree'⟩ := alloc.exists_address (heap.set first ⟨0, none⟩)
  have hne : first ≠ second := by
    rintro rfl
    cases Heap.set_node_self.symm.trans hfree'
  have hold := extends_set hfree ⟨0, none⟩
  have hparts :
      Parts ((heap.set first ⟨0, none⟩).set second ⟨0, none⟩) first second [] [] cells := by
    have hnot := hsegment.notMem hfree
    have hnot' := (hsegment.extends hold).notMem hfree'
    refine ⟨⟨none, (Heap.set_node_of_ne hne).trans Heap.set_node_self, trivial⟩,
      ⟨none, Heap.set_node_self, trivial⟩,
      (hsegment.extends hold).extends (extends_set hfree' ⟨0, none⟩),
      List.nodup_cons.mpr ⟨fun hmem ↦ ?_, List.nodup_cons.mpr ⟨hnot', hsegment.nodup⟩⟩⟩
    rcases List.mem_cons.mp hmem with heq | hmem
    · exact hne heq
    · exact hnot hmem
  have hlength : cells.length < ((heap.set first ⟨0, none⟩).set second ⟨0, none⟩).bound + 1 :=
    Nat.lt_succ_of_le (hparts.isRest.length_le hparts.isRest.nodup)
  obtain ⟨heap1, hloop, hparts1⟩ := partitionLoop_spec hparts hlength
  obtain ⟨heap2, hsetBack, -, -, hparts2⟩ := hparts1.symm.setFront none
  obtain ⟨heap3, hsetFront, -, hfront, hparts3⟩ := hparts2.symm.setFront (some second)
  obtain ⟨stop, hback⟩ := hparts3.isBack
  obtain ⟨heap4, hdelete, hgone, hsame⟩ := Heap.delete_some hback.1
  obtain ⟨heap5, hdelete', -, hsame'⟩ := Heap.delete_some ((hsame first hne).trans hfront.1)
  obtain ⟨hnodup, -, hdisjoint⟩ := List.nodup_append'.mp hparts3.nodup
  refine ⟨second, heap5, ?_, ?_, (hsame' second (Ne.symm hne)).trans hgone⟩
  · rw [partition]
    simp only [Allocator.new, hfirst, hsecond, Option.bind_eq_bind]
    rw [lastOf_nil, lastOf_nil] at hloop
    rw [hloop]
    simp only [Option.bind_some, hsetBack, hsetFront, nextOf_some hfront.1, hdelete, hdelete']
    rfl
  · refine (hfront.2.off hsame fun hmem ↦ ?_).off hsame' (List.nodup_cons.mp hnodup).1
    exact hdisjoint (List.mem_cons_of_mem _ hmem) (List.mem_append_left _ List.mem_cons_self)

/-- It is no list that ends with null. -/
theorem not_isList_partition {head' : Ptr} {heap' : Heap (ListNode ℤ)} (h : IsList heap head cells)
    (hpartition : partition alloc heap head x = some (head', heap')) (cells' : Cells ℤ) :
    ¬ IsList heap' head' cells' := by
  obtain ⟨dead, heap'', heq, hsegment, hdead⟩ := partition_spec alloc h x
  obtain ⟨rfl, rfl⟩ : headOf (lesser x cells) (some dead) = head' ∧ heap'' = heap' := by
    simpa using heq.symm.trans hpartition
  exact hsegment.not_isList hdead

/-- What the name says: the list of the lesser nodes and then of the others, in their order. -/
def Partitions (alloc : Allocator (ListNode ℤ))
    (heap : Heap (ListNode ℤ)) (head : Ptr) (cells : Cells ℤ) (x : ℤ) : Prop :=
  ∃ head' heap', partition alloc heap head x = some (head', heap') ∧
    IsList heap' head' (lesser x cells ++ greater x cells)

/-- No list is partitioned. -/
theorem not_partitions (alloc : Allocator (ListNode ℤ)) (h : IsList heap head cells) (x : ℤ) :
    ¬ Partitions alloc heap head cells x := by
  rintro ⟨head', heap', hpartition, hlist⟩
  exact not_isList_partition h hpartition _ hlist

/-- The list in the description of the file, 1->4->3->2->5->2. -/
def described : Heap (ListNode ℤ) :=
  (((((Heap.empty.set 0 ⟨1, some 1⟩).set 1 ⟨4, some 2⟩).set 2 ⟨3, some 3⟩).set 3
    ⟨2, some 4⟩).set 4 ⟨5, some 5⟩).set 5 ⟨2, none⟩

theorem isList_described :
    IsList described (some 0) [(0, 1), (1, 4), (2, 3), (3, 2), (4, 5), (5, 2)] :=
  ⟨rfl, rfl, rfl, rfl, rfl, rfl, rfl, trivial⟩

theorem not_partitions_described :
    ¬ Partitions .next described (some 0) [(0, 1), (1, 4), (2, 3), (3, 2), (4, 5), (5, 2)] 3 :=
  not_partitions .next isList_described 3

/-- The example in the description of the file. -/
theorem not_partitions_example :
    let heap := (((((Heap.empty.set 0 ⟨1, some 1⟩).set 1 ⟨4, some 2⟩).set 2 ⟨3, some 3⟩).set 3
      ⟨2, some 4⟩).set 4 ⟨5, some 5⟩).set 5 ⟨2, none⟩
    let cells : Cells ℤ := [(0, 1), (1, 4), (2, 3), (3, 2), (4, 5), (5, 2)]
    IsList heap (some 0) cells ∧ ¬ Partitions .next heap (some 0) cells 3 := by
  intro heap cells
  refine ⟨isList_described, ?_⟩
  rintro ⟨head', heap', hpartition, hlist⟩
  exact not_isList_partition isList_described hpartition _ hlist

end CppLearn.Leetcode.PartitionList
