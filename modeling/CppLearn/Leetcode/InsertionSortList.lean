import CppLearn.Foundation.HeapList
import CppLearn.Foundation.StableSort

/-!
# Insertion sort of lists

`insertionSortList` keeps the nodes that it has sorted in front of those that it has not, behind a
guard and up to the node at `last`. The next node stays where it is if no sorted one is greater;
else it is taken out and put in before the first one that is.
-/

set_option autoImplicit false
set_option relaxedAutoImplicit false

namespace CppLearn.Leetcode.InsertionSortList

open Foundation.HeapList Foundation.NodeHeap Foundation.StableSort

/-! ### The program -/

/-- The inner loop, with a limit on its rounds. -/
def findLoop (heap : Heap (ListNode ℤ)) (last cur : Ptr) : ℕ → Ptr → Option Ptr
  | 0, _ => none
  | fuel + 1, ptr =>
    if ptr ≠ last then do
      let next ← nextOf heap ptr
      let nextNode ← heap.load next
      let curNode ← heap.load cur
      if nextNode.val ≤ curNode.val then findLoop heap last cur fuel next else return ptr
    else some ptr

/-- The branches of the outer loop: the heap and `last` after them. -/
def insert (heap : Heap (ListNode ℤ)) (last cur ptr : Ptr) : Option (Heap (ListNode ℤ) × Ptr) :=
  if ptr = last then some (heap, cur)
  else do
    let heap ← moveNext heap last cur ptr
    return (heap, last)

/-- The outer loop, with a limit on its rounds. -/
def insertLoop (guard : Ptr) : ℕ → Heap (ListNode ℤ) → Ptr → Ptr → Option (Heap (ListNode ℤ))
  | 0, _, _, _ => none
  | fuel + 1, heap, last, cur =>
    if cur ≠ none then do
      let ptr ← findLoop heap last cur (heap.bound + 1) guard
      let (heap, last) ← insert heap last cur ptr
      let cur ← nextOf heap last
      insertLoop guard fuel heap last cur
    else some heap

variable (alloc : Allocator (ListNode ℤ))

/-- `insertionSortList`, with the guard as a node of its own for the time of the loop. -/
def insertionSortList (heap : Heap (ListNode ℤ))
    (head : Ptr) : Option (Ptr × Heap (ListNode ℤ)) := do
  let (guard, heap) := alloc.new heap ⟨0, head⟩
  let heap ← insertLoop (some guard) (heap.bound + 1) heap (some guard) head
  release heap guard

/-! ### The place -/

variable {alloc} {heap : Heap (ListNode ℤ)}
    {head : Ptr} {cells sorted seen rest : Cells ℤ} {guard cur : ℕ} {val : ℤ} {next : Ptr}

/-- The inner loop ends behind the sorted nodes that are not greater. -/
theorem findLoop_spec {fuel ptr : ℕ}
    {elem : ℤ} (h : Segment heap ((ptr, elem) :: (sorted ++ rest)) none)
    (hcur : heap.node cur = some ⟨val, next⟩) (hfuel : sorted.length < fuel) :
    ∃ small large, sorted = small ++ large ∧ (∀ cell ∈ small, cell.2 ≤ val) ∧
      (∀ cell ∈ large.head?, val < cell.2) ∧
      findLoop heap (some (lastOf ptr sorted)) (some cur) fuel (some ptr) =
      some (some (lastOf ptr small)) := by
  induction sorted generalizing fuel ptr elem with
  | nil =>
    obtain ⟨fuel, rfl⟩ := Nat.exists_eq_succ_of_ne_zero (Nat.ne_of_gt hfuel)
    refine ⟨[], [], rfl, nofun, nofun, ?_⟩
    rw [findLoop, lastOf_nil, if_neg (not_not.mpr rfl)]
  | cons cell sorted ih =>
    obtain ⟨fuel, rfl⟩ := Nat.exists_eq_succ_of_ne_zero (Nat.ne_of_gt (Nat.zero_lt_of_lt hfuel))
    obtain ⟨other, first⟩ := cell
    have hne := h.ne_lastOf (List.cons_ne_nil _ _)
    by_cases hle : first ≤ val
    · obtain ⟨small, large, rfl, hsmall, hlarge, hloop⟩ := ih h.2 (Nat.lt_of_succ_lt_succ hfuel)
      refine ⟨(other, first) :: small, large, rfl, List.forall_mem_cons.mpr ⟨hle, hsmall⟩, hlarge,
        ?_⟩
      rw [findLoop, lastOf_cons, if_pos (by simpa using hne), nextOf_some h.1]
      simp only [Option.bind_eq_bind, Option.bind_some, List.cons_append, headOf_cons,
        Heap.load_some, h.2.1, hcur, if_pos hle]
      exact hloop
    · refine ⟨[], (other, first) :: sorted, rfl, nofun, ?_, ?_⟩
      · rintro cell ⟨⟩
        exact not_le.mp hle
      · rw [findLoop, lastOf_cons, if_pos (by simpa using hne), nextOf_some h.1]
        simp only [Option.bind_eq_bind, Option.bind_some, List.cons_append, headOf_cons,
          Heap.load_some, h.2.1, hcur, if_neg hle]
        rfl

/-! ### One round -/

/-- The node goes to its place, and `last` is the last sorted one again. -/
theorem insert_spec {small large : Cells ℤ} {elem : ℤ}
    (h : Segment heap ((guard, elem) :: (small ++ large ++ (cur, val) :: rest)) none) : ∃ heap',
      insert heap (some (lastOf guard (small ++ large))) (some cur) (some (lastOf guard small)) =
      some (heap', some (lastOf guard (small ++ (cur, val) :: large))) ∧
      Segment heap' ((guard, elem) :: (small ++ (cur, val) :: large ++ rest)) none ∧
      SameOff {address | address ∈ guard :: addresses (small ++ large ++ (cur, val) :: rest)}
      heap heap' := by
  rw [lastOf_append, lastOf_append, lastOf_cons]
  cases large with
  | nil =>
    refine ⟨heap, if_pos rfl, ?_, .refl _ heap⟩
    rwa [List.append_nil, ← List.append_cons] at *
  | cons cell large =>
    obtain ⟨address, first⟩ := cell
    obtain ⟨front, ptrVal, hfront⟩ := exists_eq_append_lastOf guard elem small
    obtain ⟨middle, lastVal, hmiddle⟩ := exists_eq_append_lastOf address first large
    have hguard (tail : Cells ℤ) :
        (guard, elem) :: (small ++ tail) = front ++ (lastOf guard small, ptrVal) :: tail := by
      rw [← List.cons_append, hfront, List.append_assoc, List.singleton_append]
    have hlarge (tail : Cells ℤ) : (address, first) :: (large ++ tail) =
        middle ++ (lastOf address large, lastVal) :: tail := by
      rw [← List.cons_append, hmiddle, List.append_assoc, List.singleton_append]
    have hbefore : (guard, elem) :: (small ++ (address, first) :: large ++ (cur, val) :: rest) =
        front ++ (lastOf guard small, ptrVal) ::
          (middle ++ (lastOf address large, lastVal) :: (cur, val) :: rest) := by
      rw [List.append_assoc, List.cons_append, hlarge, hguard]
    have hafter : (guard, elem) :: (small ++ (cur, val) :: (address, first) :: large ++ rest) =
        front ++ (lastOf guard small, ptrVal) :: (cur, val) ::
          (middle ++ (lastOf address large, lastVal) :: rest) := by
      rw [List.append_assoc, List.cons_append, List.cons_append, hlarge, hguard]
    have hmoved := hbefore ▸ h
    obtain ⟨heap', hmove, hsegment, hsame⟩ := hmoved.moveNext
    have hne : lastOf guard small ≠ lastOf address large := by
      have hnot := hmoved.notMem_of_split.2
      rw [addresses_append, addresses_cons, List.mem_append, List.mem_cons, not_or, not_or] at hnot
      exact hnot.2.1
    refine ⟨heap', ?_, hafter ▸ hsegment, ?_⟩
    · rw [insert, lastOf_cons, lastOf_cons, if_neg (fun heq ↦ hne (Option.some.inj heq)), hmove]
      rfl
    · change SameOff {other | other ∈ addresses ((guard, elem) :: _)} heap heap'
      rw [hbefore]
      exact hsame

/-- All nodes that are left are inserted. -/
theorem insertLoop_spec {fuel : ℕ}
    {elem : ℤ} (h : Segment heap ((guard, elem) :: (sorted ++ rest)) none)
    (hsorted : StablySorted Prod.snd seen sorted) (hfuel : rest.length < fuel) : ∃ heap' whole,
      insertLoop (some guard) fuel heap (some (lastOf guard sorted)) (headOf rest none) =
      some heap' ∧
      Segment heap' ((guard, elem) :: whole) none ∧ StablySorted Prod.snd (seen ++ rest) whole ∧
      SameOff {address | address ∈ guard :: addresses (sorted ++ rest)} heap heap' := by
  induction fuel generalizing heap sorted seen rest with
  | zero => cases hfuel
  | succ fuel ih =>
    cases rest with
    | nil =>
      rw [List.append_nil] at *
      exact ⟨heap, sorted, rfl, h, hsorted, .refl _ heap⟩
    | cons cell rest =>
      obtain ⟨cur, val⟩ := cell
      have hcur := (segment_append.mp h.2).2.1
      have hlength : sorted.length < heap.bound + 1 := by
        have hle := h.2.length_le h.2.nodup
        rw [List.length_append] at hle
        omega
      obtain ⟨small, large, rfl, hsmall, hlarge, hfind⟩ := findLoop_spec h hcur hlength
      obtain ⟨heap', hinsert, hsegment, hsame⟩ := insert_spec h
      -- The sorted nodes from the first greater one on are all greater.
      have hgreater : ∀ cell ∈ large, val < cell.2 := by
        obtain ⟨-, hascending, -⟩ := List.pairwise_append.mp hsorted.ascending
        cases large with
        | nil => exact nofun
        | cons first large =>
          have hfirst := hlarge first rfl
          exact List.forall_mem_cons.mpr ⟨hfirst, fun cell hcell ↦
            hfirst.trans_le ((List.pairwise_cons.mp hascending).1 cell hcell)⟩
      obtain ⟨heap'', whole, hloop, hwhole, hstably, hsame'⟩ := ih hsegment
        (@StablySorted.insert _ _ _ _ _ (cur, val) _ _ hsorted hsmall hgreater)
        (Nat.lt_of_succ_lt_succ hfuel)
      refine ⟨heap'', whole, ?_, hwhole, ?_, hsame.trans (hsame'.mono fun address haddress ↦ ?_)⟩
      · rw [insertLoop, headOf_cons, if_pos (Option.some_ne_none cur), hfind]
        simp only [Option.bind_eq_bind, Option.bind_some, hinsert, hsegment.nextOf_lastOf, hloop]
      · rwa [List.append_assoc, List.singleton_append] at hstably
      · simp only [Set.mem_ofPred_eq, addresses_append, addresses_cons, List.mem_cons,
          List.mem_append] at haddress ⊢
        tauto

/-- `insertionSortList` links the nodes of every list in stably sorted order. -/
theorem insertionSortList_sorted (alloc : Allocator (ListNode ℤ)) (h : IsList heap head cells) :
    ∃ head' heap' sorted, insertionSortList alloc heap head = some (head', heap') ∧
      Relinked heap cells heap' head' sorted ∧ StablySorted Prod.snd cells sorted := by
  obtain ⟨guard, hnew, hfree, hguarded⟩ := h.guarded alloc 0
  obtain ⟨heap', sorted, hloop, hsorted, hstably, hsame⟩ :=
    @insertLoop_spec _ [] _ _ guard _ 0 hguarded stablySorted_nil
      (Nat.lt_succ_of_le (hguarded.2.length_le h.nodup))
  obtain ⟨heap'', hrelease, hlist, hrest, -⟩ :=
    hsorted.release hfree ((sameOff_set_of_mem List.mem_cons_self heap _).trans hsame)
  refine ⟨_, heap'', sorted, ?_, ⟨hlist, hstably.perm, hrest⟩, hstably⟩
  rw [lastOf_nil, h.head_eq] at hloop
  rw [insertionSortList, hnew]
  simp only [Option.bind_eq_bind, hloop, Option.bind_some, hrelease]

/-- Three nodes, two of them with the same value. -/
theorem insertionSortList_sorted_three :
    let heap := ((Heap.empty.set 0 ⟨2, some 1⟩).set 1 ⟨1, some 2⟩).set 2 ⟨2, none⟩
    ∃ head' heap' sorted, insertionSortList .next heap (some 0) = some (head', heap') ∧
      Relinked heap [(0, 2), (1, 1), (2, 2)] heap' head' sorted ∧
      StablySorted Prod.snd [(0, 2), (1, 1), (2, 2)] sorted := by
  intro heap
  have h : IsList heap (some 0) [(0, 2), (1, 1), (2, 2)] := ⟨rfl, rfl, rfl, rfl, trivial⟩
  exact insertionSortList_sorted .next h

end CppLearn.Leetcode.InsertionSortList
