import CppLearn.Foundation.HeapList
import CppLearn.Foundation.StableSort

/-!
# Merging two lists

The loop that links the nodes of two lists into one behind a guard, the lesser of the two first
nodes each time and that of the first list where they are equal. Behind the guard is what
`List.merge` makes of the lists of the nodes.
-/

set_option autoImplicit false
set_option relaxedAutoImplicit false

namespace CppLearn.Leetcode.MergeTwoLists

open Foundation.HeapList Foundation.NodeHeap Foundation.StableSort

/-! ### The program -/

/-- The condition for the node of the first list. -/
def takesFirst (heap : Heap (ListNode ℤ)) (l1 l2 : Ptr) : Option Bool :=
  if l1 = none then some false
  else if l2 = none then some true
  else do
    let node1 ← heap.load l1
    let node2 ← heap.load l2
    return node1.val ≤ node2.val

/-- The loop, with a limit on its rounds. -/
def mergeLoop : ℕ → Heap (ListNode ℤ) → Ptr → Ptr → Ptr → Option (Heap (ListNode ℤ))
  | 0, _, _, _, _ => none
  | fuel + 1, heap, cur, l1, l2 =>
    if l1 ≠ none ∨ l2 ≠ none then do
      let fromFirst ← takesFirst heap l1 l2
      if fromFirst then do
        let heap ← setNext heap cur l1
        let l1 ← nextOf heap l1
        let cur ← nextOf heap cur
        mergeLoop fuel heap cur l1 l2
      else do
        let heap ← setNext heap cur l2
        let l2 ← nextOf heap l2
        let cur ← nextOf heap cur
        mergeLoop fuel heap cur l1 l2
    else some heap

variable (alloc : Allocator (ListNode ℤ))

/-- `mergeTwoLists`, with the guard as a node of its own for the time of the loop. -/
def mergeTwoLists (heap : Heap (ListNode ℤ)) (l1 l2 : Ptr) : Option (Ptr × Heap (ListNode ℤ)) := do
  let (head, heap) := alloc.new heap ⟨-1, none⟩
  let heap ← mergeLoop (heap.bound + 1) heap (some head) l1 l2
  release heap head

/-! ### One round -/

variable {alloc} {heap : Heap (ListNode ℤ)}
    {l1 l2 : Ptr} {xs ys : Cells ℤ} {cur : ℕ} {val : ℤ} {last : Ptr}

/-- The node that is taken is the first one of the merged list. -/
theorem takesFirst_spec (hxs : Segment heap xs none) (hys : Segment heap ys none)
    (hsome : xs ≠ [] ∨ ys ≠ []) :
    (∃ cell xs', xs = cell :: xs' ∧ takesFirst heap (headOf xs none) (headOf ys none) = some true ∧
      xs.merge ys (inOrder Prod.snd) = cell :: xs'.merge ys (inOrder Prod.snd)) ∨
    ∃ cell ys', ys = cell :: ys' ∧ takesFirst heap (headOf xs none) (headOf ys none) = some false ∧
      xs.merge ys (inOrder Prod.snd) = cell :: xs.merge ys' (inOrder Prod.snd) := by
  cases xs with
  | nil =>
    cases ys with
    | nil => rcases hsome with h | h <;> exact absurd rfl h
    | cons cell ys =>
      exact .inr ⟨cell, ys, rfl, rfl, by rw [List.nil_merge, List.nil_merge]⟩
  | cons cell xs =>
    cases ys with
    | nil =>
      exact .inl ⟨cell, xs, rfl, rfl, by rw [List.merge_right, List.merge_right]⟩
    | cons cell' ys =>
      obtain ⟨address, val⟩ := cell
      obtain ⟨address', val'⟩ := cell'
      have htakes : takesFirst heap (some address) (some address') =
          some (decide (val ≤ val')) := by
        rw [takesFirst, if_neg (Option.some_ne_none _), if_neg (Option.some_ne_none _),
          Heap.load_some, Heap.load_some, hxs.1, hys.1]
        rfl
      by_cases hle : val ≤ val'
      · refine .inl ⟨(address, val), xs, rfl, ?_,
          List.cons_merge_cons_pos _ _ _ (decide_eq_true hle)⟩
        rw [headOf_cons, headOf_cons, htakes, decide_eq_true hle]
      · refine .inr ⟨(address', val'), ys, rfl, ?_,
          List.cons_merge_cons_neg _ _ _ (decide_eq_true_iff.not.mpr hle)⟩
        rw [headOf_cons, headOf_cons, htakes, decide_eq_false hle]

/-- A round that takes the node of the first list. -/
theorem mergeLoop_first {address : ℕ} {elem : ℤ} {next : Ptr} (fuel : ℕ)
    (htakes : takesFirst heap (some address) l2 = some true)
    (hcur : heap.node cur = some ⟨val, last⟩) (hnode : heap.node address = some ⟨elem, next⟩)
    (hne : address ≠ cur) :
    mergeLoop (fuel + 1) heap (some cur) (some address) l2 =
      mergeLoop fuel (heap.set cur ⟨val, some address⟩) (some address) next l2 := by
  have hnode' : (heap.set cur ⟨val, some address⟩).node address = some ⟨elem, next⟩ :=
    (Heap.set_node_of_ne hne).trans hnode
  rw [mergeLoop, if_pos (.inl (Option.some_ne_none address)), htakes]
  simp only [Option.bind_eq_bind, Option.bind_some, if_true, setNext_some hcur, nextOf_some hnode',
    nextOf_some Heap.set_node_self]

/-- A round that takes the node of the second list. -/
theorem mergeLoop_second {address : ℕ} {elem : ℤ} {next : Ptr} (fuel : ℕ)
    (htakes : takesFirst heap l1 (some address) = some false)
    (hcur : heap.node cur = some ⟨val, last⟩) (hnode : heap.node address = some ⟨elem, next⟩)
    (hne : address ≠ cur) :
    mergeLoop (fuel + 1) heap (some cur) l1 (some address) =
      mergeLoop fuel (heap.set cur ⟨val, some address⟩) (some address) l1 next := by
  have hnode' : (heap.set cur ⟨val, some address⟩).node address = some ⟨elem, next⟩ :=
    (Heap.set_node_of_ne hne).trans hnode
  rw [mergeLoop, if_pos (.inr (Option.some_ne_none address)), htakes]
  simp only [Option.bind_eq_bind, Option.bind_some, Bool.false_eq_true, if_false, setNext_some hcur,
    nextOf_some hnode', nextOf_some Heap.set_node_self]

/-! ### The merged list -/

/-- The loop puts the merged list behind a node. -/
theorem mergeLoop_spec {fuel : ℕ} (hxs : Segment heap xs none) (hys : Segment heap ys none)
    (hcur : heap.node cur = some ⟨val, last⟩) (hnodup : (cur :: addresses (xs ++ ys)).Nodup)
    (hlast : xs ++ ys = [] → last = none) (hfuel : (xs ++ ys).length < fuel) :
    ∃ heap', mergeLoop fuel heap (some cur) (headOf xs none) (headOf ys none) = some heap' ∧
      Segment heap' ((cur, val) :: xs.merge ys (inOrder Prod.snd)) none ∧
      SameOff {address | address ∈ cur :: addresses (xs ++ ys)} heap heap' := by
  induction fuel generalizing heap cur val last xs ys with
  | zero => cases hfuel
  | succ fuel ih =>
    obtain ⟨hnot, hrest⟩ := List.nodup_cons.mp hnodup
    have hnotXs : cur ∉ addresses xs := fun h ↦ hnot (addresses_append ▸ List.mem_append_left _ h)
    have hnotYs : cur ∉ addresses ys := fun h ↦ hnot (addresses_append ▸ List.mem_append_right _ h)
    by_cases hsome : xs ≠ [] ∨ ys ≠ []
    · rcases takesFirst_spec hxs hys hsome with
        ⟨⟨address, elem⟩, xs', rfl, htakes, hmerge⟩ | ⟨⟨address, elem⟩, ys', rfl, htakes, hmerge⟩
      · have hne : address ≠ cur := (List.ne_of_not_mem_cons hnotXs).symm
        obtain ⟨heap', hloop, hsegment, hsame⟩ :=
          ih (hxs.2.set (List.not_mem_of_not_mem_cons hnotXs)) (hys.set hnotYs)
          ((Heap.set_node_of_ne hne).trans hxs.1) hrest
          (fun h ↦ by rw [(List.append_eq_nil_iff.mp h).1, headOf_nil])
          (Nat.lt_of_succ_lt_succ hfuel)
        obtain ⟨hlinked, hsame'⟩ := hsegment.link hsame (.refl _) hnot
        exact ⟨heap', (mergeLoop_first fuel htakes hcur hxs.1 hne).trans hloop,
          hmerge ▸ hlinked, hsame'⟩
      · have hne : address ≠ cur := (List.ne_of_not_mem_cons hnotYs).symm
        have hperm :
            (address :: addresses (xs ++ ys')).Perm (addresses (xs ++ (address, elem) :: ys')) := by
          rw [addresses_append, addresses_append]
          exact List.perm_middle.symm
        obtain ⟨heap', hloop, hsegment, hsame⟩ :=
          ih (hxs.set hnotXs) (hys.2.set (List.not_mem_of_not_mem_cons hnotYs))
            ((Heap.set_node_of_ne hne).trans hys.1) (hperm.nodup_iff.mpr hrest)
            (fun h ↦ by rw [(List.append_eq_nil_iff.mp h).2, headOf_nil]) (by
              rw [List.length_append, List.length_cons] at hfuel
              rw [List.length_append]
              omega)
        obtain ⟨hlinked, hsame'⟩ := hsegment.link hsame hperm hnot
        exact ⟨heap', (mergeLoop_second fuel htakes hcur hys.1 hne).trans hloop,
          hmerge ▸ hlinked, hsame'⟩
    · obtain ⟨rfl, rfl⟩ : xs = [] ∧ ys = [] := by
        simpa [not_or] using hsome
      refine ⟨heap, ?_, ?_, .refl _ heap⟩
      · rw [mergeLoop, if_neg (by simp)]
      · rw [List.nil_merge]
        exact ⟨hlast rfl ▸ hcur, trivial⟩

/-- `mergeTwoLists` links the nodes of two lists into the merged one. -/
theorem mergeTwoLists_spec (alloc : Allocator (ListNode ℤ)) (h1 : IsList heap l1 xs)
    (h2 : IsList heap l2 ys) (hdisjoint : (addresses xs).Disjoint (addresses ys)) :
    ∃ head heap', mergeTwoLists alloc heap l1 l2 = some (head, heap') ∧
      Relinked heap (xs ++ ys) heap' head (xs.merge ys (inOrder Prod.snd)) := by
  obtain ⟨guard, hguard, hfree⟩ := alloc.exists_address heap
  have hold := extends_set hfree ⟨-1, none⟩
  have hnodup : (guard :: addresses (xs ++ ys)).Nodup := by
    rw [addresses_append]
    refine List.nodup_cons.mpr ⟨fun hmem ↦ ?_, h1.nodup.append h2.nodup hdisjoint⟩
    rcases List.mem_append.mp hmem with hmem | hmem
    · exact h1.segment.notMem hfree hmem
    · exact h2.segment.notMem hfree hmem
  have hlength : (xs ++ ys).length < (heap.set guard ⟨-1, none⟩).bound + 1 := by
    have hle := Heap.length_le_bound (List.nodup_cons.mp hnodup).2 fun other hother ↦ by
      rw [addresses_append] at hother
      rcases List.mem_append.mp hother with hother | hother
      · exact (h1.segment.extends hold).node_ne_none hother
      · exact (h2.segment.extends hold).node_ne_none hother
    rw [addresses, List.length_map] at hle
    exact Nat.lt_succ_of_le hle
  obtain ⟨heap', hloop, hsegment, hsame⟩ := mergeLoop_spec (h1.segment.extends hold)
    (h2.segment.extends hold) Heap.set_node_self hnodup (fun _ ↦ rfl) hlength
  obtain ⟨heap'', hrelease, hlist, hrest, -⟩ :=
    hsegment.release hfree ((sameOff_set_of_mem List.mem_cons_self heap _).trans hsame)
  refine ⟨_, heap'', ?_, hlist, List.merge_perm_append _, hrest⟩
  rw [h1.head_eq, h2.head_eq] at hloop
  rw [mergeTwoLists]
  simp only [Allocator.new, hguard, Option.bind_eq_bind, hloop, Option.bind_some, hrelease]

end CppLearn.Leetcode.MergeTwoLists
