import CppLearn.Leetcode.MergeTwoLists

/-!
# Merge sort of lists

`sortList` splits a list behind the middle, where a slow pointer is when a fast one comes to the
end, sorts the halves and merges them. The halves of a list of two nodes or more are shorter than it
is, so that the recursion ends. All that it does is to link the nodes in another order.
-/

set_option autoImplicit false
set_option relaxedAutoImplicit false

namespace CppLearn.Leetcode.SortList

open Foundation.HeapList Foundation.NodeHeap Foundation.StableSort MergeTwoLists

/-! ### The program -/

/-- `head == nullptr || head->next == nullptr`. -/
def isShort (heap : Heap (ListNode ℤ)) (head : Ptr) : Option Bool :=
  if head = none then some true
  else do
    let next ← nextOf heap head
    return next = none

/-- `fast != nullptr && fast->next != nullptr`. -/
def canMove (heap : Heap (ListNode ℤ)) (fast : Ptr) : Option Bool :=
  if fast = none then some false
  else do
    let next ← nextOf heap fast
    return next ≠ none

/-- The loop of `split`, with a limit on its rounds. -/
def middleLoop (heap : Heap (ListNode ℤ)) : ℕ → Ptr → Ptr → Option Ptr
  | 0, _, _ => none
  | fuel + 1, slow, fast => do
    let more ← canMove heap fast
    if more then do
      let slow ← nextOf heap slow
      let next ← nextOf heap fast
      let fast ← nextOf heap next
      middleLoop heap fuel slow fast
    else return slow

def split (heap : Heap (ListNode ℤ)) (head : Ptr) : Option ((Ptr × Ptr) × Heap (ListNode ℤ)) := do
  let next ← nextOf heap head
  if next = none then return ((head, none), heap)
  else
    let slow ← middleLoop heap (heap.bound + 1) head next
    let second ← nextOf heap slow
    let heap ← setNext heap slow none
    return ((head, second), heap)

/-- The arguments of a call, evaluated in an order that C++ leaves open. -/
def evaluateBoth (secondFirst : Bool)
    (call : Heap (ListNode ℤ) → Ptr → Option (Ptr × Heap (ListNode ℤ)))
    (heap : Heap (ListNode ℤ)) (pivot : Ptr × Ptr) : Option ((Ptr × Ptr) × Heap (ListNode ℤ)) :=
  if secondFirst then do
    let (second, heap) ← call heap pivot.2
    let (first, heap) ← call heap pivot.1
    return ((first, second), heap)
  else do
    let (first, heap) ← call heap pivot.1
    let (second, heap) ← call heap pivot.2
    return ((first, second), heap)

variable (alloc : Allocator (ListNode ℤ)) (secondFirst : Heap (ListNode ℤ) → Bool)

def merge : Heap (ListNode ℤ) → Ptr → Ptr → Option (Ptr × Heap (ListNode ℤ)) := mergeTwoLists alloc

/-- `sortList`, with a limit on the depth of its recursion. -/
def sortWithin : ℕ → Heap (ListNode ℤ) → Ptr → Option (Ptr × Heap (ListNode ℤ))
  | 0, _, _ => none
  | fuel + 1, heap, head => do
    let short ← isShort heap head
    if short then return (head, heap)
    else
      let (pivot, heap) ← split heap head
      let (sorted, heap) ← evaluateBoth (secondFirst heap) (sortWithin fuel) heap pivot
      merge alloc heap sorted.1 sorted.2

def sortList (heap : Heap (ListNode ℤ)) (head : Ptr) : Option (Ptr × Heap (ListNode ℤ)) :=
  sortWithin alloc secondFirst (heap.bound + 1) heap head

/-! ### The middle -/

variable {alloc secondFirst} {heap : Heap (ListNode ℤ)} {head : Ptr} {cells : Cells ℤ}

theorem isShort_eq (h : IsList heap head cells) :
    isShort heap head = some (decide (cells.length ≤ 1)) := by
  obtain ⟨rfl, hsegment⟩ := h
  match cells with
  | [] => rfl
  | [cell] =>
    rw [isShort, if_neg headOf_cons_ne_none, hsegment.nextOf]
    rfl
  | cell :: (_, _) :: cells =>
    rw [isShort, if_neg headOf_cons_ne_none, hsegment.nextOf]
    simp

/-- The slow pointer goes half as far as the list goes on from the fast one. -/
theorem middleLoop_spec {fuel ahead : ℕ} (h : Segment heap cells none) (hahead : 0 < ahead)
    (hfuel : cells.length < fuel) :
    middleLoop heap fuel (headOf cells none) (headOf (cells.drop ahead) none) =
      some (headOf (cells.drop ((cells.length - ahead) / 2)) none) := by
  induction fuel generalizing cells ahead with
  | zero => cases hfuel
  | succ fuel ih =>
    cases hrest : cells.drop ahead with
    | nil =>
      have hlength := List.drop_eq_nil_iff.mp hrest
      rw [Nat.sub_eq_zero_of_le hlength]
      rfl
    | cons cell rest =>
      have hlength := congrArg List.length hrest
      rw [List.length_drop, List.length_cons] at hlength
      have hfast : Segment heap (cell :: rest) none := by
        rw [← cells.take_append_drop ahead, hrest] at h
        exact (segment_append.mp h).2
      rw [middleLoop, canMove, if_neg headOf_cons_ne_none, hfast.nextOf]
      cases rest with
      | nil =>
        have hhalf : (cells.length - ahead) / 2 = 0 := by
          rw [hlength]
          rfl
        rw [hhalf]
        rfl
      | cons cell' rest =>
        cases cells with
        | nil => cases (List.drop_nil.symm.trans hrest : [] = cell :: cell' :: rest)
        | cons first cells =>
          have hnext : cells.drop (ahead + 1) = rest := by
            have hdrop := congrArg (List.drop 2) hrest
            rwa [List.drop_drop] at hdrop
          have hhalf : ((first :: cells).length - ahead) / 2 =
              (cells.length - (ahead + 1)) / 2 + 1 := by
            simp only [List.length_cons] at hlength ⊢
            omega
          have hloop := ih h.2 (Nat.succ_pos ahead) (Nat.lt_of_succ_lt_succ hfuel)
          rw [hnext] at hloop
          rw [hhalf, List.drop_succ_cons, ← hloop]
          simp [h.nextOf, hfast.2.nextOf, headOf_cons_ne_none]

/-- The node at which the loop ends, where it starts with the first node and the next one. -/
theorem exists_middle {first : ℕ × ℤ} {rest : Cells ℤ} (h : Segment heap (first :: rest) none) :
    ∃ front address val back, first :: rest = front ++ (address, val) :: back ∧
      front.length = rest.length / 2 ∧
      middleLoop heap (heap.bound + 1) (headOf (first :: rest) none) (headOf rest none) =
        some (some address) := by
  obtain ⟨front, ⟨address, val⟩, back, hsplit, hfront⟩ := @exists_eq_append_cons _ (first :: rest)
    (rest.length / 2) (by rw [List.length_cons]; omega)
  have hloop := @middleLoop_spec heap (first :: rest) (heap.bound + 1) 1 h Nat.one_pos
    (Nat.lt_succ_of_le (h.length_le h.nodup))
  have hslow : headOf ((first :: rest).drop front.length) none = some address := by
    rw [hsplit, List.drop_left, headOf_cons]
  rw [List.drop_one, List.tail_cons, List.length_cons, Nat.add_sub_cancel, ← hfront, hslow] at hloop
  exact ⟨front, address, val, back, hsplit, hfront, hloop⟩

/-- `split` cuts a list behind the middle. -/
theorem split_spec (h : IsList heap head cells) (hcells : cells ≠ []) :
    ∃ front back second heap', cells = front ++ back ∧ front.length = (cells.length + 1) / 2 ∧
      split heap head = some ((head, second), heap') ∧ IsList heap' head front ∧
      IsList heap' second back ∧ SameOff {address | address ∈ addresses cells} heap heap' := by
  obtain ⟨rfl, hsegment⟩ := h
  obtain ⟨first, rest, rfl⟩ := List.exists_cons_of_ne_nil hcells
  rw [split, hsegment.nextOf, Option.bind_eq_bind, Option.bind_some]
  by_cases hrest : rest = []
  · subst hrest
    exact ⟨[first], [], none, heap, rfl, by simp, rfl, ⟨rfl, hsegment⟩, ⟨rfl, trivial⟩,
      .refl _ heap⟩
  · rw [if_neg (headOf_eq_none.not.mpr hrest)]
    obtain ⟨front, address, val, back, hsplit, hfront, hloop⟩ := exists_middle hsegment
    have hhead : headOf (front ++ [(address, val)]) none = headOf (first :: rest) none := by
      rw [hsplit, headOf_append, headOf_append]
      rfl
    have hwhole : Segment heap (front ++ (address, val) :: back) none := hsplit ▸ hsegment
    obtain ⟨hlistFront, hlistBack⟩ := hwhole.cut
    have hnode := (segment_append.mp hwhole).2.1
    refine ⟨front ++ [(address, val)], back, headOf back none, _, ?_, ?_, ?_, hhead ▸ hlistFront,
      hlistBack, sameOff_set_of_mem ?_ heap _⟩
    · rw [hsplit, List.append_assoc, List.singleton_append]
    · rw [List.length_append, hfront, List.length_singleton, List.length_cons]
      omega
    · rw [hloop]
      simp only [Option.bind_some, nextOf_some hnode, setNext_some hnode]
      rfl
    · rw [hsplit, addresses_append]
      exact List.mem_append_right _ List.mem_cons_self

/-! ### Sorting -/

/-- The nodes of a list have been linked in sorted order. -/
structure Sorted (heap : Heap (ListNode ℤ))
    (cells : Cells ℤ) (heap' : Heap (ListNode ℤ)) (head : Ptr) (sorted : Cells ℤ) : Prop where
  relinked : Relinked heap cells heap' head sorted
  stably : StablySorted Prod.snd cells sorted

/-- Lists of less than two nodes are left as they are. -/
theorem Sorted.of_length_le (h : IsList heap head cells) (hlength : cells.length ≤ 1) :
    Sorted heap cells heap head cells := by
  refine ⟨.refl h, ?_⟩
  match cells, hlength with
  | [], _ => exact stablySorted_nil
  | [cell], _ => exact stablySorted_singleton cell

/-- Two lists that have both been sorted. -/
structure BothSorted (heap : Heap (ListNode ℤ)) (cells cells' : Cells ℤ) (heap' : Heap (ListNode ℤ))
    (head head' : Ptr) (sorted sorted' : Cells ℤ) : Prop where
  list : IsList heap' head sorted
  list' : IsList heap' head' sorted'
  stably : StablySorted Prod.snd cells sorted
  stably' : StablySorted Prod.snd cells' sorted'
  same : SameOff {address | address ∈ addresses (cells ++ cells')} heap heap'

/-- One is sorted after the other. -/
theorem Sorted.both {heap' heap'' : Heap (ListNode ℤ)}
    {head' : Ptr} {cells' sorted sorted' : Cells ℤ} (first : Sorted heap cells heap' head sorted)
    (second : Sorted heap' cells' heap'' head' sorted')
    (hdisjoint : (addresses cells).Disjoint (addresses cells')) :
    BothSorted heap cells cells' heap'' head head' sorted sorted' where
  list := by
    refine second.relinked.keeps first.relinked.list fun address hmem' hmem ↦ ?_
    exact hdisjoint (first.relinked.addresses_perm.mem_iff.mp hmem) hmem'
  list' := second.relinked.list
  stably := first.stably
  stably' := second.stably
  same := by
    rw [addresses_append]
    exact (first.relinked.same.mono fun _ ↦ List.mem_append_left _).trans
      (second.relinked.same.mono fun _ ↦ List.mem_append_right _)

/-- Nor does it matter which. -/
theorem BothSorted.symm {heap' : Heap (ListNode ℤ)} {head' : Ptr} {cells' sorted sorted' : Cells ℤ}
    (h : BothSorted heap cells cells' heap' head head' sorted sorted') :
    BothSorted heap cells' cells heap' head' head sorted' sorted where
  list := h.list'
  list' := h.list
  stably := h.stably'
  stably' := h.stably
  same := h.same.mono fun address hmem ↦ by
    change address ∈ addresses (cells ++ cells') at hmem
    change address ∈ addresses (cells' ++ cells)
    rw [addresses_append] at hmem ⊢
    exact List.mem_append.mpr (List.mem_append.mp hmem).symm

/-- The sorted halves are merged to the sorted list. -/
theorem BothSorted.merge {heap' : Heap (ListNode ℤ)} {head' : Ptr} {cells' sorted sorted' : Cells ℤ}
    (alloc : Allocator (ListNode ℤ))
    (h : BothSorted heap cells cells' heap' head head' sorted sorted')
    (hdisjoint : (addresses cells).Disjoint (addresses cells')) :
    ∃ head'' heap'' whole, SortList.merge alloc heap' head head' = some (head'', heap'') ∧
      Sorted heap (cells ++ cells') heap'' head'' whole := by
  have hmem {address : ℕ} : address ∈ addresses sorted ↔ address ∈ addresses cells :=
    (h.stably.perm.map Prod.fst).mem_iff
  have hmem' {address : ℕ} : address ∈ addresses sorted' ↔ address ∈ addresses cells' :=
    (h.stably'.perm.map Prod.fst).mem_iff
  obtain ⟨head'', heap'', hmerge, hrelinked⟩ := mergeTwoLists_spec alloc h.list h.list'
    fun _ hfirst hsecond ↦ hdisjoint (hmem.mp hfirst) (hmem'.mp hsecond)
  have hstably := h.stably.merge h.stably'
  refine ⟨head'', heap'', _, hmerge, ⟨hrelinked.list, hstably.perm, h.same.trans ?_⟩, hstably⟩
  refine hrelinked.same.mono fun address haddress ↦ ?_
  exact ((h.stably.perm.append h.stably'.perm).map Prod.fst).mem_iff.mp haddress

/-- Both arguments are sorted lists, if the calls sort. -/
theorem evaluateBoth_spec {fuel : ℕ} {first second : Ptr} {front back : Cells ℤ}
    {call : Heap (ListNode ℤ) → Ptr → Option (Ptr × Heap (ListNode ℤ))}
    (hcall : ∀ {heap head cells}, IsList heap head cells → cells.length < fuel →
      ∃ head' heap' sorted, call heap head = some (head', heap') ∧
        Sorted heap cells heap' head' sorted)
    (hfirst : IsList heap first front) (hsecond : IsList heap second back)
    (hdisjoint : (addresses front).Disjoint (addresses back)) (hfront : front.length < fuel)
    (hback : back.length < fuel) (order : Bool) : ∃ first' second' heap' front' back',
      evaluateBoth order call heap (first, second) = some ((first', second'), heap') ∧
      BothSorted heap front back heap' first' second' front' back' := by
  cases order with
  | true =>
    obtain ⟨second', heap1, back', hcallBack, hsortedBack⟩ := hcall hsecond hback
    obtain ⟨first', heap2, front', hcallFront, hsortedFront⟩ :=
      hcall (hsortedBack.relinked.keeps hfirst (List.disjoint_comm.mp hdisjoint)) hfront
    refine ⟨first', second', heap2, front', back', ?_,
      (hsortedBack.both hsortedFront (List.disjoint_comm.mp hdisjoint)).symm⟩
    simp [evaluateBoth, hcallBack, hcallFront]
  | false =>
    obtain ⟨first', heap1, front', hcallFront, hsortedFront⟩ := hcall hfirst hfront
    obtain ⟨second', heap2, back', hcallBack, hsortedBack⟩ :=
      hcall (hsortedFront.relinked.keeps hsecond hdisjoint) hback
    refine ⟨first', second', heap2, front', back', ?_, hsortedFront.both hsortedBack hdisjoint⟩
    simp [evaluateBoth, hcallFront, hcallBack]

/-- The recursion is deep enough with the length of the list. -/
theorem sortWithin_spec {fuel : ℕ} (h : IsList heap head cells) (hfuel : cells.length < fuel) :
    ∃ head' heap' sorted, sortWithin alloc secondFirst fuel heap head = some (head', heap') ∧
      Sorted heap cells heap' head' sorted := by
  induction fuel generalizing heap head cells with
  | zero => cases hfuel
  | succ fuel ih =>
    rw [sortWithin, isShort_eq h, Option.bind_eq_bind, Option.bind_some]
    by_cases hshort : cells.length ≤ 1
    · exact ⟨head, heap, cells, if_pos (decide_eq_true hshort), .of_length_le h hshort⟩
    · have hcells : cells ≠ [] := by
        rintro rfl
        exact hshort (Nat.zero_le 1)
      obtain ⟨front, back, second, heap1, rfl, hfront, hsplit, hlistFront, hlistBack, hsame⟩ :=
        split_spec h hcells
      rw [List.length_append] at hfuel hfront
      have hdisjoint : (addresses front).Disjoint (addresses back) := by
        have hnodup := h.nodup
        rw [addresses_append] at hnodup
        exact (List.nodup_append'.mp hnodup).2.2
      -- Both halves are shorter than the list.
      have hlengths : front.length < fuel ∧ back.length < fuel := by
        rw [List.length_append] at hshort
        omega
      obtain ⟨first', second', heap2, front', back', hboth, hsorted⟩ :=
        evaluateBoth_spec ih hlistFront
        hlistBack hdisjoint hlengths.1 hlengths.2 (secondFirst heap1)
      obtain ⟨head', heap3, whole, hmerge, hwhole⟩ := hsorted.merge alloc hdisjoint
      refine ⟨head', heap3, whole, ?_, ⟨hwhole.relinked.list, hwhole.relinked.perm,
        hsame.trans hwhole.relinked.same⟩, hwhole.stably⟩
      rw [if_neg (decide_eq_true_iff.not.mpr hshort), hsplit]
      simp only [Option.bind_eq_bind, Option.bind_some, hboth, hmerge]

/-- `sortList` links the nodes of every list in stably sorted order. -/
theorem sortList_sorted (alloc : Allocator (ListNode ℤ)) (secondFirst : Heap (ListNode ℤ) → Bool)
    (h : IsList heap head cells) :
    ∃ head' heap' sorted, sortList alloc secondFirst heap head = some (head', heap') ∧
      Relinked heap cells heap' head' sorted ∧ StablySorted Prod.snd cells sorted := by
  obtain ⟨head', heap', sorted, hsort, hsorted⟩ := sortWithin_spec h (Nat.lt_succ_of_le h.length_le)
  exact ⟨head', heap', sorted, hsort, hsorted.relinked, hsorted.stably⟩

/-- Three nodes, two of them with the same value. -/
theorem sortList_sorted_three :
    let heap := ((Heap.empty.set 0 ⟨2, some 1⟩).set 1 ⟨1, some 2⟩).set 2 ⟨2, none⟩
    ∃ head' heap' sorted, sortList .next (fun _ ↦ true) heap (some 0) = some (head', heap') ∧
      Relinked heap [(0, 2), (1, 1), (2, 2)] heap' head' sorted ∧
      StablySorted Prod.snd [(0, 2), (1, 1), (2, 2)] sorted := by
  intro heap
  have h : IsList heap (some 0) [(0, 2), (1, 1), (2, 2)] := ⟨rfl, rfl, rfl, rfl, trivial⟩
  exact sortList_sorted .next _ h

end CppLearn.Leetcode.SortList
