import CppLearn.Foundation.NodeHeap

/-!
# Singly linked lists of nodes

A list in a heap is one whose nodes carry their addresses: each node points to the next one, and the
last to what follows the list (`Segment`). Lists are put together and cut like the lists of their
nodes are, and stay where they are while the heap changes elsewhere. A list that ends with null
comes to no node twice.
-/

set_option autoImplicit false
set_option relaxedAutoImplicit false

namespace CppLearn.Foundation.HeapList

open NodeHeap

universe u

variable {α : Type u}

structure ListNode (α : Type u) where
  val : α
  next : Ptr
  deriving DecidableEq

/-- Nodes with their addresses. -/
abbrev Cells (α : Type u) := List (ℕ × α)

/-- The pointer to the first of the nodes, or to what follows where there are none. -/
def headOf : Cells α → Ptr → Ptr
  | [], stop => stop
  | (address, _) :: _, _ => some address

def addresses (cells : Cells α) : List ℕ := cells.map Prod.fst

def vals (cells : Cells α) : List α := cells.map Prod.snd

/-- The heap has the nodes, each of which points to the next, and the last one to `stop`. -/
def Segment (heap : Heap (ListNode α)) : Cells α → Ptr → Prop
  | [], _ => True
  | (address, val) :: cells, stop =>
    heap.node address = some ⟨val, headOf cells stop⟩ ∧ Segment heap cells stop

/-- A pointer to a list that ends with null. -/
structure IsList (heap : Heap (ListNode α)) (head : Ptr) (cells : Cells α) : Prop where
  head_eq : headOf cells none = head
  segment : Segment heap cells none

variable {heap heap' : Heap (ListNode α)}
    {cells cells' : Cells α} {stop stop' : Ptr} {address : ℕ} {val : α}

@[simp] theorem headOf_nil : headOf ([] : Cells α) stop = stop := rfl

@[simp] theorem headOf_cons : headOf ((address, val) :: cells) stop = some address := rfl

@[simp] theorem addresses_nil : addresses ([] : Cells α) = [] := rfl

@[simp] theorem addresses_cons :
    addresses ((address, val) :: cells) = address :: addresses cells := rfl

@[simp] theorem addresses_append :
    addresses (cells ++ cells') = addresses cells ++ addresses cells' :=
  List.map_append

@[simp] theorem vals_nil : vals ([] : Cells α) = [] := rfl

@[simp] theorem vals_cons : vals ((address, val) :: cells) = val :: vals cells := rfl

@[simp] theorem vals_append : vals (cells ++ cells') = vals cells ++ vals cells' := List.map_append

theorem headOf_append : headOf (cells ++ cells') stop = headOf cells (headOf cells' stop) := by
  cases cells with
  | nil => rfl
  | cons cell cells => rfl

theorem headOf_of_ne_nil (hcells : cells ≠ []) (stop stop' : Ptr) :
    headOf cells stop = headOf cells stop' := by
  cases cells with
  | nil => exact absurd rfl hcells
  | cons cell cells => rfl

theorem headOf_cons_ne_none {cell : ℕ × α} :
    headOf (cell :: cells) stop ≠ none := Option.some_ne_none _

theorem headOf_eq_none : headOf cells none = none ↔ cells = [] := by
  cases cells with
  | nil => simp
  | cons cell cells => simp [headOf]

theorem segment_nil : Segment heap [] stop := trivial

theorem segment_cons : Segment heap ((address, val) :: cells) stop ↔
    heap.node address = some ⟨val, headOf cells stop⟩ ∧ Segment heap cells stop := Iff.rfl

theorem segment_append : Segment heap (cells ++ cells') stop ↔
    Segment heap cells (headOf cells' stop) ∧ Segment heap cells' stop := by
  induction cells with
  | nil => exact (and_iff_right trivial).symm
  | cons cell cells ih =>
    obtain ⟨address, val⟩ := cell
    rw [List.cons_append, segment_cons, segment_cons, ih, headOf_append, and_assoc]

/-- The heap has a node at every address of a list. -/
theorem Segment.node_ne_none (h : Segment heap cells stop) (hmem : address ∈ addresses cells) :
    heap.node address ≠ none := by
  induction cells with
  | nil => cases hmem
  | cons cell cells ih =>
    obtain ⟨other, val⟩ := cell
    rcases List.mem_cons.mp hmem with rfl | hmem
    · rw [h.1]
      exact Option.some_ne_none _
    · exact ih h.2 hmem

/-- A free address is in no list. -/
theorem Segment.notMem (h : Segment heap cells stop) (hfree : heap.node address = none) :
    address ∉ addresses cells := fun hmem ↦ h.node_ne_none hmem hfree

/-- A list stays while the heap changes elsewhere. -/
theorem Segment.frame {changed : Set ℕ}
    (h : Segment heap cells stop) (hsame : SameOff changed heap heap')
    (hdisjoint : ∀ address ∈ addresses cells, address ∉ changed) : Segment heap' cells stop := by
  induction cells with
  | nil => trivial
  | cons cell cells ih =>
    obtain ⟨address, val⟩ := cell
    obtain ⟨hhead, hrest⟩ := List.forall_mem_cons.mp hdisjoint
    exact ⟨(hsame address hhead).trans h.1, ih h.2 hrest⟩

/-- A list stays while nodes are added. -/
theorem Segment.extends (h : Segment heap cells stop) (hextends : Extends heap heap') :
    Segment heap' cells stop := h.frame hextends fun _ hmem ↦ h.node_ne_none hmem

/-- A list stays while the heap changes at an address that is not one of its own. -/
theorem Segment.off (h : Segment heap cells stop) (hsame : SameOff {address} heap heap')
    (hnot : address ∉ addresses cells) : Segment heap' cells stop :=
  h.frame hsame (forall_notMem_singleton hnot)

/-- A list stays while a node is written that is not one of its own. -/
theorem Segment.set {node : ListNode α} (h : Segment heap cells stop)
    (hnot : address ∉ addresses cells) : Segment (heap.set address node) cells stop :=
  h.off (sameOff_set heap address node) hnot

/-- The nodes of one list are the same ones in two heaps. -/
theorem Segment.node_eq (h : Segment heap cells stop) (h' : Segment heap' cells stop)
    (hmem : address ∈ addresses cells) : heap'.node address = heap.node address := by
  induction cells with
  | nil => cases hmem
  | cons cell cells ih =>
    obtain ⟨other, val⟩ := cell
    rcases List.mem_cons.mp hmem with rfl | hmem
    · exact h'.1.trans h.1.symm
    · exact ih h.2 h'.2 hmem

/-- The pointer of the last node is written. -/
theorem Segment.redirect (h : Segment heap (cells ++ [(address, val)]) stop)
    (hnot : address ∉ addresses cells) (stop' : Ptr) :
    Segment (heap.set address ⟨val, stop'⟩) (cells ++ [(address, val)]) stop' :=
  segment_append.mpr ⟨(segment_append.mp h).1.set hnot, Heap.set_node_self, trivial⟩

/-- A node put in front of a list. -/
theorem Segment.cons (h : Segment heap cells stop) (hnot : address ∉ addresses cells) (val : α) :
    Segment (heap.set address ⟨val, headOf cells stop⟩) ((address, val) :: cells) stop :=
  ⟨Heap.set_node_self, h.set hnot⟩

/-- From one pointer on there is one list that ends with null. -/
theorem Segment.unique (h : Segment heap cells none) (h' : Segment heap cells' none)
    (hhead : headOf cells none = headOf cells' none) : cells = cells' := by
  induction cells generalizing cells' with
  | nil => exact (headOf_eq_none.mp hhead.symm).symm
  | cons cell cells ih =>
    obtain ⟨address, val⟩ := cell
    cases cells' with
    | nil => cases hhead
    | cons cell' cells' =>
      obtain ⟨address', val'⟩ := cell'
      obtain rfl : address = address' := Option.some.inj hhead
      have hsame : (⟨val, headOf cells none⟩ : ListNode α) = ⟨val', headOf cells' none⟩ :=
        Option.some.inj (h.1.symm.trans h'.1)
      obtain ⟨rfl, hnext⟩ : val = val' ∧ headOf cells none = headOf cells' none := by
        simpa using hsame
      rw [ih h.2 h'.2 hnext]

/-- From one pointer on there is one list of a length. -/
theorem Segment.unique_of_length (h : Segment heap cells stop) (h' : Segment heap cells' stop')
    (hhead : headOf cells stop = headOf cells' stop') (hlength : cells.length = cells'.length) :
    cells = cells' := by
  induction cells generalizing cells' with
  | nil => exact (List.eq_nil_of_length_eq_zero hlength.symm).symm
  | cons cell cells ih =>
    obtain ⟨address, val⟩ := cell
    cases cells' with
    | nil => cases hlength
    | cons cell' cells' =>
      obtain ⟨address', val'⟩ := cell'
      obtain rfl : address = address' := Option.some.inj hhead
      have hsame : (⟨val, headOf cells stop⟩ : ListNode α) = ⟨val', headOf cells' stop'⟩ :=
        Option.some.inj (h.1.symm.trans h'.1)
      obtain ⟨rfl, hnext⟩ : val = val' ∧ headOf cells stop = headOf cells' stop' := by
        simpa using hsame
      rw [ih h.2 h'.2 hnext (Nat.succ.inj hlength)]

/-- It comes to no node twice. -/
theorem Segment.nodup (h : Segment heap cells none) : (addresses cells).Nodup := by
  induction cells with
  | nil => exact List.nodup_nil
  | cons cell cells ih =>
    obtain ⟨address, val⟩ := cell
    refine List.nodup_cons.mpr ⟨fun hmem ↦ ?_, ih h.2⟩
    -- The list from the second time on would be the whole one.
    obtain ⟨⟨other, val'⟩, hcell, rfl⟩ := List.mem_map.mp hmem
    obtain ⟨front, back, rfl⟩ := List.append_of_mem hcell
    have heq := h.unique (segment_append.mp h.2).2 rfl
    have hlength := congrArg List.length heq
    simp only [List.length_cons, List.length_append] at hlength
    omega

/-- Different nodes are no more than there are addresses. -/
theorem Segment.length_le (h : Segment heap cells stop) (hnodup : (addresses cells).Nodup) :
    cells.length ≤ heap.bound := by
  have hle := Heap.length_le_bound hnodup fun other hother ↦ h.node_ne_none hother
  rwa [addresses, List.length_map] at hle

/-! ### Reading and writing the links -/

/-- `ptr->next`. -/
def nextOf (heap : Heap (ListNode α)) (ptr : Ptr) : Option Ptr := (heap.load ptr).map ListNode.next

/-- `ptr->next = next`. -/
def setNext (heap : Heap (ListNode α)) (ptr next : Ptr) : Option (Heap (ListNode α)) :=
  heap.modify ptr fun node ↦ { node with next := next }

theorem nextOf_some {next : Ptr} (hnode : heap.node address = some ⟨val, next⟩) :
    nextOf heap (some address) = some next := by
  rw [nextOf, Heap.load_some, hnode]
  rfl

theorem setNext_some {next : Ptr} (hnode : heap.node address = some ⟨val, next⟩) (next' : Ptr) :
    setNext heap (some address) next' = some (heap.set address ⟨val, next'⟩) :=
  Heap.modify_some hnode _

theorem Segment.nextOf {cell : ℕ × α} (h : Segment heap (cell :: cells) stop) :
    nextOf heap (headOf (cell :: cells) stop) = some (headOf cells stop) := nextOf_some h.1

/-- `return guard.next`, where the guard is there no longer. -/
def release (heap : Heap (ListNode α)) (guard : ℕ) : Option (Ptr × Heap (ListNode α)) :=
  (nextOf heap (some guard)).bind fun next ↦ (heap.delete (some guard)).map fun heap ↦ (next, heap)

/-- What has changed since before there was a guard is the list behind it only. -/
theorem Segment.release {guard : ℕ}
    {owned : List ℕ} (h : Segment heap' ((guard, val) :: cells) none)
    (hfree : heap.node guard = none) (hsame : SameOff {other | other ∈ guard :: owned} heap heap') :
    ∃ heap'', release heap' guard = some (headOf cells none, heap'') ∧
      IsList heap'' (headOf cells none) cells ∧ SameOff {other | other ∈ owned} heap heap'' ∧
      SameOff {guard} heap' heap'' := by
  obtain ⟨heap'', hdelete, hgone, hoff⟩ := Heap.delete_some h.1
  have hnot : guard ∉ addresses cells := (List.nodup_cons.mp h.nodup).1
  refine ⟨heap'', ?_, ⟨rfl, h.2.off hoff hnot⟩, ?_, hoff⟩
  · rw [HeapList.release, nextOf_some h.1, Option.bind_some, hdelete, Option.map_some]
  · have hoff' : SameOff {other | other ∈ guard :: owned} heap' heap'' :=
      hoff.mono (Set.singleton_subset_iff.mpr List.mem_cons_self)
    exact (hsame.trans hoff').of_cons (hgone.trans hfree.symm)

/-- A list behind a node that was linked to it before. -/
theorem Segment.link {cur : ℕ} {elem : α} {owned owned' : List ℕ}
    (h : Segment heap' ((address, val) :: cells) stop)
    (hsame : SameOff {other | other ∈ owned} (heap.set cur ⟨elem, some address⟩) heap')
    (hperm : owned.Perm owned') (hnot : cur ∉ owned') :
    Segment heap' ((cur, elem) :: (address, val) :: cells) stop ∧
      SameOff {other | other ∈ cur :: owned'} heap heap' := by
  have hsame' : SameOff {other | other ∈ owned'} (heap.set cur ⟨elem, some address⟩) heap' :=
    hsame.mono fun other hother ↦ hperm.mem_iff.mp hother
  refine ⟨⟨(hsame' cur hnot).trans Heap.set_node_self, h⟩, ?_⟩
  exact (sameOff_set_of_mem List.mem_cons_self heap _).trans
    (hsame'.mono fun other hother ↦ List.mem_cons_of_mem cur hother)

/-- A guard put in front of a list. -/
theorem IsList.guarded {head : Ptr} (h : IsList heap head cells) (alloc : Allocator (ListNode α))
    (val : α) : ∃ guard, alloc.new heap ⟨val, head⟩ = (guard, heap.set guard ⟨val, head⟩) ∧
      heap.node guard = none ∧
      Segment (heap.set guard ⟨val, head⟩) ((guard, val) :: cells) none := by
  have hfree := alloc.free heap
  refine ⟨alloc.address heap, rfl, hfree, ?_⟩
  rw [← h.head_eq]
  exact h.segment.cons (h.segment.notMem hfree) val

/-- There are lists of every length. -/
theorem exists_isList (val : α) (length : ℕ) :
    ∃ (heap : Heap (ListNode α)) (cells : Cells α), IsList heap (headOf cells none) cells ∧
      cells.length = length := by
  induction length with
  | zero => exact ⟨Heap.empty, [], ⟨rfl, segment_nil⟩, rfl⟩
  | succ length ih =>
    obtain ⟨heap, cells, h, hlength⟩ := ih
    refine ⟨_, (heap.bound, val) :: cells, ⟨rfl, h.segment.cons (h.segment.notMem ?_) val⟩,
      congrArg Nat.succ hlength⟩
    exact Allocator.next.free heap

/-! ### Linking in another order -/

/-- The nodes of a list have been linked in another order, and nothing else has changed. -/
structure Relinked (heap : Heap (ListNode α))
    (cells : Cells α) (heap' : Heap (ListNode α)) (head : Ptr) (cells' : Cells α) : Prop where
  list : IsList heap' head cells'
  perm : cells'.Perm cells
  same : SameOff {address | address ∈ addresses cells} heap heap'

theorem IsList.nodup {head : Ptr}
    (h : IsList heap head cells) : (addresses cells).Nodup := h.segment.nodup

theorem IsList.length_le {head : Ptr} (h : IsList heap head cells) : cells.length ≤ heap.bound :=
  h.segment.length_le h.nodup

/-- A list stays while the heap changes elsewhere. -/
theorem IsList.frame {head : Ptr} {owned : List ℕ} (h : IsList heap head cells)
    (hsame : SameOff {other | other ∈ owned} heap heap')
    (hdisjoint : (addresses cells).Disjoint owned) : IsList heap' head cells :=
  ⟨h.head_eq, h.segment.frame hsame fun _ hmem howned ↦ hdisjoint hmem howned⟩

namespace Relinked

variable {heap'' : Heap (ListNode α)} {cells'' : Cells α} {head head' : Ptr}

theorem addresses_perm (h : Relinked heap cells heap' head cells') :
    (addresses cells').Perm (addresses cells) := h.perm.map Prod.fst

theorem refl (h : IsList heap head cells) : Relinked heap cells heap head cells :=
  ⟨h, .refl _, .refl _ heap⟩

theorem trans (first : Relinked heap cells heap' head cells')
    (second : Relinked heap' cells' heap'' head' cells'') :
    Relinked heap cells heap'' head' cells'' where
  list := second.list
  perm := second.perm.trans first.perm
  same := first.same.trans (second.same.mono fun _ hmem ↦ first.addresses_perm.mem_iff.mp hmem)

/-- Another list is left as it was. -/
theorem keeps {others : Cells α}
    (h : Relinked heap cells heap' head cells') (hothers : IsList heap head' others)
    (hdisjoint : (addresses cells).Disjoint (addresses others)) : IsList heap' head' others :=
  hothers.frame h.same (List.disjoint_comm.mp hdisjoint)

end Relinked

/-! ### Cutting -/

/-- A list split at a place before its end. -/
theorem exists_eq_append_cons {place : ℕ} (hplace : place < cells.length) :
    ∃ front cell back, cells = front ++ cell :: back ∧ front.length = place := by
  refine ⟨cells.take place, cells[place], cells.drop (place + 1), ?_, ?_⟩
  · rw [List.getElem_cons_drop, List.take_append_drop]
  · rw [List.length_take, min_eq_left hplace.le]

/-- The link behind a node is cut. -/
theorem Segment.cut {front back : Cells α}
    (h : Segment heap (front ++ (address, val) :: back) none) :
    IsList (heap.set address ⟨val, none⟩) (headOf (front ++ [(address, val)]) none)
      (front ++ [(address, val)]) ∧
      IsList (heap.set address ⟨val, none⟩) (headOf back none) back := by
  have hnodup := h.nodup
  rw [addresses_append, addresses_cons, List.nodup_middle, List.nodup_cons] at hnodup
  obtain ⟨hfront, hnode, hback⟩ := segment_append.mp h
  refine ⟨⟨rfl, ?_⟩, rfl, hback.set fun hmem ↦ hnodup.1 (List.mem_append_right _ hmem)⟩
  have hwhole : Segment heap (front ++ [(address, val)]) (headOf back none) :=
    segment_append.mpr ⟨hfront, hnode, trivial⟩
  exact hwhole.redirect (fun hmem ↦ hnodup.1 (List.mem_append_left _ hmem)) none

/-! ### Taking out and putting in -/

section Surgery

variable {front rest : Cells α} {other : ℕ} {elem : α}

/-- The address of a node is in no other place of a list. -/
theorem Segment.notMem_of_split (h : Segment heap (front ++ (address, val) :: rest) none) :
    address ∉ addresses front ∧ address ∉ addresses rest := by
  have hnodup := h.nodup
  rw [addresses_append, addresses_cons, List.nodup_middle, List.nodup_cons, List.mem_append,
    not_or] at hnodup
  exact hnodup.1

/-- `ptr->next = cur->next`, with `cur` further on. -/
theorem Segment.takeOutMany {middle : Cells α}
    (h : Segment heap (front ++ (address, val) :: (middle ++ rest)) none) :
    Segment (heap.set address ⟨val, headOf rest none⟩) (front ++ (address, val) :: rest) none := by
  obtain ⟨hnotFront, hnotRest⟩ := h.notMem_of_split
  rw [addresses_append, List.mem_append, not_or] at hnotRest
  obtain ⟨hfront, -, hrest⟩ := segment_append.mp h
  exact segment_append.mpr ⟨hfront.set hnotFront, Heap.set_node_self,
    (segment_append.mp hrest).2.set hnotRest.2⟩

/-- `ptr->next = ptr->next->next`. -/
theorem Segment.takeOut (h : Segment heap (front ++ (address, val) :: (other, elem) :: rest) none) :
    Segment (heap.set address ⟨val, headOf rest none⟩) (front ++ (address, val) :: rest) none :=
  @Segment.takeOutMany _ _ _ _ _ _ [(other, elem)] h

/-- What a node holds is written. -/
theorem Segment.setVal (h : Segment heap (front ++ (address, val) :: rest) none) (val' : α) :
    Segment (heap.set address ⟨val', headOf rest none⟩) (front ++ (address, val') :: rest)
      none := by
  obtain ⟨hnotFront, hnotRest⟩ := h.notMem_of_split
  obtain ⟨hfront, -, hrest⟩ := segment_append.mp h
  exact segment_append.mpr ⟨hfront.set hnotFront, Heap.set_node_self, hrest.set hnotRest⟩

/-- `node->next = ptr->next` and `ptr->next = node`. -/
theorem Segment.putBehind (h : Segment heap (front ++ (address, val) :: rest) none)
    (hnot : other ∉ addresses (front ++ (address, val) :: rest)) (elem : α) :
    Segment ((heap.set other ⟨elem, headOf rest none⟩).set address ⟨val, some other⟩)
      (front ++ (address, val) :: (other, elem) :: rest) none := by
  obtain ⟨hnotFront, hnotRest⟩ := h.notMem_of_split
  rw [addresses_append, addresses_cons, List.mem_append, List.mem_cons, not_or, not_or] at hnot
  obtain ⟨hfront, -, hrest⟩ := segment_append.mp h
  refine segment_append.mpr ⟨(hfront.set hnot.1).set hnotFront, Heap.set_node_self, ?_,
    (hrest.set hnot.2.2).set hnotRest⟩
  exact (Heap.set_node_of_ne hnot.2.1).trans Heap.set_node_self

/-- `last->next = node->next; node->next = ptr->next; ptr->next = node`. -/
def moveNext (heap : Heap (ListNode α)) (last node ptr : Ptr) : Option (Heap (ListNode α)) :=
  (nextOf heap node).bind fun next ↦ (setNext heap last next).bind fun heap ↦
    (nextOf heap ptr).bind fun next ↦ (setNext heap node next).bind fun heap ↦ setNext heap ptr node

/-- It moves the node behind one node to behind another one before it. -/
theorem Segment.moveNext {ptr last node : ℕ} {ptrVal lastVal nodeVal : α} {middle : Cells α}
    (h : Segment heap
      (front ++ (ptr, ptrVal) :: (middle ++ (last, lastVal) :: (node, nodeVal) :: rest)) none) :
    ∃ heap', moveNext heap (some last) (some node) (some ptr) = some heap' ∧
      Segment heap'
        (front ++ (ptr, ptrVal) :: (node, nodeVal) :: (middle ++ (last, lastVal) :: rest)) none ∧
      SameOff {other | other ∈ addresses (front ++ (ptr, ptrVal) ::
      (middle ++ (last, lastVal) :: (node, nodeVal) :: rest))} heap heap' := by
  have hlast : Segment heap
      ((front ++ (ptr, ptrVal) :: middle) ++ (last, lastVal) :: (node, nodeVal) :: rest)
      none := by
    rwa [List.append_assoc, List.cons_append]
  obtain ⟨-, hlastNode, hnode, -⟩ := segment_append.mp hlast
  have hnot : node ∉ addresses (front ++ (ptr, ptrVal) :: (middle ++ (last, lastVal) :: rest)) := by
    have hsplit : Segment heap ((front ++ (ptr, ptrVal) :: middle ++ [(last, lastVal)]) ++
        (node, nodeVal) :: rest) none := by
      rwa [List.append_assoc _ [_], List.singleton_append]
    have hnot := hsplit.notMem_of_split
    simp only [addresses_append, addresses_cons, List.mem_append, List.mem_cons] at hnot ⊢
    tauto
  have htaken := hlast.takeOut
  rw [List.append_assoc, List.cons_append] at htaken
  have hput := htaken.putBehind hnot nodeVal
  obtain ⟨-, hptrNode, -⟩ := segment_append.mp htaken
  simp only [addresses_append, addresses_cons, List.mem_append, List.mem_cons, not_or] at hnot
  obtain ⟨-, hptr, -, hneLast, -⟩ := hnot
  refine ⟨_, ?_, hput, ?_⟩
  · rw [HeapList.moveNext, nextOf_some hnode, Option.bind_some, setNext_some hlastNode,
      Option.bind_some, nextOf_some hptrNode, Option.bind_some,
      setNext_some ((Heap.set_node_of_ne hneLast).trans hnode),
      Option.bind_some, setNext_some ((Heap.set_node_of_ne (Ne.symm hptr)).trans hptrNode)]
  · have hmem (address : ℕ) (haddress : address = ptr ∨ address = last ∨ address = node) :
        address ∈ addresses
          (front ++ (ptr, ptrVal) :: (middle ++ (last, lastVal) :: (node, nodeVal) :: rest)) := by
      simp only [addresses_append, addresses_cons, List.mem_append, List.mem_cons]
      tauto
    exact ((sameOff_set_of_mem (hmem last (.inr (.inl rfl))) heap _).trans
      (sameOff_set_of_mem (hmem node (.inr (.inr rfl))) _ _)).trans
      (sameOff_set_of_mem (hmem ptr (.inl rfl)) _ _)

end Surgery

/-! ### The last node -/

/-- The address of the last node, where the list goes on behind one at an address. -/
def lastOf : ℕ → Cells α → ℕ
  | address, [] => address
  | _, (address, _) :: cells => lastOf address cells

@[simp] theorem lastOf_nil : lastOf address ([] : Cells α) = address := rfl

@[simp] theorem lastOf_cons
    {other : ℕ} : lastOf address ((other, val) :: cells) = lastOf other cells := rfl

theorem lastOf_append :
    lastOf address (cells ++ cells') = lastOf (lastOf address cells) cells' := by
  induction cells generalizing address with
  | nil => rfl
  | cons cell cells ih => exact ih

/-- The node is the last one. -/
theorem exists_eq_append_lastOf (address : ℕ) (val : α) (cells : Cells α) :
    ∃ front last, (address, val) :: cells = front ++ [(lastOf address cells, last)] := by
  induction cells generalizing address val with
  | nil => exact ⟨[], val, rfl⟩
  | cons cell cells ih =>
    obtain ⟨other, elem⟩ := cell
    obtain ⟨front, last, heq⟩ := ih other elem
    exact ⟨(address, val) :: front, last, congrArg ((address, val) :: ·) heq⟩

theorem lastOf_mem : lastOf address cells ∈ address :: addresses cells := by
  induction cells generalizing address with
  | nil => exact List.mem_cons_self
  | cons cell cells ih => exact List.mem_cons_of_mem address ih

/-- The last node points to what follows. -/
theorem Segment.nextOf_last (h : Segment heap ((address, val) :: cells) stop) :
    HeapList.nextOf heap (some (lastOf address cells)) = some stop := by
  obtain ⟨front, last, heq⟩ := exists_eq_append_lastOf address val cells
  rw [heq] at h
  exact nextOf_some (segment_append.mp h).2.1

theorem Segment.nextOf_lastOf (h : Segment heap ((address, val) :: (cells ++ cells')) stop) :
    HeapList.nextOf heap (some (lastOf address cells)) = some (headOf cells' stop) := by
  rw [← List.cons_append] at h
  exact (segment_append.mp h).1.nextOf_last

/-- A node before the last one is another one. -/
theorem Segment.ne_lastOf (h : Segment heap ((address, val) :: (cells ++ cells')) none)
    (hcells : cells ≠ []) : address ≠ lastOf address cells := by
  intro heq
  obtain ⟨⟨other, elem⟩, rest, rfl⟩ := List.exists_cons_of_ne_nil hcells
  have hmem : lastOf other rest ∈ other :: addresses rest := lastOf_mem
  refine (List.nodup_cons.mp h.nodup).1 ?_
  change address ∈ addresses ((other, elem) :: rest ++ cells')
  rw [addresses_append]
  exact List.mem_append_left _ (heq ▸ hmem)

/-- The pointer of the last node is written. -/
theorem Segment.setLast (h : Segment heap ((address, val) :: cells) stop)
    (hnodup : (address :: addresses cells).Nodup) (stop' : Ptr) :
    ∃ heap', setNext heap (some (lastOf address cells)) stop' = some heap' ∧
      HeapList.nextOf heap' (some (lastOf address cells)) = some stop' ∧
      Segment heap' ((address, val) :: cells) stop' ∧
      SameOff {lastOf address cells} heap heap' := by
  obtain ⟨front, last, heq⟩ := exists_eq_append_lastOf address val cells
  rw [← addresses_cons, heq, addresses_append] at hnodup
  rw [heq] at h ⊢
  refine ⟨_, setNext_some (segment_append.mp h).2.1 stop', nextOf_some Heap.set_node_self,
    h.redirect (fun hmem ↦ ?_) stop', sameOff_set heap _ _⟩
  exact (List.nodup_append'.mp hnodup).2.2 hmem List.mem_cons_self

/-- What leads to an address without a node is no list that ends with null. -/
theorem Segment.not_isList {dead : ℕ} (h : Segment heap cells (some dead))
    (hdead : heap.node dead = none) : ¬ IsList heap (headOf cells (some dead)) cells' := by
  rintro ⟨hhead, hlist⟩
  induction cells generalizing cells' with
  | nil =>
    match cells' with
    | [] => cases hhead
    | (address, val) :: cells' =>
      obtain rfl : address = dead := Option.some.inj hhead
      cases hdead.symm.trans hlist.1
  | cons cell cells ih =>
    obtain ⟨address, val⟩ := cell
    match cells' with
    | [] => cases hhead
    | (address', val') :: cells' =>
      obtain rfl : address' = address := Option.some.inj hhead
      have hnext := (nextOf_some hlist.1).symm.trans (nextOf_some h.1)
      exact ih h.2 (Option.some.inj hnext) hlist.2

/-! ### Going forward and turning round -/

/-- `cur = cur->next`, so many times. -/
def forward (heap : Heap (ListNode α)) : ℕ → Ptr → Option Ptr
  | 0, cur => some cur
  | count + 1, cur => (nextOf heap cur).bind fun cur ↦ forward heap count cur

theorem Segment.forward (h : Segment heap (cells ++ cells') stop) :
    forward heap cells.length (headOf (cells ++ cells') stop) = some (headOf cells' stop) := by
  induction cells with
  | nil => rfl
  | cons cell cells ih =>
    have hnext : HeapList.nextOf heap (headOf (cell :: (cells ++ cells')) stop) = _ :=
      Segment.nextOf h
    rw [List.length_cons, HeapList.forward, List.cons_append, hnext, Option.bind_some]
    exact ih h.2

theorem Segment.forward_lastOf (h : Segment heap ((address, val) :: (cells ++ cells')) stop) :
    HeapList.forward heap cells.length (some address) = some (some (lastOf address cells)) := by
  obtain ⟨front, last, heq⟩ := exists_eq_append_lastOf address val cells
  have hlength := congrArg List.length heq
  rw [List.length_cons, List.length_append, List.length_singleton] at hlength
  have hsplit : (address, val) :: (cells ++ cells') =
      front ++ (lastOf address cells, last) :: cells' := by
    rw [← List.cons_append, heq, List.append_assoc, List.singleton_append]
  rw [Nat.succ.inj hlength]
  have hforward := (hsplit ▸ h : Segment heap (front ++ _) stop).forward
  rwa [← hsplit] at hforward

/-- `store = post->next; post->next = cur; cur = post; post = store`: the pointers after it, and the
heap. -/
def turn (heap : Heap (ListNode α)) (cur post : Ptr) : Option (Ptr × Ptr × Heap (ListNode α)) :=
  (nextOf heap post).bind fun store ↦ (setNext heap post cur).map fun heap ↦ (post, store, heap)

/-- The first node of one list goes to the front of another one. -/
theorem Segment.turn (hdone : Segment heap cells stop)
    (htodo : Segment heap ((address, val) :: cells') none)
    (hnot : address ∉ addresses cells) : ∃ heap', turn heap (headOf cells stop) (some address) =
      some (some address, headOf cells' none, heap') ∧
      Segment heap' ((address, val) :: cells) stop ∧ Segment heap' cells' none ∧
      SameOff {address} heap heap' := by
  refine ⟨_, ?_, hdone.cons hnot val, htodo.2.set (List.nodup_cons.mp htodo.nodup).1,
    sameOff_set heap _ _⟩
  rw [HeapList.turn, nextOf_some htodo.1, Option.bind_some, setNext_some htodo.1, Option.map_some]

end CppLearn.Foundation.HeapList
