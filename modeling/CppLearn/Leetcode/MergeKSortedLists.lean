import CppLearn.Foundation.VectorAccess
import CppLearn.Leetcode.MergeTwoLists

/-!
# Merging sorted lists

`mergeKLists` merges the lists of a vector in pairs at a distance that doubles each time, in place:
where it has come to `interval`, the lists are at the indices that are multiples of it.
`mergeKListsWithPriorityQueue` takes the least of the first nodes of all lists each time. Of several
least ones a priority queue may have any at its top, so the order of equal nodes is open; the values
are the same ones in both results.
-/

set_option autoImplicit false
set_option relaxedAutoImplicit false

namespace CppLearn.Leetcode.MergeKSortedLists

open Foundation.HeapList Foundation.NodeHeap Foundation.StableSort
open Foundation.VectorAccess (toInt toInt_of_lt wrapSub wrapSub_of_le)
open MergeTwoLists (mergeTwoLists_spec)

/-! ### The program -/

variable (alloc : Allocator (ListNode ℤ))

def mergeTwoLists : Heap (ListNode ℤ) → Ptr → Ptr → Option (Ptr × Heap (ListNode ℤ)) :=
  MergeTwoLists.mergeTwoLists alloc

/-- The inner loop of `mergeKLists`, with a limit on its rounds. The difference is one of unsigned
words. -/
def pairLoop (interval : ℕ) :
    ℕ → Heap (ListNode ℤ) → List Ptr → ℕ → Option (List Ptr × Heap (ListNode ℤ))
  | 0, _, _, _ => none
  | fuel + 1, heap, lists, i =>
    if i < wrapSub lists.length interval then do
      let l1 ← lists[i]?
      let indx ← toInt (i + interval)
      let l2 ← lists[indx]?
      let (merged, heap) ← mergeTwoLists alloc heap l1 l2
      let step ← toInt (interval * 2)
      let i' ← toInt (i + step)
      pairLoop interval fuel heap (lists.set i merged) i'
    else some (lists, heap)

/-- The outer loop, with a limit on its rounds. -/
def intervalLoop :
    ℕ → Heap (ListNode ℤ) → List Ptr → ℕ → Option (List Ptr × Heap (ListNode ℤ))
  | 0, _, _, _ => none
  | fuel + 1, heap, lists, interval =>
    if interval < lists.length then do
      let (lists, heap) ← pairLoop alloc interval (lists.length + 1) heap lists 0
      let interval ← toInt (interval * 2)
      intervalLoop fuel heap lists interval
    else some (lists, heap)

/-- `mergeKLists`: what it returns, and what it leaves in the vector. -/
def mergeKLists (heap : Heap (ListNode ℤ)) (lists : List Ptr) :
    Option (Ptr × List Ptr × Heap (ListNode ℤ)) := do
  let (lists, heap) ← intervalLoop alloc (lists.length + 1) heap lists 1
  return (lists.headD none, lists, heap)

/-- `Comparator`: `left->val > right->val`. -/
def comparator (heap : Heap (ListNode ℤ)) (left right : Ptr) : Option Bool := do
  let leftNode ← heap.load left
  let rightNode ← heap.load right
  return rightNode.val < leftNode.val

/-- `top` and `pop` of a `priority_queue`: some element that it does not put before any other. -/
structure TopPop where
  topPop : Heap (ListNode ℤ) → List Ptr → Option (Ptr × List Ptr)
  isTop : ∀ heap queue, queue ≠ [] → (∀ ptr ∈ queue, heap.load ptr ≠ none) →
    ∃ top rest, topPop heap queue = some (top, rest) ∧ queue.Perm (top :: rest) ∧
      ∀ other ∈ rest, comparator heap top other ≠ some true

variable (rule : TopPop)

/-- The loop of `mergeKListsWithPriorityQueue`, with a limit on its rounds. -/
def queueLoop : ℕ → Heap (ListNode ℤ) → Ptr → List Ptr → Option (Heap (ListNode ℤ))
  | 0, _, _, _ => none
  | fuel + 1, heap, cur, queue =>
    if queue ≠ [] then do
      let (top, queue) ← rule.topPop heap queue
      let heap ← setNext heap cur top
      let cur ← nextOf heap cur
      let next ← nextOf heap cur
      queueLoop fuel heap cur (if next ≠ none then next :: queue else queue)
    else some heap

def mergeKListsWithPriorityQueue (heap : Heap (ListNode ℤ)) (lists : List Ptr) :
    Option (Ptr × Heap (ListNode ℤ)) := do
  let queue := lists.filter (· ≠ none)
  let (dummy, heap) := alloc.new heap ⟨0, none⟩
  let heap ← queueLoop rule (heap.bound + 1) heap (some dummy) queue
  release heap dummy

/-! ### Lists at a distance -/

/-- From an index on, the vector has pointers to the lists at a distance. -/
def Strided (heap : Heap (ListNode ℤ)) (lists : List Ptr) (interval : ℕ) : ℕ → List (Cells ℤ) → Prop
  | start, [] => lists.length ≤ start
  | start, part :: parts =>
    (∃ head, lists[start]? = some head ∧ IsList heap head part) ∧
      Strided heap lists interval (start + interval) parts

/-- The lists are sorted, and no node is in two of them. -/
structure Separate (parts : List (Cells ℤ)) : Prop where
  nodup : (addresses parts.flatten).Nodup
  ascending : ∀ part ∈ parts, part.Pairwise fun first later ↦ first.2 ≤ later.2

variable {alloc rule} {heap heap' : Heap (ListNode ℤ)}
    {lists lists' : List Ptr} {parts : List (Cells ℤ)} {interval start : ℕ}

/-- The lists stay where heap and vector change elsewhere. -/
theorem Strided.frame {owned : List ℕ} {bound : ℕ} (h : Strided heap lists interval start parts)
    (hsame : SameOff {address | address ∈ owned} heap heap')
    (hdisjoint : (addresses parts.flatten).Disjoint owned) (hlength : lists'.length = lists.length)
    (hlists : ∀ indx, bound ≤ indx → lists'[indx]? = lists[indx]?) (hbound : bound ≤ start) :
    Strided heap' lists' interval start parts := by
  induction parts generalizing start with
  | nil => exact hlength.trans_le h
  | cons part parts ih =>
    rw [List.flatten_cons, addresses_append, List.disjoint_append_left] at hdisjoint
    obtain ⟨⟨head, hhead, hlist⟩, hrest⟩ := h
    refine ⟨⟨head, (hlists start hbound).trans hhead, hlist.frame hsame hdisjoint.1⟩, ?_⟩
    exact ih hrest hdisjoint.2 (hbound.trans (Nat.le_add_right start interval))

/-- There are two lists or more exactly where the vector has an index at the distance. -/
theorem Strided.length_le_one (h : Strided heap lists interval start parts) :
    parts.length ≤ 1 ↔ lists.length ≤ start + interval := by
  match parts, h with
  | [], h => exact iff_of_true (Nat.zero_le 1) (le_trans h (Nat.le_add_right start interval))
  | [part], h => exact iff_of_true le_rfl h.2
  | first :: second :: parts, ⟨_, ⟨head, hhead, _⟩, _⟩ =>
    have hindx := (List.getElem?_eq_some_iff.mp hhead).1
    refine iff_of_false ?_ (Nat.not_le.mpr hindx)
    simp only [List.length_cons]
    omega

/-- They are no more than the indices from the first one on. -/
theorem Strided.length_le (h : Strided heap lists interval start parts) (hinterval : 0 < interval) :
    parts.length ≤ lists.length - start := by
  induction parts generalizing start with
  | nil => exact Nat.zero_le _
  | cons part parts ih =>
    obtain ⟨⟨head, hhead, -⟩, hrest⟩ := h
    have hindx := (List.getElem?_eq_some_iff.mp hhead).1
    have hle := ih hrest
    rw [List.length_cons]
    omega

/-- A vector of lists has them at distance one. -/
theorem strided_one (front : List Ptr) (hlists : List.Forall₂ (IsList heap) lists parts) :
    Strided heap (front ++ lists) 1 front.length parts := by
  induction hlists generalizing front with
  | nil => exact (congrArg List.length (List.append_nil front)).le
  | @cons head part lists parts hlist hrest ih =>
    refine ⟨⟨head, ?_, hlist⟩, ?_⟩
    · rw [List.getElem?_append_right le_rfl, Nat.sub_self, List.getElem?_cons_zero]
    · have hnext := ih (front ++ [head])
      rwa [List.append_assoc, List.length_append] at hnext

theorem Separate.of_perm {parts' : List (Cells ℤ)} (h : Separate parts)
    (hperm : parts'.flatten.Perm parts.flatten)
    (hascending : ∀ part ∈ parts', part.Pairwise fun first later ↦ first.2 ≤ later.2) :
    Separate parts' :=
  ⟨(hperm.map Prod.fst).nodup_iff.mpr h.nodup, hascending⟩

/-! ### One distance -/

/-- The lists from an index on have been replaced by others with the same nodes. -/
structure Regrouped (heap : Heap (ListNode ℤ))
    (lists : List Ptr) (parts : List (Cells ℤ)) (start : ℕ) (heap' : Heap (ListNode ℤ))
    (lists' : List Ptr) (parts' : List (Cells ℤ)) (interval : ℕ) : Prop where
  strided : Strided heap' lists' interval start parts'
  separate : Separate parts'
  perm : parts'.flatten.Perm parts.flatten
  length_eq : lists'.length = lists.length
  before : ∀ indx < start, lists'[indx]? = lists[indx]?
  same : SameOff {address | address ∈ addresses parts.flatten} heap heap'

theorem Regrouped.refl (h : Strided heap lists interval start parts) (hseparate : Separate parts) :
    Regrouped heap lists parts start heap lists parts interval :=
  ⟨h, hseparate, .refl _, rfl, fun _ _ ↦ rfl, .refl _ heap⟩

theorem Regrouped.trans {heap'' : Heap (ListNode ℤ)}
    {lists'' : List Ptr} {parts' parts'' : List (Cells ℤ)}
    {interval' : ℕ} (first : Regrouped heap lists parts start heap' lists' parts' interval)
    (second : Regrouped heap' lists' parts' start heap'' lists'' parts'' interval') :
    Regrouped heap lists parts start heap'' lists'' parts'' interval' where
  strided := second.strided
  separate := second.separate
  perm := second.perm.trans first.perm
  length_eq := second.length_eq.trans first.length_eq
  before indx hindx := (second.before indx hindx).trans (first.before indx hindx)
  same := first.same.trans (second.same.mono fun _ hmem ↦ (first.perm.map Prod.fst).mem_iff.mp hmem)

/-- Two lists that have been merged are the first of the new ones. -/
theorem Regrouped.cons {first second merged : Cells ℤ} {parts' : List (Cells ℤ)} {head : Ptr}
    {heap'' : Heap (ListNode ℤ)} (hstart : start < lists.length) (hinterval : 0 < interval)
    (hseparate : Separate (first :: second :: parts))
    (hmerged : Relinked heap (first ++ second) heap' head merged)
    (hascending : merged.Pairwise fun first later ↦ first.2 ≤ later.2)
    (h : Regrouped heap' (lists.set start head) parts (start + interval) heap'' lists' parts'
      interval) :
    Regrouped heap lists (first :: second :: parts) start heap'' lists' (merged :: parts')
      interval := by
  have hflatten : (first :: second :: parts).flatten = first ++ second ++ parts.flatten := by
    rw [List.flatten_cons, List.flatten_cons, List.append_assoc]
  have hperm : (merged :: parts').flatten.Perm (first :: second :: parts).flatten := by
    rw [hflatten, List.flatten_cons]
    exact hmerged.perm.append h.perm
  have hdisjoint : (addresses merged).Disjoint (addresses parts.flatten) := by
    have hnodup := hseparate.nodup
    rw [hflatten, addresses_append] at hnodup
    intro address hmem hrest
    exact (List.nodup_append'.mp hnodup).2.2 (hmerged.addresses_perm.mem_iff.mp hmem) hrest
  have hhead : lists'[start]? = some head :=
    (h.before start (Nat.lt_add_of_pos_right hinterval)).trans (List.getElem?_set_self hstart)
  refine ⟨⟨⟨head, hhead, hmerged.list.frame h.same hdisjoint⟩, h.strided⟩,
    hseparate.of_perm hperm (List.forall_mem_cons.mpr ⟨hascending, h.separate.ascending⟩), hperm,
    h.length_eq.trans List.length_set, fun indx hindx ↦ ?_, ?_⟩
  · exact (h.before indx (hindx.trans_le (Nat.le_add_right start interval))).trans
      (List.getElem?_set_ne hindx.ne')
  · rw [hflatten, addresses_append]
    exact (hmerged.same.mono fun _ ↦ List.mem_append_left _).trans
      (h.same.mono fun _ ↦ List.mem_append_right _)

/-- The lists are merged in pairs, and the last one of an odd number is left as it is. -/
theorem pairLoop_spec {fuel : ℕ}
    (h : Strided heap lists interval start parts) (hseparate : Separate parts)
    (hinterval : 0 < interval) (hlt : interval < lists.length) (hsize : lists.length < 2 ^ 30)
    (hfuel : parts.length < fuel) :
    ∃ heap' lists' parts', pairLoop alloc interval fuel heap lists start = some (lists', heap') ∧
      parts'.length = (parts.length + 1) / 2 ∧
      Regrouped heap lists parts start heap' lists' parts' (interval * 2) := by
  induction fuel generalizing heap lists start parts with
  | zero => cases hfuel
  | succ fuel ih =>
    have hwrap : wrapSub lists.length interval = lists.length - interval :=
      wrapSub_of_le hlt.le (hsize.trans (by decide))
    rw [pairLoop, hwrap]
    match parts, h with
    | [], h =>
      have hend : lists.length ≤ start := h
      exact ⟨heap, lists, [], if_neg (by omega), rfl, .refl hend hseparate⟩
    | [part], ⟨hpart, h⟩ =>
      have hend : lists.length ≤ start + interval := h
      refine ⟨heap, lists, [part], if_neg (by omega), by simp, .refl ⟨hpart, ?_⟩ hseparate⟩
      exact hend.trans (by omega)
    | first :: second :: parts, ⟨⟨head1, hhead1, hlist1⟩, ⟨head2, hhead2, hlist2⟩, hrest⟩ =>
      have hindx := (List.getElem?_eq_some_iff.mp hhead2).1
      have hnodup : (addresses first ++ addresses second ++ addresses parts.flatten).Nodup := by
        have hnodup := hseparate.nodup
        rwa [List.flatten_cons, List.flatten_cons, addresses_append, addresses_append,
          ← List.append_assoc] at hnodup
      obtain ⟨hnodupPair, hnodupRest, hdisjoint⟩ := List.nodup_append'.mp hnodup
      obtain ⟨hasc1, hasc2, hascRest⟩ : _ ∧ _ ∧ ∀ part ∈ parts, _ := by
        simpa only [List.forall_mem_cons] using hseparate.ascending
      obtain ⟨head, heap1, hmerge, hmerged⟩ := mergeTwoLists_spec alloc hlist1 hlist2
        (List.nodup_append'.mp hnodupPair).2.2
      have hrest' : Strided heap1 (lists.set start head) interval (start + interval * 2) parts := by
        have hstart : start + interval + interval = start + interval * 2 := by
          omega
        rw [hstart] at hrest
        refine hrest.frame hmerged.same ?_ List.length_set
          (fun indx hindx ↦ List.getElem?_set_ne (Nat.ne_of_lt hindx)) (by omega)
        rw [addresses_append]
        exact List.disjoint_comm.mp hdisjoint
      obtain ⟨heap', lists', parts', hloop, hlength, hregrouped⟩ := ih hrest' ⟨hnodupRest, hascRest⟩
        (hlt.trans_eq List.length_set.symm) (List.length_set.trans_lt hsize) (by
          simp only [List.length_cons] at hfuel
          omega)
      refine ⟨heap', lists', _, ?_, ?_, hregrouped.cons (by omega) (by omega) hseparate hmerged
        (ascending_merge hasc1 hasc2)⟩
      · rw [if_pos (by omega), hhead1]
        simp only [Option.bind_eq_bind, Option.bind_some]
        rw [toInt_of_lt (by omega), Option.bind_some, hhead2, Option.bind_some,
          mergeTwoLists, hmerge, Option.bind_some, toInt_of_lt (by omega), Option.bind_some,
          toInt_of_lt (by omega), Option.bind_some]
        exact hloop
      · simp only [List.length_cons, hlength]
        omega

/-! ### All distances -/

/-- At the end there is one list, if there was one. -/
theorem intervalLoop_spec {fuel : ℕ}
    (h : Strided heap lists interval 0 parts) (hseparate : Separate parts)
    (hinterval : 0 < interval) (hsize : lists.length < 2 ^ 30) (hfuel : parts.length < fuel) :
    ∃ heap' lists' parts' interval', intervalLoop alloc fuel heap lists interval =
      some (lists', heap') ∧
      parts'.length ≤ 1 ∧ Regrouped heap lists parts 0 heap' lists' parts' interval' := by
  induction fuel generalizing heap lists interval parts with
  | zero => cases hfuel
  | succ fuel ih =>
    have hdone := h.length_le_one
    rw [Nat.zero_add] at hdone
    rw [intervalLoop]
    by_cases hlt : interval < lists.length
    · obtain ⟨heap1, lists1, parts1, hpairs, hlength, hround⟩ :=
        @pairLoop_spec alloc _ _ _ _ _ (lists.length + 1) h hseparate hinterval hlt hsize
          (Nat.lt_succ_of_le (h.length_le hinterval))
      obtain ⟨heap', lists', parts', interval', hloop, hone, hrest⟩ :=
        ih hround.strided hround.separate
        (Nat.mul_pos hinterval Nat.two_pos) (hround.length_eq.trans_lt hsize) (by omega)
      refine ⟨heap', lists', parts', interval', ?_, hone, hround.trans hrest⟩
      rw [if_pos hlt, hpairs]
      simp only [Option.bind_eq_bind, Option.bind_some]
      rw [toInt_of_lt (by omega), Option.bind_some, hloop]
    · exact ⟨heap, lists, parts, interval, if_neg hlt, hdone.mpr (Nat.not_lt.mp hlt),
        .refl h hseparate⟩

/-- `mergeKLists` links the nodes of all lists in ascending order. -/
theorem mergeKLists_relinked (alloc : Allocator (ListNode ℤ))
    (hlists : List.Forall₂ (IsList heap) lists parts)
    (hseparate : Separate parts) (hsize : lists.length < 2 ^ 30) :
    ∃ head lists' heap' sorted, mergeKLists alloc heap lists = some (head, lists', heap') ∧
      Relinked heap parts.flatten heap' head sorted ∧
      sorted.Pairwise fun first later ↦ first.2 ≤ later.2 := by
  have hstrided : Strided heap lists 1 0 parts := strided_one [] hlists
  obtain ⟨heap', lists', parts', interval, hloop, hone, hregrouped⟩ :=
    @intervalLoop_spec alloc _ _ _ _ (lists.length + 1) hstrided hseparate Nat.one_pos hsize
    (Nat.lt_succ_of_le (hstrided.length_le Nat.one_pos))
  rw [mergeKLists, hloop]
  match parts', hone, hregrouped with
  | [], _, hregrouped =>
    have hnil : lists' = [] := List.eq_nil_of_length_eq_zero (Nat.le_zero.mp hregrouped.strided)
    refine ⟨none, lists', heap', [], ?_, ⟨⟨rfl, trivial⟩, hregrouped.perm, hregrouped.same⟩, .nil⟩
    rw [hnil]
    rfl
  | [part], _, hregrouped =>
    obtain ⟨⟨head, hhead, hlist⟩, -⟩ := hregrouped.strided
    have hperm := hregrouped.perm
    rw [List.flatten_cons, List.flatten_nil, List.append_nil] at hperm
    refine ⟨head, lists', heap', part, ?_, ⟨hlist, hperm, hregrouped.same⟩,
      hregrouped.separate.ascending part List.mem_cons_self⟩
    simp [List.headD_eq_head?_getD, List.head?_eq_getElem?, hhead]

/-! ### The priority queue -/

theorem comparator_eq {left right : Ptr} {leftNode rightNode : ListNode ℤ}
    (hleft : heap.load left = some leftNode) (hright : heap.load right = some rightNode) :
    comparator heap left right = some (decide (rightNode.val < leftNode.val)) := by
  rw [comparator, hleft, Option.bind_eq_bind, Option.bind_some, hright]
  rfl

/-- The first of the least elements. -/
def leastFirst (heap : Heap (ListNode ℤ)) : List Ptr → Option (Ptr × List Ptr)
  | [] => none
  | ptr :: queue =>
    match leastFirst heap queue with
    | none => some (ptr, queue)
    | some (top, rest) =>
      if comparator heap ptr top = some true then some (top, ptr :: rest) else some (ptr, queue)

/-- A queue that gives up the first of the least elements. -/
def TopPop.first : TopPop where
  topPop := leastFirst
  isTop heap queue hqueue hnodes := by
    induction queue with
    | nil => exact absurd rfl hqueue
    | cons ptr queue ih =>
      obtain ⟨hptr, hnodes⟩ := List.forall_mem_cons.mp hnodes
      by_cases hempty : queue = []
      · subst hempty
        exact ⟨ptr, [], rfl, .refl _, nofun⟩
      · obtain ⟨top, rest, hleast, hperm, htop⟩ := ih hempty hnodes
        obtain ⟨ptrNode, hptrNode⟩ := Option.ne_none_iff_exists'.mp hptr
        obtain ⟨topNode, htopNode⟩ :=
          Option.ne_none_iff_exists'.mp (hnodes top (hperm.mem_iff.mpr List.mem_cons_self))
        by_cases hless : topNode.val < ptrNode.val
        · refine ⟨top, ptr :: rest, ?_, (hperm.cons ptr).trans (.swap top ptr rest), ?_⟩
          · rw [leastFirst, hleast]
            exact if_pos (by rw [comparator_eq hptrNode htopNode, decide_eq_true hless])
          · refine List.forall_mem_cons.mpr ⟨?_, htop⟩
            rw [comparator_eq htopNode hptrNode, decide_eq_false hless.not_gt]
            exact nofun
        · refine ⟨ptr, queue, ?_, .refl _, fun other hother ↦ ?_⟩
          · rw [leastFirst, hleast]
            exact if_neg
              (by rw [comparator_eq hptrNode htopNode, decide_eq_false hless]; exact nofun)
          · obtain ⟨otherNode, hotherNode⟩ := Option.ne_none_iff_exists'.mp (hnodes other hother)
            rw [comparator_eq hptrNode hotherNode]
            rcases List.mem_cons.mp (hperm.mem_iff.mp hother) with rfl | hrest
            · obtain rfl := Option.some.inj (hotherNode.symm.trans htopNode)
              rw [decide_eq_false hless]
              exact nofun
            · have hle := htop other hrest
              rw [comparator_eq htopNode hotherNode] at hle
              have hle' : topNode.val ≤ otherNode.val := by
                simpa using hle
              rw [decide_eq_false (not_lt.mpr ((not_lt.mp hless).trans hle'))]
              exact nofun

/-- The pointers to the lists that are not empty. -/
def heads (parts : List (Cells ℤ)) : List Ptr :=
  (parts.map fun part ↦ headOf part none).filter (· ≠ none)

theorem heads_append (parts parts' : List (Cells ℤ)) :
    heads (parts ++ parts') = heads parts ++ heads parts' := by
  rw [heads, List.map_append, List.filter_append]
  rfl

@[simp] theorem heads_nil_cons (parts : List (Cells ℤ)) : heads ([] :: parts) = heads parts := rfl

@[simp] theorem heads_cons_cons (cell : ℕ × ℤ) (part : Cells ℤ) (parts : List (Cells ℤ)) :
    heads ((cell :: part) :: parts) = some cell.1 :: heads parts := rfl

theorem mem_heads {ptr : Ptr} : ptr ∈ heads parts ↔
    ∃ address elem tail, ptr = some address ∧ (address, elem) :: tail ∈ parts := by
  rw [heads, List.mem_filter, List.mem_map]
  constructor
  · rintro ⟨⟨part, hpart, rfl⟩, hne⟩
    match part with
    | [] => cases of_decide_eq_true hne rfl
    | (address, elem) :: tail => exact ⟨address, elem, tail, rfl, hpart⟩
  · rintro ⟨address, elem, tail, rfl, hpart⟩
    exact ⟨⟨_, hpart, rfl⟩, decide_eq_true (Option.some_ne_none address)⟩

theorem Separate.perm {parts' : List (Cells ℤ)} (h : Separate parts) (hperm : parts'.Perm parts) :
    Separate parts' :=
  h.of_perm hperm.flatten fun part hpart ↦ h.ascending part (hperm.mem_iff.mp hpart)

theorem Separate.tail {cell : ℕ × ℤ} {part : Cells ℤ} (h : Separate ((cell :: part) :: parts)) :
    Separate (part :: parts) := by
  obtain ⟨hfirst, hrest⟩ := List.forall_mem_cons.mp h.ascending
  exact ⟨(List.nodup_cons.mp h.nodup).2,
    List.forall_mem_cons.mpr ⟨(List.pairwise_cons.mp hfirst).2, hrest⟩⟩

/-- The top is the first node of one of the lists, and no other node is less. -/
theorem exists_top_part {queue rest : List Ptr} {top : Ptr} (hqueue : queue.Perm (heads parts))
    (hsegments : ∀ part ∈ parts, Segment heap part none) (hseparate : Separate parts)
    (hperm : queue.Perm (top :: rest))
    (htop : ∀ other ∈ rest, comparator heap top other ≠ some true) :
    ∃ address elem tail parts', top = some address ∧
      parts.Perm (((address, elem) :: tail) :: parts') ∧
      rest.Perm (heads parts') ∧ ∀ cell ∈ tail ++ parts'.flatten, elem ≤ cell.2 := by
  have hmem : top ∈ heads parts := hqueue.mem_iff.mp (hperm.mem_iff.mpr List.mem_cons_self)
  obtain ⟨address, elem, tail, rfl, hpart⟩ := mem_heads.mp hmem
  obtain ⟨before, after, rfl⟩ := List.append_of_mem hpart
  have hparts := @List.perm_middle _ ((address, elem) :: tail) before after
  have hrest : rest.Perm (heads (before ++ after)) := by
    have hheads : (heads (before ++ ((address, elem) :: tail) :: after)).Perm
        (some address :: heads (before ++ after)) := by
      rw [heads_append, heads_append]
      exact List.perm_middle
    exact (hperm.symm.trans (hqueue.trans hheads)).cons_inv
  refine ⟨address, elem, tail, before ++ after, rfl, hparts, hrest, fun cell hcell ↦ ?_⟩
  have hnode := (hsegments _ hpart).1
  rcases List.mem_append.mp hcell with hcell | hcell
  · exact (List.pairwise_cons.mp (hseparate.ascending _ hpart)).1 cell hcell
  · -- It is in a list whose first node is not less.
    obtain ⟨part, hmemPart, hcell⟩ := List.mem_flatten.mp hcell
    have hpart' := hparts.mem_iff.mpr (List.mem_cons_of_mem _ hmemPart)
    obtain ⟨⟨other, first⟩, tail', rfl⟩ := List.exists_cons_of_ne_nil (List.ne_nil_of_mem hcell)
    have hother :=
      htop (some other) (hrest.mem_iff.mpr (mem_heads.mpr ⟨other, first, tail', rfl, hmemPart⟩))
    rw [comparator_eq (Heap.load_some.trans hnode)
      (Heap.load_some.trans (hsegments _ hpart').1)] at hother
    have hle : elem ≤ first := by
      simpa using hother
    rcases List.mem_cons.mp hcell with rfl | hcell
    · exact hle
    · exact hle.trans ((List.pairwise_cons.mp (hseparate.ascending _ hpart')).1 cell hcell)

/-- Without first nodes there are no nodes. -/
theorem flatten_eq_nil (hheads : heads parts = []) : parts.flatten = [] := by
  refine List.flatten_eq_nil_iff.mpr fun part hpart ↦ ?_
  match part with
  | [] => rfl
  | (address, elem) :: tail =>
    have hmem := mem_heads.mpr ⟨address, elem, tail, rfl, hpart⟩
    rw [hheads] at hmem
    cases hmem

/-- What follows the node that has been taken is pushed. -/
theorem heads_push (tail : Cells ℤ) {rest : List Ptr} (hrest : rest.Perm (heads parts)) :
    (if headOf tail none ≠ none then headOf tail none :: rest else rest).Perm
      (heads (tail :: parts)) := by
  cases tail with
  | nil => exact hrest
  | cons cell tail => exact hrest.cons (some cell.1)

theorem load_ne_none {ptr : Ptr} (hsegments : ∀ part ∈ parts, Segment heap part none)
    (hptr : ptr ∈ heads parts) : heap.load ptr ≠ none := by
  obtain ⟨address, elem, tail, rfl, hpart⟩ := mem_heads.mp hptr
  rw [Heap.load_some, (hsegments _ hpart).1]
  exact Option.some_ne_none _

/-- The lists without the node that has been taken stay while another node is linked to it. -/
theorem segments_tail {cur : ℕ} {cell : ℕ × ℤ} {tail : Cells ℤ} {parts' : List (Cells ℤ)}
    {node : ListNode ℤ} (hsegments : ∀ part ∈ parts, Segment heap part none)
    (hparts : parts.Perm ((cell :: tail) :: parts')) (hnot : cur ∉ addresses parts.flatten) :
    ∀ part ∈ tail :: parts', Segment (heap.set cur node) part none := by
  intro part hpart
  have hsubset : ∀ other ∈ part, other ∈ parts.flatten := fun other hother ↦
    hparts.flatten.mem_iff.mpr (List.mem_cons_of_mem cell (List.mem_flatten_of_mem hpart hother))
  refine Segment.set ?_ fun hmem ↦ hnot ?_
  · rcases List.mem_cons.mp hpart with rfl | hpart
    · exact (hsegments _ (hparts.mem_iff.mpr List.mem_cons_self)).2
    · exact hsegments part (hparts.mem_iff.mpr (List.mem_cons_of_mem _ hpart))
  · obtain ⟨other, hother, rfl⟩ := List.mem_map.mp hmem
    exact List.mem_map_of_mem (hsubset other hother)

/-- The loop puts all nodes in ascending order behind a node. -/
theorem queueLoop_spec {fuel cur : ℕ} {queue : List Ptr} {val : ℤ} {last : Ptr}
    (hqueue : queue.Perm (heads parts)) (hsegments : ∀ part ∈ parts, Segment heap part none)
    (hseparate : Separate parts) (hcur : heap.node cur = some ⟨val, last⟩)
    (hnot : cur ∉ addresses parts.flatten) (hlast : parts.flatten = [] → last = none)
    (hfuel : parts.flatten.length < fuel) :
    ∃ heap' sorted, queueLoop rule fuel heap (some cur) queue = some heap' ∧
      Segment heap' ((cur, val) :: sorted) none ∧ sorted.Perm parts.flatten ∧
      (sorted.Pairwise fun first later ↦ first.2 ≤ later.2) ∧
      SameOff {address | address ∈ cur :: addresses parts.flatten} heap heap' := by
  induction fuel generalizing heap cur val last queue parts with
  | zero => cases hfuel
  | succ fuel ih =>
    by_cases hempty : queue = []
    · have hflatten := flatten_eq_nil (List.nil_perm.mp (hempty ▸ hqueue))
      refine ⟨heap, [], ?_, ⟨?_, trivial⟩, hflatten ▸ .refl _, .nil, .refl _ heap⟩
      · rw [queueLoop, if_neg (not_not.mpr hempty)]
      · rw [hcur, hlast hflatten]
        rfl
    · obtain ⟨top, rest, hpop, hperm, htop⟩ := rule.isTop heap queue hempty fun ptr hptr ↦
        load_ne_none hsegments (hqueue.mem_iff.mp hptr)
      obtain ⟨address, elem, tail, parts', rfl, hparts, hrest, hleast⟩ :=
        exists_top_part hqueue hsegments hseparate hperm htop
      have hflatten : ((address, elem) :: (tail :: parts').flatten).Perm parts.flatten :=
        hparts.flatten.symm
      have howned :
          (address :: addresses (tail :: parts').flatten).Perm (addresses parts.flatten) :=
        hflatten.map Prod.fst
      have hseparate' := hseparate.perm hparts.symm
      have hnode := (hsegments _ (hparts.mem_iff.mpr List.mem_cons_self)).1
      have hne : address ≠ cur := by
        rintro rfl
        exact hnot (howned.mem_iff.mp List.mem_cons_self)
      have hnode' :=
        (Heap.set_node_of_ne hne : (heap.set cur ⟨val, some address⟩).node address = _).trans hnode
      have hsegments' := @segments_tail _ _ _ _ _ _ ⟨val, some address⟩ hsegments hparts hnot
      obtain ⟨heap', sorted, hloop, hsegment, hsorted, hascending, hsame⟩ :=
        ih (heads_push tail hrest) hsegments' hseparate'.tail hnode'
          (List.nodup_cons.mp hseparate'.nodup).1
          (fun h ↦ by rw [(List.append_eq_nil_iff.mp h).1, headOf_nil]) (by
            have hlength := hflatten.length_eq
            rw [List.length_cons] at hlength
            omega)
      obtain ⟨hlinked, hsame'⟩ := hsegment.link hsame howned hnot
      refine ⟨heap', _, ?_, hlinked, (hsorted.cons _).trans hflatten, ?_, hsame'⟩
      · rw [queueLoop, if_pos hempty, hpop]
        simp only [Option.bind_eq_bind, Option.bind_some, setNext_some hcur]
        rw [nextOf_some Heap.set_node_self, Option.bind_some, nextOf_some hnode', Option.bind_some,
          hloop]
      · exact List.pairwise_cons.mpr ⟨fun cell hcell ↦ hleast cell (hsorted.mem_iff.mp hcell),
          hascending⟩

theorem exists_list (hlists : List.Forall₂ (IsList heap) lists parts)
    {part : Cells ℤ} (hpart : part ∈ parts) : ∃ head ∈ lists, IsList heap head part := by
  induction hlists with
  | nil => cases hpart
  | @cons head first lists parts hlist _ ih =>
    rcases List.mem_cons.mp hpart with rfl | hpart
    · exact ⟨head, List.mem_cons_self, hlist⟩
    · obtain ⟨head', hmem, hlist'⟩ := ih hpart
      exact ⟨head', List.mem_cons_of_mem head hmem, hlist'⟩

/-- At first the heads of all lists that are not empty have been pushed. -/
theorem filter_perm_heads (hlists : List.Forall₂ (IsList heap) lists parts) :
    (lists.filter (· ≠ none)).Perm (heads parts) := by
  have heq : lists = parts.map fun part ↦ headOf part none := by
    induction hlists with
    | nil => rfl
    | cons hlist _ ih => rw [List.map_cons, ← ih, hlist.head_eq]
  rw [heq, heads]

/-- `mergeKListsWithPriorityQueue` links the nodes of all lists in ascending order. -/
theorem mergeKListsWithPriorityQueue_relinked (alloc : Allocator (ListNode ℤ)) (rule : TopPop)
    (hlists : List.Forall₂ (IsList heap) lists parts) (hseparate : Separate parts) :
    ∃ head heap' sorted, mergeKListsWithPriorityQueue alloc rule heap lists = some (head, heap') ∧
      Relinked heap parts.flatten heap' head sorted ∧
      sorted.Pairwise fun first later ↦ first.2 ≤ later.2 := by
  obtain ⟨dummy, hdummy, hfree⟩ := alloc.exists_address heap
  have hsegments : ∀ part ∈ parts, Segment heap part none := fun part hpart ↦ by
    obtain ⟨head, -, hlist⟩ := exists_list hlists hpart
    exact hlist.segment
  have hold := extends_set hfree ⟨0, none⟩
  have hnodes : ∀ address ∈ addresses parts.flatten, heap.node address ≠ none := by
    intro address hmem
    obtain ⟨cell, hcell, rfl⟩ := List.mem_map.mp hmem
    obtain ⟨part, hpart, hcell⟩ := List.mem_flatten.mp hcell
    exact (hsegments part hpart).node_ne_none (List.mem_map_of_mem hcell)
  have hlength : parts.flatten.length < (heap.set dummy ⟨0, none⟩).bound + 1 := by
    have hle :=
      Heap.length_le_bound hseparate.nodup fun address hmem ↦ hold.ne_none (hnodes address hmem)
    rw [addresses, List.length_map] at hle
    exact Nat.lt_succ_of_le hle
  obtain ⟨heap', sorted, hloop, hsegment, hperm, hascending, hsame⟩ :=
    @queueLoop_spec rule _ parts _ dummy (lists.filter (· ≠ none)) 0 none (filter_perm_heads hlists)
    (fun part hpart ↦ (hsegments part hpart).extends hold) hseparate Heap.set_node_self
    (fun hmem ↦ hnodes dummy hmem hfree) (fun _ ↦ rfl) hlength
  obtain ⟨heap'', hrelease, hlist, hrest, -⟩ :=
    hsegment.release hfree ((sameOff_set_of_mem List.mem_cons_self heap _).trans hsame)
  refine ⟨_, heap'', sorted, ?_, ⟨hlist, hperm, hrest⟩, hascending⟩
  rw [mergeKListsWithPriorityQueue]
  simp only [Allocator.new, hdummy, Option.bind_eq_bind, hloop, Option.bind_some, hrelease]

/-- Ascending orders of the same nodes have the same values. -/
theorem vals_eq {sorted sorted' : Cells ℤ} (hperm : sorted.Perm sorted')
    (hascending : sorted.Pairwise fun first later ↦ first.2 ≤ later.2)
    (hascending' : sorted'.Pairwise fun first later ↦ first.2 ≤ later.2) :
    vals sorted = vals sorted' := by
  refine List.Perm.eq_of_pairwise (fun first second _ _ ↦ le_antisymm) ?_ ?_ (hperm.map Prod.snd)
  · exact List.pairwise_map.mpr hascending
  · exact List.pairwise_map.mpr hascending'

/-- Both link the nodes of all lists in ascending order, and so return the same values. -/
theorem mergeKLists_eq (alloc : Allocator (ListNode ℤ)) (rule : TopPop)
    (hlists : List.Forall₂ (IsList heap) lists parts) (hseparate : Separate parts)
    (hsize : lists.length < 2 ^ 30) : ∃ head lists' heap1 sorted1 head2 heap2 sorted2,
      mergeKLists alloc heap lists = some (head, lists', heap1) ∧
      mergeKListsWithPriorityQueue alloc rule heap lists = some (head2, heap2) ∧
      Relinked heap parts.flatten heap1 head sorted1 ∧
      Relinked heap parts.flatten heap2 head2 sorted2 ∧
      (sorted1.Pairwise fun first later ↦ first.2 ≤ later.2) ∧
      (sorted2.Pairwise fun first later ↦ first.2 ≤ later.2) ∧ vals sorted1 = vals sorted2 := by
  obtain ⟨head, lists', heap1, sorted1, hmerge1, hrelinked1, hascending1⟩ :=
    mergeKLists_relinked alloc hlists hseparate hsize
  obtain ⟨head2, heap2, sorted2, hmerge2, hrelinked2, hascending2⟩ :=
    mergeKListsWithPriorityQueue_relinked alloc rule hlists hseparate
  exact ⟨head, lists', heap1, sorted1, head2, heap2, sorted2, hmerge1, hmerge2, hrelinked1,
    hrelinked2, hascending1, hascending2,
    vals_eq (hrelinked1.perm.trans hrelinked2.perm.symm) hascending1 hascending2⟩

/-- Three lists, one of them empty. -/
theorem mergeKLists_eq_three :
    let heap := ((Heap.empty.set 0 ⟨1, some 1⟩).set 1 ⟨4, none⟩).set 2 ⟨3, none⟩
    let parts : List (Cells ℤ) := [[(0, 1), (1, 4)], [], [(2, 3)]]
    ∃ head lists' heap1 sorted1 head2 heap2 sorted2,
      mergeKLists .next heap [some 0, none, some 2] = some (head, lists', heap1) ∧
      mergeKListsWithPriorityQueue .next .first heap [some 0, none, some 2] = some (head2, heap2) ∧
      Relinked heap parts.flatten heap1 head sorted1 ∧
      Relinked heap parts.flatten heap2 head2 sorted2 ∧
      (sorted1.Pairwise fun first later ↦ first.2 ≤ later.2) ∧
      (sorted2.Pairwise fun first later ↦ first.2 ≤ later.2) ∧ vals sorted1 = vals sorted2 := by
  intro heap parts
  have hlists : List.Forall₂ (IsList heap) [some 0, none, some 2] parts :=
    .cons ⟨rfl, rfl, rfl, trivial⟩ (.cons ⟨rfl, trivial⟩ (.cons ⟨rfl, rfl, trivial⟩ .nil))
  exact mergeKLists_eq .next .first hlists ⟨by decide, by decide⟩ (by decide)

end CppLearn.Leetcode.MergeKSortedLists
