import CppLearn.Leetcode.SortList

/-!
# Reordering a list

`reorderList` turns round the second half of a list and links its nodes between those of the first
one. The halves are found as in the merge sort of lists; the second one is shorter by a node or as
long, so that it comes to its end first or at the same time.
-/

set_option autoImplicit false
set_option relaxedAutoImplicit false

namespace CppLearn.Leetcode.ReorderList

open Foundation.HeapList Foundation.NodeHeap
open SortList (isShort isShort_eq middleLoop exists_middle)

/-! ### The program -/

/-- The loop of `reverseList`, with a limit on its rounds. -/
def reverseLoop : ℕ → Heap (ListNode ℤ) → Ptr → Ptr → Option (Ptr × Heap (ListNode ℤ))
  | 0, _, _, _ => none
  | fuel + 1, heap, cur, post =>
    if post ≠ none then do
      let (cur, post, heap) ← turn heap cur post
      reverseLoop fuel heap cur post
    else some (cur, heap)

def reverseList (heap : Heap (ListNode ℤ)) (head : Ptr) : Option (Ptr × Heap (ListNode ℤ)) :=
  reverseLoop (heap.bound + 1) heap none head

/-- The last loop of `reorderList`, with a limit on its rounds. -/
def reorderLoop : ℕ → Heap (ListNode ℤ) → Ptr → Ptr → Ptr → Option (Heap (ListNode ℤ))
  | 0, _, _, _, _ => none
  | fuel + 1, heap, l1, l2, cur =>
    if l1 ≠ none ∧ l2 ≠ none then do
      let l1 ← nextOf heap l1
      let heap ← setNext heap cur l2
      let l2 ← nextOf heap l2
      let next ← nextOf heap cur
      let heap ← setNext heap next l1
      reorderLoop fuel heap l1 l2 l1
    else some heap

def reorderList (heap : Heap (ListNode ℤ)) (head : Ptr) : Option (Heap (ListNode ℤ)) := do
  let short ← isShort heap head
  if short then return heap
  else
    let next ← nextOf heap head
    let slow ← middleLoop heap (heap.bound + 1) head next
    let second ← nextOf heap slow
    let (l2, heap) ← reverseList heap second
    let heap ← setNext heap slow none
    reorderLoop (heap.bound + 1) heap head l2 head

/-! ### The order -/

section Order

variable {α : Type*}

/-- The first element, then the last one, then the second one, and so on. -/
def reordered : List α → List α
  | [] => []
  | first :: rest => first :: reordered rest.reverse
termination_by elems => elems.length
decreasing_by
  simp

/-- Elements of two lists in turn. -/
def interleave : List α → List α → List α
  | [], ys => ys
  | x :: xs, ys => x :: interleave ys xs
termination_by xs ys => xs.length + ys.length
decreasing_by
  rw [List.length_cons]
  omega

theorem interleave_nil (ys : List α) : interleave [] ys = ys := by
  rw [interleave]

theorem interleave_cons (x : α)
    (xs ys : List α) : interleave (x :: xs) ys = x :: interleave ys xs := by
  rw [interleave]

theorem interleave_nil_right (xs : List α) : interleave xs [] = xs := by
  cases xs with
  | nil => exact interleave_nil []
  | cons x xs => rw [interleave_cons, interleave_nil]

theorem interleave_perm (xs ys : List α) : (interleave xs ys).Perm (xs ++ ys) := by
  induction hlength : xs.length + ys.length using Nat.strong_induction_on generalizing xs ys with
  | _ length ih =>
    cases xs with
    | nil => rw [interleave_nil, List.nil_append]
    | cons x xs =>
      rw [interleave_cons, List.cons_append]
      rw [List.length_cons] at hlength
      have hrest := ih (ys.length + xs.length) (by omega) ys xs rfl
      exact (hrest.trans List.perm_append_comm).cons x

/-- The first half in turn with the reversed second one. -/
theorem interleave_reverse (front back : List α) (hback : back.length ≤ front.length)
    (hfront : front.length ≤ back.length + 1) :
    interleave front back.reverse = reordered (front ++ back) := by
  induction hlength : front.length + back.length using Nat.strong_induction_on
    generalizing front back with
  | _ length ih =>
    cases front with
    | nil =>
      rw [List.eq_nil_of_length_eq_zero (Nat.le_zero.mp hback), List.reverse_nil, interleave_nil,
        List.append_nil, reordered]
    | cons first front =>
      rw [List.length_cons] at hback hfront hlength
      have hrest := ih (back.length + front.length) (by omega) back.reverse front.reverse
        (by rw [List.length_reverse, List.length_reverse]; omega)
        (by rw [List.length_reverse, List.length_reverse]; omega)
        (by rw [List.length_reverse, List.length_reverse])
      rw [List.reverse_reverse, ← List.reverse_append] at hrest
      rw [interleave_cons, List.cons_append, reordered, hrest]

end Order

/-! ### The loops -/

variable {heap : Heap (ListNode ℤ)} {head : Ptr} {cells xs ys : Cells ℤ}

/-- The nodes go to the front of a list, each in front of those that already have. -/
theorem reverseLoop_spec {fuel : ℕ} {done todo : Cells ℤ} (hdone : Segment heap done none)
    (htodo : Segment heap todo none) (hdisjoint : (addresses todo).Disjoint (addresses done))
    (hfuel : todo.length < fuel) :
    ∃ heap', reverseLoop fuel heap (headOf done none) (headOf todo none) =
      some (headOf (todo.reverse ++ done) none, heap') ∧
      Segment heap' (todo.reverse ++ done) none ∧
      SameOff {address | address ∈ addresses todo} heap heap' := by
  induction todo generalizing heap done fuel with
  | nil =>
    obtain ⟨fuel, rfl⟩ := Nat.exists_eq_succ_of_ne_zero (Nat.ne_of_gt hfuel)
    exact ⟨heap, if_neg (not_not.mpr rfl), hdone, .refl _ heap⟩
  | cons cell todo ih =>
    obtain ⟨fuel, rfl⟩ := Nat.exists_eq_succ_of_ne_zero (Nat.ne_of_gt (Nat.zero_lt_of_lt hfuel))
    obtain ⟨address, val⟩ := cell
    rw [addresses_cons, List.disjoint_cons_left] at hdisjoint
    obtain ⟨heap1, hturn, hdone1, htodo1, hsame⟩ := hdone.turn htodo hdisjoint.1
    obtain ⟨heap', hloop, hdone', hsame'⟩ := ih hdone1 htodo1
      (List.disjoint_cons_right.mpr ⟨(List.nodup_cons.mp htodo.nodup).1, hdisjoint.2⟩)
      (Nat.lt_of_succ_lt_succ hfuel)
    rw [List.reverse_cons, List.append_assoc, List.singleton_append]
    refine ⟨heap', ?_, hdone', ?_⟩
    · rw [reverseLoop, headOf_cons, if_pos (Option.some_ne_none address), hturn]
      exact hloop
    · have hsame1 : SameOff {place | place ∈ addresses ((address, val) :: todo)} heap heap1 :=
        hsame.mono (Set.singleton_subset_iff.mpr List.mem_cons_self)
      exact hsame1.trans (hsame'.mono fun _ ↦ List.mem_cons_of_mem address)

theorem reverseList_spec (h : Segment heap cells none) :
    ∃ heap', reverseList heap (headOf cells none) = some (headOf cells.reverse none, heap') ∧
      Segment heap' cells.reverse none ∧
      SameOff {address | address ∈ addresses cells} heap heap' := by
  have hreverse := reverseLoop_spec segment_nil h (List.disjoint_nil_right _)
    (Nat.lt_succ_of_le (h.length_le h.nodup))
  rwa [List.append_nil] at hreverse

theorem headOf_interleave (hlength : ys.length ≤ xs.length) :
    headOf (interleave xs ys) none = headOf xs none := by
  cases xs with
  | nil => rw [List.eq_nil_of_length_eq_zero (Nat.le_zero.mp hlength), interleave_nil]
  | cons cell xs =>
    rw [interleave_cons]
    rfl

/-- The nodes of two lists are linked in turn. -/
theorem reorderLoop_spec {fuel : ℕ} (hxs : Segment heap xs none) (hys : Segment heap ys none)
    (hdisjoint : (addresses xs).Disjoint (addresses ys)) (hlength : ys.length ≤ xs.length)
    (hfuel : ys.length < fuel) :
    ∃ heap', reorderLoop fuel heap (headOf xs none) (headOf ys none) (headOf xs none) = some heap' ∧
      Segment heap' (interleave xs ys) none ∧
      SameOff {address | address ∈ addresses (xs ++ ys)} heap heap' := by
  induction ys generalizing heap xs fuel with
  | nil =>
    obtain ⟨fuel, rfl⟩ := Nat.exists_eq_succ_of_ne_zero (Nat.ne_of_gt hfuel)
    rw [interleave_nil_right]
    exact ⟨heap, if_neg (fun h ↦ h.2 rfl), hxs, .refl _ heap⟩
  | cons cell ys ih =>
    obtain ⟨fuel, rfl⟩ := Nat.exists_eq_succ_of_ne_zero (Nat.ne_of_gt (Nat.zero_lt_of_lt hfuel))
    cases xs with
    | nil => cases hlength
    | cons cell' xs =>
      obtain ⟨second, y⟩ := cell
      obtain ⟨first, x⟩ := cell'
      rw [addresses_cons, addresses_cons, List.disjoint_cons_left,
        List.disjoint_cons_right] at hdisjoint
      obtain ⟨hfirst, hsecond, hrest⟩ := hdisjoint
      obtain ⟨hne, hfirstYs⟩ := List.ne_and_not_mem_of_not_mem_cons hfirst
      have hfirstXs : first ∉ addresses xs := (List.nodup_cons.mp hxs.nodup).1
      have hsecondYs : second ∉ addresses ys := (List.nodup_cons.mp hys.nodup).1
      have hsecond1 := (Heap.set_node_of_ne (Ne.symm hne) :
        (heap.set first ⟨x, some second⟩).node second = _).trans hys.1
      obtain ⟨heap', hloop, hsegment, hsame⟩ := ih ((hxs.2.set hfirstXs).set hsecond)
        ((hys.2.set hfirstYs).set hsecondYs) hrest (Nat.le_of_succ_le_succ hlength)
        (Nat.lt_of_succ_lt_succ hfuel)
      rw [interleave_cons, interleave_cons]
      refine ⟨heap', ?_, ⟨?_, ?_, hsegment⟩, ?_⟩
      · rw [reorderLoop, headOf_cons, headOf_cons,
          if_pos ⟨Option.some_ne_none _, Option.some_ne_none _⟩]
        simp only [Option.bind_eq_bind, nextOf_some hxs.1, setNext_some hxs.1, Option.bind_some,
          nextOf_some hsecond1, nextOf_some Heap.set_node_self, setNext_some hsecond1]
        exact hloop
      · rw [hsame first, Heap.set_node_of_ne hne, Heap.set_node_self, headOf_cons]
        change first ∉ addresses (xs ++ ys)
        rw [addresses_append, List.mem_append]
        exact not_or.mpr ⟨hfirstXs, hfirstYs⟩
      · rw [hsame second, Heap.set_node_self, headOf_interleave (Nat.le_of_succ_le_succ hlength)]
        change second ∉ addresses (xs ++ ys)
        rw [addresses_append, List.mem_append]
        exact not_or.mpr ⟨hsecond, hsecondYs⟩
      · rw [addresses_append, addresses_cons, addresses_cons]
        refine ((sameOff_set_of_mem (List.mem_append_left _ List.mem_cons_self) heap _).trans
          (sameOff_set_of_mem (List.mem_append_right _ List.mem_cons_self) _ _)).trans
          (hsame.mono fun place hplace ↦ ?_)
        simp only [Set.mem_ofPred_eq, addresses_append, List.mem_cons, List.mem_append] at hplace ⊢
        tauto

/-- The second half is turned round, cut off and linked into the first one. -/
theorem relink_halves {front back : Cells ℤ} {address : ℕ} {val : ℤ}
    (h : Segment heap (front ++ (address, val) :: back) none)
    (hback : back.length ≤ front.length + 1) (hfront : front.length ≤ back.length) :
    ∃ heap1 heap2 heap3, reverseList heap (headOf back none) =
      some (headOf back.reverse none, heap1) ∧ setNext heap1 (some address) none = some heap2 ∧
      reorderLoop (heap2.bound + 1) heap2 (headOf (front ++ (address, val) :: back) none)
      (headOf back.reverse none) (headOf (front ++ (address, val) :: back) none) = some heap3 ∧
      Relinked heap (front ++ (address, val) :: back) heap3
        (headOf (front ++ (address, val) :: back) none)
        (reordered (front ++ (address, val) :: back)) := by
  obtain ⟨hnotFront, hnotBack⟩ := h.notMem_of_split
  obtain ⟨hsegmentFront, hnode, hsegmentBack⟩ := segment_append.mp h
  obtain ⟨heap1, hreverse, hreversed, hsame⟩ := reverseList_spec hsegmentBack
  have hnode1 := (hsame address hnotBack).trans hnode
  have hwhole : front ++ (address, val) :: back = (front ++ [(address, val)]) ++ back := by
    rw [List.append_assoc, List.singleton_append]
  have hhead : headOf (front ++ (address, val) :: back) none =
      headOf (front ++ [(address, val)]) none := by
    rw [headOf_append, headOf_append]
    rfl
  have hdisjoint : (addresses (front ++ [(address, val)])).Disjoint (addresses back) := by
    have hnodup := h.nodup
    rw [hwhole, addresses_append] at hnodup
    exact (List.nodup_append'.mp hnodup).2.2
  have hfirst : Segment (heap1.set address ⟨val, none⟩) (front ++ [(address, val)]) none := by
    rw [hwhole] at h
    refine Segment.redirect
      ((segment_append.mp h).1.frame hsame fun place hplace hmem ↦ ?_) hnotFront none
    exact hdisjoint hplace hmem
  have hmem {place : ℕ} : place ∈ addresses back.reverse ↔ place ∈ addresses back :=
    (back.reverse_perm.map Prod.fst).mem_iff
  have hsecond :=
    @Segment.set _ _ _ _ address ⟨val, none⟩ hreversed fun hplace ↦ hnotBack (hmem.mp hplace)
  obtain ⟨heap3, hloop, hlinked, hsame3⟩ := reorderLoop_spec hfirst hsecond
    (fun place hplace hplace' ↦ hdisjoint hplace (hmem.mp hplace')) (by simpa using hback)
    (Nat.lt_succ_of_le (hsecond.length_le hsecond.nodup))
  have horder : interleave (front ++ [(address, val)]) back.reverse =
      reordered (front ++ (address, val) :: back) := by
    rw [hwhole]
    exact interleave_reverse _ _ (by simpa using hback) (by simpa using hfront)
  refine ⟨heap1, _, heap3, hreverse, setNext_some hnode1 none, hhead ▸ hloop,
    ⟨?_, horder ▸ hlinked⟩, ?_, ?_⟩
  · rw [← horder, headOf_interleave (by simpa using hback), hhead]
  · rw [← horder, hwhole]
    exact (interleave_perm _ _).trans (back.reverse_perm.append_left _)
  · have hback' : ∀ place ∈ addresses back,
        place ∈ addresses (front ++ (address, val) :: back) := by
      intro place hplace
      rw [addresses_append]
      exact List.mem_append_right _ (List.mem_cons_of_mem _ hplace)
    have haddress : address ∈ addresses (front ++ (address, val) :: back) := by
      rw [addresses_append]
      exact List.mem_append_right _ List.mem_cons_self
    refine ((hsame.mono hback').trans (sameOff_set_of_mem haddress heap1 _)).trans
      (hsame3.mono fun place hplace ↦ ?_)
    have hperm := back.reverse_perm.append_left (front ++ [(address, val)])
    rw [← hwhole] at hperm
    exact (hperm.map Prod.fst).mem_iff.mp hplace

theorem reordered_of_length_le (hlength : cells.length ≤ 1) : reordered cells = cells := by
  match cells, hlength with
  | [], _ => rw [reordered]
  | [cell], _ => rw [reordered, List.reverse_nil, reordered]

/-- `reorderList` links the nodes of every list in the order that its name means. -/
theorem reorderList_reordered (h : IsList heap head cells) :
    ∃ heap', reorderList heap head = some heap' ∧
      Relinked heap cells heap' head (reordered cells) := by
  rw [reorderList, isShort_eq h, Option.bind_eq_bind, Option.bind_some]
  by_cases hshort : cells.length ≤ 1
  · rw [reordered_of_length_le hshort]
    exact ⟨heap, if_pos (decide_eq_true hshort), .refl h⟩
  · rw [if_neg (decide_eq_true_iff.not.mpr hshort)]
    obtain ⟨rfl, hsegment⟩ := h
    cases cells with
    | nil => cases hshort (Nat.zero_le 1)
    | cons first rest =>
      obtain ⟨front, address, val, back, hsplit, hfront, hmiddle⟩ := exists_middle hsegment
      have hcount := congrArg List.length hsplit
      rw [List.length_cons, List.length_append, List.length_cons] at hcount
      rw [hsegment.nextOf, Option.bind_eq_bind, Option.bind_some, hmiddle]
      rw [hsplit] at hsegment ⊢
      obtain ⟨heap1, heap2, heap3, hreverse, hcut, hloop, hrelinked⟩ :=
        relink_halves hsegment (by omega) (by omega)
      refine ⟨heap3, ?_, hrelinked⟩
      simp only [Option.bind_eq_bind, Option.bind_some,
        nextOf_some (segment_append.mp hsegment).2.1, hreverse, hcut, hloop]

/-- The nodes 0, 1, 2 and 3 come to be 0, 3, 1, 2. -/
theorem reorderList_reordered_four :
    let heap := (((Heap.empty.set 0 ⟨5, some 1⟩).set 1 ⟨6, some 2⟩).set 2 ⟨7, some 3⟩).set 3
      ⟨8, none⟩
    let cells : Cells ℤ := [(0, 5), (1, 6), (2, 7), (3, 8)]
    (∃ heap', reorderList heap (some 0) = some heap' ∧
      Relinked heap cells heap' (some 0) (reordered cells)) ∧
      reordered cells = [(0, 5), (3, 8), (1, 6), (2, 7)] := by
  intro heap cells
  have h : IsList heap (some 0) cells := ⟨rfl, rfl, rfl, rfl, rfl, trivial⟩
  exact ⟨reorderList_reordered h, by simp [cells, reordered]⟩

end CppLearn.Leetcode.ReorderList
