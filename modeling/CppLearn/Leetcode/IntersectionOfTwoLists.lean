import CppLearn.Foundation.HeapList
import Mathlib.Data.List.Chain
import Mathlib.Data.Option.Basic

/-!
# The intersection of two lists

`getIntersectionNode` goes along both lists in step, and from the end of each on along the other
one. Both ways lead over the parts that the lists do not share, the shared part and a null pointer,
in different orders: they are equally long up to where they meet, at the first shared node or at the
end. Where the unshared parts have the same length, they meet there at once; else not before each
has changed lists.
-/

set_option autoImplicit false
set_option relaxedAutoImplicit false

namespace CppLearn.Leetcode.IntersectionOfTwoLists

open Foundation.HeapList Foundation.NodeHeap

/-! ### The program -/

/-- `cur == nullptr ? other : cur->next`. -/
def advance (heap : Heap (ListNode ℤ)) (other cur : Ptr) : Option Ptr :=
  if cur = none then some other else (heap.load cur).map ListNode.next

/-- The loop, with a limit on its rounds. -/
def meet (heap : Heap (ListNode ℤ)) (l1 l2 : Ptr) : ℕ → Ptr → Ptr → Option Ptr
  | 0, _, _ => none
  | fuel + 1, cur1, cur2 =>
    if cur1 = cur2 then some cur1
    else do
      let cur1 ← advance heap l2 cur1
      let cur2 ← advance heap l1 cur2
      meet heap l1 l2 fuel cur1 cur2

def getIntersectionNode (heap : Heap (ListNode ℤ)) (l1 l2 : Ptr) : Option Ptr :=
  meet heap l1 l2 (2 * heap.bound + 2) l1 l2

/-! ### Ways through the lists -/

variable {heap : Heap (ListNode ℤ)} {l1 l2 other stop : Ptr} {cells : Cells ℤ}

/-- Each pointer of the way is the one that the loop goes on to. -/
def Way (heap : Heap (ListNode ℤ)) (other : Ptr) (ptrs : List Ptr) : Prop :=
  ptrs.IsChain fun cur next ↦ advance heap other cur = some next

/-- The pointers to the nodes of a list. -/
def pointers (cells : Cells ℤ) : List Ptr := (addresses cells).map some

@[simp] theorem pointers_append (cells cells' : Cells ℤ) :
    pointers (cells ++ cells') = pointers cells ++ pointers cells' := by
  rw [pointers, addresses_append, List.map_append]
  rfl

@[simp] theorem length_pointers (cells : Cells ℤ) : (pointers cells).length = cells.length := by
  rw [pointers, addresses, List.length_map, List.length_map]

theorem head?_pointers (cells : Cells ℤ) (stop : Ptr) (ptrs : List Ptr) :
    (pointers cells ++ stop :: ptrs).head? = some (headOf cells stop) := by
  cases cells with
  | nil => rfl
  | cons cell cells => rfl

/-- A list is a way to what follows it. -/
theorem way_pointers (h : Segment heap cells stop) (other : Ptr) :
    Way heap other (pointers cells ++ [stop]) := by
  induction cells with
  | nil => exact List.isChain_singleton stop
  | cons cell cells ih =>
    obtain ⟨address, val⟩ := cell
    refine List.isChain_cons.mpr ⟨fun next hnext ↦ ?_, ih h.2⟩
    have heq := hnext.symm.trans (head?_pointers cells stop [])
    rw [Option.some.inj heq, advance, if_neg (Option.some_ne_none address), Heap.load_some, h.1]
    rfl

/-- Two ways of one length end the loop where they end together, if they have not met before. -/
theorem meet_eq {fuel : ℕ} {ptrs1 ptrs2 : List Ptr} {cur1 cur2 : Ptr}
    (hway1 : Way heap l2 (ptrs1 ++ [stop])) (hway2 : Way heap l1 (ptrs2 ++ [stop]))
    (hcur1 : (ptrs1 ++ [stop]).head? = some cur1) (hcur2 : (ptrs2 ++ [stop]).head? = some cur2)
    (hlength : ptrs1.length = ptrs2.length) (hapart : ∀ pair ∈ ptrs1.zip ptrs2, pair.1 ≠ pair.2)
    (hfuel : ptrs1.length < fuel) : meet heap l1 l2 fuel cur1 cur2 = some stop := by
  induction ptrs1 generalizing ptrs2 cur1 cur2 fuel with
  | nil =>
    obtain rfl := List.eq_nil_of_length_eq_zero hlength.symm
    obtain ⟨fuel, rfl⟩ := Nat.exists_eq_succ_of_ne_zero (Nat.ne_of_gt hfuel)
    obtain rfl := Option.some.inj hcur1
    obtain rfl := Option.some.inj hcur2
    rw [meet, if_pos rfl]
  | cons ptr1 ptrs1 ih =>
    obtain ⟨fuel, rfl⟩ := Nat.exists_eq_succ_of_ne_zero (Nat.ne_of_gt (Nat.zero_lt_of_lt hfuel))
    cases ptrs2 with
    | nil => cases hlength
    | cons ptr2 ptrs2 =>
      obtain rfl := Option.some.inj hcur1
      obtain rfl := Option.some.inj hcur2
      obtain ⟨hne, hrest⟩ := List.forall_mem_cons.mp hapart
      obtain ⟨hstep1, hway1⟩ := List.isChain_cons.mp hway1
      obtain ⟨hstep2, hway2⟩ := List.isChain_cons.mp hway2
      obtain ⟨next1, hnext1⟩ : ∃ next, (ptrs1 ++ [stop]).head? = some next := by
        cases ptrs1 <;> exact ⟨_, rfl⟩
      obtain ⟨next2, hnext2⟩ : ∃ next, (ptrs2 ++ [stop]).head? = some next := by
        cases ptrs2 <;> exact ⟨_, rfl⟩
      rw [meet, if_neg hne, hstep1 next1 hnext1]
      simp only [Option.bind_eq_bind, Option.bind_some]
      rw [hstep2 next2 hnext2]
      exact ih hway1 hway2 hnext1 hnext2 (Nat.succ.inj hlength) hrest (Nat.lt_of_succ_lt_succ hfuel)

/-! ### Where the ways meet -/

variable {α : Type*} {first second shared : List α}

/-- Two lists around a third one, in both orders: they do not agree anywhere, unless the two have
the same length. -/
theorem length_eq_of_mem_zip (hnodup : (first ++ (shared ++ second)).Nodup) (hshared : shared ≠ [])
    {elem : α}
    (hmem : (elem, elem) ∈ (first ++ (shared ++ second)).zip (second ++ (shared ++ first))) :
    first.length = second.length := by
  obtain ⟨place, hplace⟩ := List.mem_iff_getElem?.mp hmem
  rw [List.getElem?_zip_eq_some] at hplace
  obtain ⟨hfirst, hsecond⟩ := hplace
  have hnodup' : (second ++ (shared ++ first)).Nodup := by
    refine (List.Perm.nodup_iff ?_).mp hnodup
    rw [← List.append_assoc second]
    exact List.perm_append_comm.trans (List.perm_append_comm.append_right first)
  have hplaceLt : place < (second ++ (shared ++ first)).length :=
    (List.getElem?_eq_some_iff.mp hsecond).1
  have hpositive : 0 < shared.length := List.length_pos_iff.mpr hshared
  -- Where the element is in the second order follows from where it is in the first one.
  have hunique {other : ℕ} (hother : (second ++ (shared ++ first))[other]? = some elem) :
      place = other := (List.getElem?_inj hplaceLt hnodup').mp (hsecond.trans hother.symm)
  by_cases hinFirst : place < first.length
  · rw [List.getElem?_append_left hinFirst] at hfirst
    have heq := @hunique (second.length + (shared.length + place)) (by
      rw [List.getElem?_append_right (Nat.le_add_right _ _), Nat.add_sub_cancel_left,
        List.getElem?_append_right (Nat.le_add_right _ _), Nat.add_sub_cancel_left, hfirst])
    omega
  · rw [List.getElem?_append_right (not_lt.mp hinFirst)] at hfirst
    by_cases hinShared : place - first.length < shared.length
    · rw [List.getElem?_append_left hinShared] at hfirst
      have heq := @hunique (second.length + (place - first.length)) (by
        rw [List.getElem?_append_right (Nat.le_add_right _ _), Nat.add_sub_cancel_left,
          List.getElem?_append_left hinShared, hfirst])
      omega
    · rw [List.getElem?_append_right (not_lt.mp hinShared)] at hfirst
      have hinSecond := (List.getElem?_eq_some_iff.mp hfirst).1
      have heq := hunique (by rw [List.getElem?_append_left hinSecond, hfirst])
      omega

/-! ### The first shared node -/

/-- The pointers on the way through a list, and from its end on to the shared part of the other. -/
def around (xs shared ys : Cells ℤ) : List Ptr := pointers (xs ++ shared) ++ none :: pointers ys

section Around

variable {xs ys shared : Cells ℤ}

theorem around_eq (xs shared ys : Cells ℤ) :
    around xs shared ys = pointers xs ++ (pointers shared ++ [none] ++ pointers ys) := by
  simp [around]

theorem length_around (xs shared ys : Cells ℤ) :
    (around xs shared ys).length = xs.length + shared.length + ys.length + 1 := by
  simp [around]
  omega

theorem head?_around (xs shared ys : Cells ℤ) :
    (around xs shared ys ++ [headOf shared none]).head? = some (headOf (xs ++ shared) none) := by
  rw [around, List.append_assoc, List.cons_append, head?_pointers]

theorem way_around (h1 : Segment heap (xs ++ shared) none) (h2 : Segment heap (ys ++ shared) none) :
    Way heap (headOf (ys ++ shared) none) (around xs shared ys ++ [headOf shared none]) := by
  rw [around, List.append_assoc, List.cons_append, Way, List.isChain_split]
  refine ⟨way_pointers h1 _, List.isChain_cons.mpr ⟨fun next hnext ↦ ?_,
    way_pointers (segment_append.mp h2).1 _⟩⟩
  have heq := hnext.symm.trans (head?_pointers ys (headOf shared none) [])
  rw [Option.some.inj heq, ← headOf_append, advance, if_pos rfl]

theorem nodup_around (h1 : Segment heap (xs ++ shared) none) (h2 : Segment heap (ys ++ shared) none)
    (hdisjoint : (addresses xs).Disjoint (addresses ys)) : (around xs shared ys).Nodup := by
  have hperm : (around xs shared ys).Perm (none :: pointers (xs ++ shared ++ ys)) := by
    rw [around, pointers_append (xs ++ shared)]
    exact List.perm_middle
  rw [hperm.nodup_iff, List.nodup_cons]
  refine ⟨by simp [pointers], (List.nodup_map_iff (Option.some_injective ℕ)).mpr ?_⟩
  have hnodup := h2.nodup
  rw [addresses_append, List.nodup_append'] at hnodup
  rw [addresses_append, List.nodup_append']
  refine ⟨h1.nodup, hnodup.1, fun other hother hys ↦ ?_⟩
  rw [addresses_append] at hother
  rcases List.mem_append.mp hother with hxs | hshared
  · exact hdisjoint hxs hys
  · exact hnodup.2.2 hys hshared

/-- The loop ends at the first node of the shared part, or with null at its end. -/
theorem getIntersectionNode_append (h1 : Segment heap (xs ++ shared) none)
    (h2 : Segment heap (ys ++ shared) none) (hdisjoint : (addresses xs).Disjoint (addresses ys)) :
    getIntersectionNode heap (headOf (xs ++ shared) none) (headOf (ys ++ shared) none) =
      some (headOf shared none) := by
  have hle1 := h1.length_le h1.nodup
  have hle2 := h2.length_le h2.nodup
  rw [List.length_append] at hle1 hle2
  by_cases hlength : xs.length = ys.length
  · refine meet_eq (way_pointers (segment_append.mp h1).1 _)
      (way_pointers (segment_append.mp h2).1 _) ?_ ?_ ?_ ?_ ?_
    · rw [head?_pointers, headOf_append]
    · rw [head?_pointers, headOf_append]
    · rw [length_pointers, length_pointers, hlength]
    · rintro ⟨ptr1, ptr2⟩ hpair heq
      obtain ⟨hmem1, hmem2⟩ := List.of_mem_zip hpair
      obtain ⟨address, hxs, rfl⟩ := List.mem_map.mp hmem1
      obtain ⟨address', hys, rfl⟩ := List.mem_map.mp hmem2
      exact hdisjoint hxs (Option.some.inj heq ▸ hys)
    · rw [length_pointers]
      omega
  · refine meet_eq (way_around h1 h2) (way_around h2 h1) (head?_around xs shared ys)
      (head?_around ys shared xs) ?_ ?_ ?_
    · rw [length_around, length_around]
      omega
    · rintro ⟨ptr1, ptr2⟩ hpair heq
      obtain rfl : ptr1 = ptr2 := heq
      have hnodup := nodup_around h1 h2 hdisjoint
      rw [around_eq] at hnodup
      rw [around_eq, around_eq] at hpair
      refine hlength ?_
      rw [← length_pointers xs, ← length_pointers ys]
      exact length_eq_of_mem_zip hnodup
        (List.append_ne_nil_of_right_ne_nil _ (List.cons_ne_nil _ _)) hpair
    · rw [length_around]
      omega

end Around

/-- `getIntersectionNode` returns the first node of the one list that is in the other one too, or
null. -/
theorem getIntersectionNode_eq {cells1 cells2 : Cells ℤ} (h1 : IsList heap l1 cells1)
    (h2 : IsList heap l2 cells2) :
    getIntersectionNode heap l1 l2 = some ((addresses cells1).find? (· ∈ addresses cells2)) := by
  rw [← h1.head_eq, ← h2.head_eq]
  cases hfind : (addresses cells1).find? (· ∈ addresses cells2) with
  | none =>
    have hdisjoint : (addresses cells1).Disjoint (addresses cells2) := by
      intro address hmem1 hmem2
      have hnot := List.find?_eq_none.mp hfind address hmem1
      exact hnot (decide_eq_true hmem2)
    have hmeet := @getIntersectionNode_append heap cells1 cells2 []
    simp only [List.append_nil] at hmeet
    exact hmeet h1.segment h2.segment hdisjoint
  | some address =>
    obtain ⟨hshared, front, back, hsplit, hfront⟩ := List.find?_eq_some_iff_append.mp hfind
    obtain ⟨xs, shared, rfl, hxs, hrest⟩ := List.map_eq_append_iff.mp hsplit
    obtain ⟨⟨other, val⟩, hcell, rfl⟩ := List.mem_map.mp (of_decide_eq_true hshared)
    obtain ⟨ys, rest, rfl⟩ := List.append_of_mem hcell
    have hsegment1 := (segment_append.mp h1.segment).2
    have hsegment2 := (segment_append.mp h2.segment).2
    obtain rfl : shared = (other, val) :: rest := by
      refine hsegment1.unique hsegment2 ?_
      cases shared with
      | nil => cases hrest
      | cons cell shared => exact congrArg some (List.cons.inj hrest).1
    refine getIntersectionNode_append h1.segment h2.segment fun address hxs' hys ↦ ?_
    have hnot := hfront address (hxs ▸ hxs')
    have hmem : address ∈ addresses (ys ++ (other, val) :: rest) :=
      addresses_append ▸ List.mem_append_left _ hys
    rw [decide_eq_true hmem] at hnot
    cases hnot

/-- Lists of one and of two nodes, with a shared third one. -/
theorem getIntersectionNode_eq_shared :
    let heap := (((Heap.empty.set 0 ⟨5, some 3⟩).set 1 ⟨6, some 2⟩).set 2 ⟨7, some 3⟩).set 3
      ⟨8, none⟩
    getIntersectionNode heap (some 0) (some 1) =
      some (([0, 3] : List ℕ).find? (· ∈ ([1, 2, 3] : List ℕ))) := by
  intro heap
  have h1 : IsList heap (some 0) [(0, 5), (3, 8)] := ⟨rfl, rfl, rfl, trivial⟩
  have h2 : IsList heap (some 1) [(1, 6), (2, 7), (3, 8)] := ⟨rfl, rfl, rfl, rfl, trivial⟩
  exact getIntersectionNode_eq h1 h2

end CppLearn.Leetcode.IntersectionOfTwoLists
