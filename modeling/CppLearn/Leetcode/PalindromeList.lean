import CppLearn.Leetcode.SortList

/-!
# Palindromes

`isPalindrome` turns round the first half of a list while a fast pointer goes over it, and compares
what it has turned round with the second half. Where the fast pointer stops tells whether there is a
node between the halves. The list is left turned round.
-/

set_option autoImplicit false
set_option relaxedAutoImplicit false

namespace CppLearn.Leetcode.PalindromeList

open Foundation.HeapList Foundation.NodeHeap
open SortList (isShort isShort_eq canMove)

/-! ### The program -/

/-- `l1 != nullptr && l2 != nullptr && l1->val == l2->val`. -/
def areSame (heap : Heap (ListNode ℤ)) (l1 l2 : Ptr) : Option Bool :=
  if l1 = none then some false
  else if l2 = none then some false
  else do
    let node1 ← heap.load l1
    let node2 ← heap.load l2
    return node1.val = node2.val

/-- The loop of `isSameList`, with a limit on its rounds. -/
def sameLoop (heap : Heap (ListNode ℤ)) : ℕ → Ptr → Ptr → Option (Ptr × Ptr)
  | 0, _, _ => none
  | fuel + 1, l1, l2 => do
    let same ← areSame heap l1 l2
    if same then do
      let l1 ← nextOf heap l1
      let l2 ← nextOf heap l2
      sameLoop heap fuel l1 l2
    else return (l1, l2)

def isSameList (heap : Heap (ListNode ℤ)) (l1 l2 : Ptr) : Option Bool := do
  let (l1, l2) ← sameLoop heap (heap.bound + 1) l1 l2
  return l1 = none && l2 = none

/-- The loop of `isPalindrome`, with a limit on its rounds. -/
def turnLoop : ℕ → Heap (ListNode ℤ) → Ptr → Ptr → Ptr →
    Option (Ptr × Ptr × Ptr × Heap (ListNode ℤ))
  | 0, _, _, _, _ => none
  | fuel + 1, heap, cur, post, fast => do
    let more ← canMove heap fast
    if more then do
      let next ← nextOf heap fast
      let fast ← nextOf heap next
      let (cur, post, heap) ← turn heap cur post
      turnLoop fuel heap cur post fast
    else return (cur, post, fast, heap)

/-- `fast == nullptr ? post : post->next`. -/
def secondHalf (heap : Heap (ListNode ℤ)) (fast post : Ptr) : Option Ptr :=
  if fast = none then some post else nextOf heap post

def isPalindrome (heap : Heap (ListNode ℤ)) (head : Ptr) : Option (Bool × Heap (ListNode ℤ)) := do
  let short ← isShort heap head
  if short then return (true, heap)
  else
    let (cur, post, fast, heap) ← turnLoop (heap.bound + 1) heap none head head
    let post ← secondHalf heap fast post
    let same ← isSameList heap cur post
    return (same, heap)

/-! ### Comparing two lists -/

variable {heap : Heap (ListNode ℤ)} {head : Ptr} {cells xs ys : Cells ℤ}

/-- The pointers go on as long as the values are the same. -/
theorem sameLoop_spec {fuel : ℕ} (hxs : Segment heap xs none) (hys : Segment heap ys none)
    (hfuel : xs.length < fuel) :
    ∃ l1 l2, sameLoop heap fuel (headOf xs none) (headOf ys none) = some (l1, l2) ∧
      (l1 = none ∧ l2 = none ↔ vals xs = vals ys) := by
  induction xs generalizing ys fuel with
  | nil =>
    obtain ⟨fuel, rfl⟩ := Nat.exists_eq_succ_of_ne_zero (Nat.ne_of_gt hfuel)
    refine ⟨none, headOf ys none, rfl, ?_⟩
    rw [and_iff_right rfl, headOf_eq_none, vals_nil, eq_comm (a := []), vals, List.map_eq_nil_iff]
  | cons cell xs ih =>
    obtain ⟨fuel, rfl⟩ := Nat.exists_eq_succ_of_ne_zero (Nat.ne_of_gt (Nat.zero_lt_of_lt hfuel))
    obtain ⟨first, x⟩ := cell
    cases ys with
    | nil =>
      refine ⟨some first, none, rfl, ?_⟩
      simp
    | cons cell ys =>
      obtain ⟨second, y⟩ := cell
      by_cases heq : x = y
      · obtain ⟨l1, l2, hloop, hiff⟩ := ih hxs.2 hys.2 (Nat.lt_of_succ_lt_succ hfuel)
        refine ⟨l1, l2, ?_, ?_⟩
        · simp [sameLoop, areSame, hxs.1, hys.1, nextOf, heq, hloop]
        · rw [hiff, vals_cons, vals_cons, heq, List.cons_inj_right]
      · refine ⟨some first, some second, ?_, ?_⟩
        · simp [sameLoop, areSame, hxs.1, hys.1, heq]
        · simp [heq]

theorem isSameList_eq (hxs : Segment heap xs none) (hys : Segment heap ys none) :
    isSameList heap (headOf xs none) (headOf ys none) = some (decide (vals xs = vals ys)) := by
  obtain ⟨l1, l2, hloop, hiff⟩ :=
    sameLoop_spec hxs hys (Nat.lt_succ_of_le (hxs.length_le hxs.nodup))
  rw [isSameList, hloop]
  simp [← hiff]

/-! ### Turning round the first half -/

/-- What the fast pointer has not seen yet has not been turned round either. -/
theorem suffix_of_two {α : Type*} {first second head : α} {run todo : List α}
    (h : first :: second :: run <:+ head :: todo) : run <:+ todo := by
  rcases List.suffix_cons_iff.mp h with heq | hsuffix
  · exact (List.cons.inj heq).2 ▸ List.suffix_cons second run
  · exact ((List.suffix_cons second run).trans (List.suffix_cons first _)).trans hsuffix

/-- While the fast pointer goes to the end, half as many nodes go to the front of the other list. It
is null at the end if the number of nodes before it was even. -/
theorem turnLoop_spec {fuel : ℕ} {done front rest run : Cells ℤ} (hdone : Segment heap done none)
    (htodo : Segment heap (front ++ rest) none)
    (hdisjoint : (addresses (front ++ rest)).Disjoint (addresses done))
    (hrun : run <:+ front ++ rest) (hlength : run.length / 2 = front.length)
    (hfuel : front.length < fuel) :
    ∃ heap' fast, turnLoop fuel heap (headOf done none) (headOf (front ++ rest) none)
      (headOf run none) =
        some (headOf (front.reverse ++ done) none, headOf rest none, fast, heap') ∧
      (fast = none ↔ run.length % 2 = 0) ∧ Segment heap' (front.reverse ++ done) none ∧
      Segment heap' rest none ∧ SameOff {address | address ∈ addresses front} heap heap' := by
  induction front generalizing heap done run fuel with
  | nil =>
    obtain ⟨fuel, rfl⟩ := Nat.exists_eq_succ_of_ne_zero (Nat.ne_of_gt hfuel)
    rcases run with _ | ⟨⟨address, val⟩, _ | ⟨second, run⟩⟩
    · exact ⟨heap, none, rfl, by simp, hdone, htodo, .refl _ heap⟩
    · obtain ⟨lead, hlead⟩ := hrun
      rw [← hlead] at htodo
      have hnode : Segment heap [(address, val)] none := (segment_append.mp htodo).2
      rw [hlead] at htodo
      refine ⟨heap, some address, ?_, by simp, hdone, htodo, .refl _ heap⟩
      simp [turnLoop, canMove, nextOf_some hnode.1]
    · rw [List.length_cons, List.length_cons, List.length_nil] at hlength
      omega
  | cons cell front ih =>
    obtain ⟨fuel, rfl⟩ := Nat.exists_eq_succ_of_ne_zero (Nat.ne_of_gt (Nat.zero_lt_of_lt hfuel))
    obtain ⟨address, val⟩ := cell
    rcases run with _ | ⟨⟨first, x⟩, _ | ⟨⟨second, y⟩, run⟩⟩
    · cases hlength
    · rw [List.length_singleton, List.length_cons] at hlength
      omega
    · obtain ⟨lead, hlead⟩ := id hrun
      have hfast : Segment heap ((first, x) :: (second, y) :: run) none := by
        rw [← hlead] at htodo
        exact (segment_append.mp htodo).2
      rw [List.cons_append, addresses_cons, List.disjoint_cons_left] at hdisjoint
      rw [List.length_cons, List.length_cons, List.length_cons] at hlength
      obtain ⟨heap1, hturn, hdone1, htodo1, hsame⟩ := hdone.turn htodo hdisjoint.1
      obtain ⟨heap', fast, hloop, hfastEnd, hdone', hrest, hsame'⟩ := ih hdone1 htodo1
        (List.disjoint_cons_right.mpr ⟨(List.nodup_cons.mp htodo.nodup).1, hdisjoint.2⟩)
        (suffix_of_two hrun) (by omega) (Nat.lt_of_succ_lt_succ hfuel)
      rw [List.reverse_cons, List.append_assoc, List.singleton_append]
      refine ⟨heap', fast, ?_, ?_, hdone', hrest, ?_⟩
      · rw [turnLoop, canMove, if_neg headOf_cons_ne_none, hfast.nextOf]
        simp only [Option.bind_eq_bind, Option.bind_some, Option.pure_def, headOf_cons, ne_eq,
          reduceCtorEq, not_false_eq_true, decide_true, if_true, nextOf_some hfast.2.1,
          List.cons_append, hturn]
        exact hloop
      · rw [hfastEnd, List.length_cons, List.length_cons, Nat.add_assoc, Nat.add_mod_right]
      · have hsame1 : SameOff {place | place ∈ addresses ((address, val) :: front)} heap heap1 :=
          hsame.mono (Set.singleton_subset_iff.mpr List.mem_cons_self)
        exact hsame1.trans (hsame'.mono fun _ ↦ List.mem_cons_of_mem address)

/-! ### The test -/

/-- A sequence is its reverse if its second half is the reverse of the first one. -/
theorem eq_reverse_iff {α : Type*} {front middle back : List α} (hmiddle : middle.length ≤ 1)
    (hlength : front.length = back.length) :
    front ++ (middle ++ back) = (front ++ (middle ++ back)).reverse ↔ front.reverse = back := by
  have hself : middle.reverse = middle := by
    match middle, hmiddle with
    | [], _ => rfl
    | [_], _ => rfl
  rw [List.reverse_append, List.reverse_append, hself, List.append_assoc]
  constructor
  · intro heq
    obtain ⟨hfront, -⟩ := List.append_inj heq (by rw [hlength, List.length_reverse])
    rw [hfront, List.reverse_reverse]
  · rintro rfl
    rw [List.reverse_reverse]

/-- A list is a first half, a middle node or none, and a second half. -/
theorem exists_halves {α : Type*} (elems : List α) :
    ∃ front middle back, elems = front ++ (middle ++ back) ∧ front.length = back.length ∧
      elems.length / 2 = front.length ∧ middle.length = elems.length % 2 := by
  refine ⟨elems.take (elems.length / 2),
    (elems.drop (elems.length / 2)).take (elems.length % 2),
    (elems.drop (elems.length / 2)).drop (elems.length % 2), ?_, ?_, ?_, ?_⟩
  · rw [List.take_append_drop, List.take_append_drop]
  all_goals
    simp only [List.length_take, List.length_drop]
    omega

/-- The second half begins behind the node where the turning round ended if the fast pointer is not
null. -/
theorem secondHalf_eq {fast : Ptr} {middle back : Cells ℤ} (h : Segment heap (middle ++ back) none)
    (hmiddle : middle.length ≤ 1) (hfast : fast = none ↔ middle.length = 0) :
    secondHalf heap fast (headOf (middle ++ back) none) = some (headOf back none) := by
  match middle, hmiddle with
  | [], _ => rw [secondHalf, if_pos (hfast.mpr rfl), List.nil_append]
  | [cell], _ =>
    rw [secondHalf, if_neg fun hnull ↦ Nat.one_ne_zero (hfast.mp hnull)]
    exact h.nextOf

/-- The test is whether the values are the same from both ends, and it writes to the nodes of the
list only. -/
theorem isPalindrome_eq (h : IsList heap head cells) :
    ∃ heap', isPalindrome heap head =
      some (decide (vals cells = (vals cells).reverse), heap') ∧
      SameOff {address | address ∈ addresses cells} heap heap' := by
  rw [isPalindrome, isShort_eq h]
  by_cases hshort : cells.length ≤ 1
  · have hself : vals cells = (vals cells).reverse := by
      match cells, hshort with
      | [], _ => rfl
      | [_], _ => rfl
    refine ⟨heap, ?_, .refl _ heap⟩
    rw [decide_eq_true hshort, decide_eq_true hself]
    rfl
  · obtain ⟨rfl, hsegment⟩ := h
    obtain ⟨front, middle, back, hsplit, hlength, hfront, hmiddle⟩ := exists_halves cells
    have hsegment' : Segment heap (front ++ (middle ++ back)) none := hsplit ▸ hsegment
    have hle := hsegment.length_le hsegment.nodup
    obtain ⟨heap', fast, hloop, hfast, hturned, hrest, hsame⟩ := turnLoop_spec segment_nil
      hsegment' (List.disjoint_nil_right _) (hsplit ▸ List.suffix_refl cells) hfront
      (show front.length < heap.bound + 1 by omega)
    rw [List.append_nil] at hloop hturned
    rw [← hsplit, headOf_nil] at hloop
    have hone : middle.length ≤ 1 := by omega
    rw [← hmiddle] at hfast
    have hiff : vals front.reverse = vals back ↔ vals cells = (vals cells).reverse := by
      have hreverse : vals front.reverse = (vals front).reverse := List.map_reverse
      rw [hsplit, vals_append, vals_append, eq_reverse_iff (by rwa [vals, List.length_map])
        (by rw [vals, vals, List.length_map, List.length_map, hlength]), hreverse]
    refine ⟨heap', ?_, hsame.mono fun address hmem ↦ ?_⟩
    · rw [decide_eq_false hshort]
      simp only [Option.bind_eq_bind, Option.bind_some, Bool.false_eq_true, if_false, hloop,
        secondHalf_eq hrest hone hfast, isSameList_eq hturned (segment_append.mp hrest).2, hiff]
      rfl
    · rw [hsplit, Set.mem_ofPred_eq, addresses_append]
      exact List.mem_append_left _ hmem

/-- A list of three nodes. -/
theorem isPalindrome_three :
    let heap := ((Heap.empty.set 0 ⟨5, some 1⟩).set 1 ⟨6, some 2⟩).set 2 ⟨5, none⟩
    ∃ heap', isPalindrome heap (some 0) = some (true, heap') ∧
      SameOff {address | address ∈ [0, 1, 2]} heap heap' := by
  intro heap
  have h : IsList heap (some 0) [(0, 5), (1, 6), (2, 5)] := ⟨rfl, rfl, rfl, rfl, trivial⟩
  exact isPalindrome_eq h

end CppLearn.Leetcode.PalindromeList
