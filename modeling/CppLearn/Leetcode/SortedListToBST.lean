import CppLearn.Foundation.HeapList
import CppLearn.Foundation.HeapTree
import CppLearn.Leetcode.BinaryTreeToList
import Mathlib.Data.Nat.Size

/-!
# A balanced tree from a list

`sortedListToBST` makes the tree of a part of a list from its node in the middle, to which a second
pointer that goes twice as fast leads, and from the parts on both sides of it. The parts end at a
pointer, which is null only for the last one.
-/

set_option autoImplicit false
set_option relaxedAutoImplicit false

namespace CppLearn.Leetcode.SortedListToBST

open Foundation.NodeHeap
open Foundation.HeapList hiding addresses addresses_nil
open Foundation.HeapTree
open BinaryTreeToList (setLeft setRight)

/-! ### The program -/

section Program

variable (lists : Heap (ListNode ℤ)) (alloc : Allocator (TreeNode ℤ))

/-- The loop of `sortedListToBSTImpl`, with a limit on its rounds. -/
def scan (tail : Ptr) : ℕ → Ptr → Ptr → Option Ptr
  | 0, _, _ => none
  | fuel + 1, mid, fast =>
    if fast ≠ tail then do
      let fastNext ← nextOf lists fast
      if fastNext ≠ tail then do
        let mid ← nextOf lists mid
        let fast ← nextOf lists fastNext
        scan tail fuel mid fast
      else some mid
    else some mid

/-- `sortedListToBSTImpl`, with a limit on the depth of its recursion. -/
def sortedListToBSTImpl :
    ℕ → Heap (TreeNode ℤ) → Ptr → Ptr → Option (Ptr × Heap (TreeNode ℤ))
  | 0, _, _, _ => none
  | fuel + 1, heap, head, tail =>
    if head = tail then some (none, heap)
    else do
      let node ← lists.load head
      if node.next = tail then
        let (root, heap) := alloc.new heap ⟨node.val, none, none⟩
        some (some root, heap)
      else do
        let mid ← scan lists tail (fuel + 1) head head
        let node ← lists.load mid
        let (root, heap) := alloc.new heap ⟨node.val, none, none⟩
        let (left, heap) ← sortedListToBSTImpl fuel heap head mid
        let heap ← setLeft heap (some root) left
        let next ← nextOf lists mid
        let (right, heap) ← sortedListToBSTImpl fuel heap next tail
        let heap ← setRight heap (some root) right
        some (some root, heap)

def sortedListToBST (fuel : ℕ) (heap : Heap (TreeNode ℤ)) (head : Ptr) :
    Option (Ptr × Heap (TreeNode ℤ)) :=
  sortedListToBSTImpl lists alloc fuel heap head none

end Program

variable {lists : Heap (ListNode ℤ)} {part rest slow fast : Cells ℤ} {fuel : ℕ}

/-! ### The middle -/

/-- A part that is not empty begins before the rest. -/
theorem headOf_ne_tail (hlist : Segment lists (part ++ rest) none) (hne : part ≠ []) :
    headOf (part ++ rest) none ≠ headOf rest none := by
  have hnodup := hlist.nodup
  cases part with
  | nil => exact absurd rfl hne
  | cons cell part =>
    obtain ⟨address, val⟩ := cell
    cases rest with
    | nil => exact Option.some_ne_none address
    | cons other rest =>
      obtain ⟨otherAddress, otherVal⟩ := other
      rintro heq
      obtain rfl : address = otherAddress := Option.some.inj heq
      rw [List.cons_append, Foundation.HeapList.addresses_cons, addresses_append,
        List.nodup_cons] at hnodup
      exact hnodup.1 (List.mem_append_right _ List.mem_cons_self)

theorem nextOf_part {cell : ℕ × ℤ} (hlist : Segment lists (cell :: part ++ rest) none) :
    nextOf lists (headOf (cell :: part ++ rest) none) = some (headOf (part ++ rest) none) :=
  Segment.nextOf hlist

/-- The slow pointer goes half as far as the fast one does. -/
theorem scan_spec (hslow : Segment lists (slow ++ rest) none)
    (hfast : Segment lists (fast ++ rest) none) (hle : fast.length ≤ slow.length)
    (hfuel : fast.length < fuel) :
    scan lists (headOf rest none) fuel (headOf (slow ++ rest) none) (headOf (fast ++ rest) none) =
      some (headOf (slow.drop (fast.length / 2) ++ rest) none) := by
  induction fuel generalizing slow fast with
  | zero => cases hfuel
  | succ fuel ih =>
    rw [scan]
    match fast with
    | [] =>
      rw [List.nil_append, if_neg (not_not.mpr rfl)]
      rfl
    | [cell] =>
      have hhalf : [cell].length / 2 = 0 := Nat.div_eq_of_lt (Nat.lt_succ_self 1)
      rw [if_pos (headOf_ne_tail hfast (List.cons_ne_nil cell [])), nextOf_part hfast,
        Option.bind_eq_bind, Option.bind_some, List.nil_append, if_neg (not_not.mpr rfl), hhalf,
        List.drop_zero]
    | cell :: second :: fast =>
      cases slow with
      | nil => cases hle
      | cons first slow =>
        have hrest : Segment lists (second :: fast ++ rest) none := hfast.2
        have hnext := ih hslow.2 hrest.2 (by simp only [List.length_cons] at hle; omega)
          (by simp only [List.length_cons] at hfuel; omega)
        have hhalf : (cell :: second :: fast).length / 2 = fast.length / 2 + 1 := by
          rw [List.length_cons, List.length_cons]
          omega
        rw [if_pos (headOf_ne_tail hfast (List.cons_ne_nil cell _)), nextOf_part hfast,
          Option.bind_eq_bind, Option.bind_some,
          if_pos (headOf_ne_tail hrest (List.cons_ne_nil second fast)), nextOf_part hslow,
          Option.bind_some, nextOf_part hrest, Option.bind_some]
        rw [hhalf, List.drop_succ_cons]
        exact hnext

/-! ### The tree -/

/-- The subtrees of every node differ by one in their depths, at most. -/
def Balanced : BinaryTree ℤ → Prop
  | .nil => True
  | .node _ left right =>
    left.height ≤ right.height + 1 ∧ right.height ≤ left.height + 1 ∧ Balanced left ∧
      Balanced right

theorem size_half {n : ℕ} (hn : n ≠ 0) : Nat.size n = Nat.size (n / 2) + 1 := by
  have hbit : Nat.bit n.bodd n.div2 = n := Nat.bit_bodd_div2 n
  rw [← Nat.div2_val, ← Nat.succ_eq_add_one, ← Nat.size_bit (hbit ▸ hn), hbit]

theorem size_le_succ (n : ℕ) : Nat.size (n + 1) ≤ Nat.size n + 1 := by
  have hlt := Nat.lt_size_self n
  rw [Nat.size_le, Nat.pow_succ]
  omega

/-- A tree of so many nodes has the least height. -/
structure Shaped (tree : BinaryTree ℤ) (vals : List ℤ) : Prop where
  inorder_eq : inorder tree = vals
  height_eq : tree.height = Nat.size vals.length
  balanced : Balanced tree

theorem shaped_nil : Shaped .nil [] := ⟨rfl, rfl, trivial⟩

/-- Two trees of the halves of a list, and its middle. -/
theorem Shaped.node {left right : BinaryTree ℤ} {front back : List ℤ} (hleft : Shaped left front)
    (hright : Shaped right back) (hlength : front.length = (front.length + back.length + 1) / 2)
    (val : ℤ) : Shaped (.node val left right) (front ++ val :: back) := by
  have htotal : (front ++ val :: back).length = front.length + back.length + 1 := by
    rw [List.length_append, List.length_cons, Nat.add_assoc]
  have hsize : Nat.size (front ++ val :: back).length = Nat.size front.length + 1 := by
    rw [htotal, size_half (Nat.succ_ne_zero _), ← hlength]
  have hle : Nat.size back.length ≤ Nat.size front.length := Nat.size_le_size (by omega)
  have hge : Nat.size front.length ≤ Nat.size back.length + 1 :=
    (Nat.size_le_size (by omega : front.length ≤ back.length + 1)).trans (size_le_succ _)
  refine ⟨?_, ?_, ?_, ?_, hleft.balanced, hright.balanced⟩
  · rw [inorder_node, hleft.inorder_eq, hright.inorder_eq]
  · rw [BinaryTree.height, hleft.height_eq, hright.height_eq, Nat.max_eq_left hle, hsize]
  · rwa [hleft.height_eq, hright.height_eq]
  · rw [hleft.height_eq, hright.height_eq]
    exact hle.trans (Nat.le_succ _)

/-- A part of two nodes or more is cut in the middle. -/
theorem exists_middle (part : Cells ℤ) (hne : part ≠ []) :
    ∃ front address val back, part = front ++ (address, val) :: back ∧
      part.drop (part.length / 2) = (address, val) :: back ∧ front.length = part.length / 2 := by
  have hpos := List.length_pos_iff.mpr hne
  have hlt : part.length / 2 < part.length := Nat.div_lt_self hpos (Nat.lt_succ_self 1)
  obtain ⟨⟨address, val⟩, back, hback⟩ := List.exists_cons_of_ne_nil
    (mt List.drop_eq_nil_iff.mp hlt.not_ge)
  refine ⟨part.take (part.length / 2), address, val, back, ?_, hback, ?_⟩
  · rw [← hback, List.take_append_drop]
  · rw [List.length_take, Nat.min_eq_left hlt.le]

/-- The tree of a part is made of new nodes. -/
theorem sortedListToBSTImpl_spec (alloc : Allocator (TreeNode ℤ))
    (hlist : Segment lists (part ++ rest) none) (hfuel : part.length < fuel)
    (heap : Heap (TreeNode ℤ)) :
    ∃ placed heap', sortedListToBSTImpl lists alloc fuel heap (headOf (part ++ rest) none)
        (headOf rest none) = some (root placed, heap') ∧ Planted heap placed heap' ∧
      Shaped (contents placed) (vals part) := by
  induction fuel generalizing part rest heap with
  | zero => cases hfuel
  | succ fuel ih =>
    match part with
    | [] =>
      refine ⟨.nil, heap, ?_, planted_nil heap, shaped_nil⟩
      rw [sortedListToBSTImpl, List.nil_append, if_pos rfl]
      rfl
    | [(address, val)] =>
      obtain ⟨fresh, hfresh, hfree⟩ := alloc.exists_address heap
      refine ⟨.node (fresh, val) .nil .nil, _, ?_,
        (planted_nil heap).above (planted_nil heap) (.refl heap) hfree val, ?_⟩
      · rw [sortedListToBSTImpl, if_neg (headOf_ne_tail hlist (List.cons_ne_nil _ []))]
        have hnode : lists.load (headOf ([(address, val)] ++ rest) none) =
            some ⟨val, headOf rest none⟩ := hlist.1
        simp only [hnode, Option.bind_eq_bind, Option.bind_some, if_true, Allocator.new, hfresh,
          root_node, root_nil]
      · exact shaped_nil.node shaped_nil rfl val
    | cell :: second :: more =>
      obtain ⟨front, address, val, back, hpart, hdrop, hhalf⟩ :=
        exists_middle (cell :: second :: more) (List.cons_ne_nil cell _)
      have hscan := scan_spec hlist hlist le_rfl hfuel
      have hnode : lists.load (headOf (cell :: second :: more ++ rest) none) =
          some ⟨cell.2, headOf (second :: more ++ rest) none⟩ := hlist.1
      have hsecond : Segment lists (second :: more ++ rest) none := hlist.2
      have hlong : 2 ≤ (cell :: second :: more).length := Nat.le_add_left 2 more.length
      rw [hdrop] at hscan
      generalize cell :: second :: more = part at *
      subst hpart
      have hlength : (front ++ (address, val) :: back).length =
          front.length + (back.length + 1) := by
        rw [List.length_append, List.length_cons]
      have hmid : Segment lists ((address, val) :: back ++ rest) none :=
        (segment_append.mp (List.append_assoc .. ▸ hlist)).2
      have hback : nextOf lists (some address) = some (headOf (back ++ rest) none) :=
        nextOf_part hmid
      have hmidNode : lists.load (some address) = some ⟨val, headOf (back ++ rest) none⟩ := hmid.1
      obtain ⟨fresh, hfresh, hfree⟩ := alloc.exists_address heap
      obtain ⟨leftTree, leftHeap, hleft, hleftPlanted, hleftShaped⟩ :=
        @ih front ((address, val) :: back ++ rest) (by rwa [← List.append_assoc]) (by omega)
          (heap.set fresh ⟨val, none, none⟩)
      obtain ⟨rightTree, rightHeap, hright, hrightPlanted, hrightShaped⟩ :=
        @ih back rest hmid.2 (by omega) (leftHeap.set fresh ⟨val, root leftTree, none⟩)
      have hleftNode : leftHeap.node fresh = some ⟨val, none, none⟩ :=
        hleftPlanted.old.node_eq Heap.set_node_self
      have hrightNode : rightHeap.node fresh = some ⟨val, root leftTree, none⟩ :=
        hrightPlanted.old.node_eq Heap.set_node_self
      refine ⟨.node (fresh, val) leftTree rightTree, _, ?_,
        hleftPlanted.node hfree hrightPlanted val, ?_⟩
      · have hsplit : front ++ ((address, val) :: back ++ rest) =
            front ++ (address, val) :: back ++ rest := (List.append_assoc ..).symm
        rw [hsplit] at hleft
        rw [sortedListToBSTImpl, if_neg (headOf_ne_tail hlist (List.append_ne_nil_of_right_ne_nil _
          (List.cons_ne_nil _ _))), hnode, Option.bind_eq_bind, Option.bind_some,
          if_neg (headOf_ne_tail hsecond (List.cons_ne_nil second more)), hscan]
        simp only [List.cons_append, headOf_cons] at hleft ⊢
        simp only [hmidNode, Allocator.new, hfresh, hleft, hback, hright, setLeft, setRight,
          Heap.modify_some hleftNode, Heap.modify_some hrightNode, Option.bind_eq_bind,
          Option.bind_some, root_node]
      · rw [contents_node, vals_append, vals_cons]
        have hvals : (vals front).length = ((vals front).length + (vals back).length + 1) / 2 := by
          rw [vals, vals, List.length_map, List.length_map]
          omega
        exact hleftShaped.node hrightShaped hvals val

/-- The tree of a list has the values of the list in order, and is balanced. -/
theorem sortedListToBST_spec {head : Ptr} {cells : Cells ℤ} (alloc : Allocator (TreeNode ℤ))
    (hlist : IsList lists head cells) (hfuel : cells.length < fuel) (heap : Heap (TreeNode ℤ)) :
    ∃ ptr heap' tree, sortedListToBST lists alloc fuel heap head = some (ptr, heap') ∧
      Stores heap' ptr tree ∧ inorder tree = vals cells ∧ Balanced tree := by
  obtain ⟨placed, heap', hresult, hplanted, hshaped⟩ := @sortedListToBSTImpl_spec lists cells []
    fuel alloc (by rw [List.append_nil]; exact hlist.segment) hfuel heap
  rw [List.append_nil, hlist.head_eq] at hresult
  exact ⟨root placed, heap', contents placed, hresult,
    ⟨placed, rfl, hplanted.holds, hplanted.nodup, rfl⟩, hshaped.inorder_eq, hshaped.balanced⟩

theorem sortedListToBST_spec_three :
    let lists := ((Heap.empty.set 0 ⟨1, some 1⟩).set 1 ⟨2, some 2⟩).set 2 ⟨3, none⟩
    ∃ ptr heap' tree, sortedListToBST lists .next 4 .empty (some 0) = some (ptr, heap') ∧
      Stores heap' ptr tree ∧ inorder tree = [1, 2, 3] ∧ Balanced tree := by
  intro lists
  have hlist : IsList lists (some 0) [(0, 1), (1, 2), (2, 3)] :=
    ⟨rfl, rfl, rfl, rfl, trivial⟩
  exact sortedListToBST_spec .next hlist (by decide) .empty

end CppLearn.Leetcode.SortedListToBST
