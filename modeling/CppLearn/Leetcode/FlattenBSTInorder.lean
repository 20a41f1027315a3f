import CppLearn.Leetcode.BinaryTreeToList

/-!
# Flattening a binary tree in order

`increasingBST` links the nodes of a tree in order by their right pointers, and writes null to the
left ones. A node gets between the chain of its left subtree, whose last node then points to it, and
that of its right one.
-/

set_option autoImplicit false
set_option relaxedAutoImplicit false

namespace CppLearn.Leetcode.FlattenBSTInorder

open Foundation
open Foundation.NodeHeap
open Foundation.HeapList (headOf)
open Foundation.HeapTree hiding addresses_nil
open BinaryTreeToList (setLeft setRight Chain lastOf chain_append lastOf_cons lastOf_append)

/-! ### The program -/

/-- What `flatten` does about the right subtree around its call: the tail. -/
def flattenRight (call : Heap (TreeNode ℤ) → Ptr → Option (Ptr × Ptr × Heap (TreeNode ℤ)))
    (heap : Heap (TreeNode ℤ)) (root : Ptr) : Option (Ptr × Heap (TreeNode ℤ)) := do
  let node ← heap.load root
  if node.right ≠ none then do
    let (first, second, heap) ← call heap node.right
    let heap ← setRight heap root first
    some (second, heap)
  else some (root, heap)

/-- And about the left one: the head. -/
def flattenLeft (call : Heap (TreeNode ℤ) → Ptr → Option (Ptr × Ptr × Heap (TreeNode ℤ)))
    (heap : Heap (TreeNode ℤ)) (root : Ptr) : Option (Ptr × Heap (TreeNode ℤ)) := do
  let node ← heap.load root
  if node.left ≠ none then do
    let (first, second, heap) ← call heap node.left
    let heap ← setRight heap second root
    let heap ← setLeft heap root none
    some (first, heap)
  else some (root, heap)

/-- `flatten`, with a limit on the depth of its recursion. -/
def flatten : ℕ → Heap (TreeNode ℤ) → Ptr → Option (Ptr × Ptr × Heap (TreeNode ℤ))
  | 0, _, _ => none
  | fuel + 1, heap, root => do
    let (tail, heap) ← flattenRight (flatten fuel) heap root
    let (head, heap) ← flattenLeft (flatten fuel) heap root
    some (head, tail, heap)

def increasingBST (fuel : ℕ) (heap : Heap (TreeNode ℤ)) (root : Ptr) :
    Option (Ptr × Heap (TreeNode ℤ)) :=
  if root = none then some (none, heap)
  else do
    let (head, _, heap) ← flatten fuel heap root
    some (head, heap)

/-! ### Flattening -/

/-- A call links the nodes of a tree in order, and returns the first and the last one. -/
def Flattens (call : Heap (TreeNode ℤ) → Ptr → Option (Ptr × Ptr × Heap (TreeNode ℤ)))
    (tree : PlacedTree ℤ) : Prop :=
  ∀ heap : Heap (TreeNode ℤ), Holds heap tree → ∃ heap',
    call heap (root tree) = some (headOf (inorder tree) none, lastOf (inorder tree), heap') ∧
      Chain heap' (inorder tree) none ∧ SameOff {address | address ∈ addresses tree} heap heap'

variable {heap heap' : Heap (TreeNode ℤ)} {tree left right : PlacedTree ℤ} {address : ℕ} {val : ℤ}
    {call : Heap (TreeNode ℤ) → Ptr → Option (Ptr × Ptr × Heap (TreeNode ℤ))}

theorem inorder_ne_nil (hne : tree ≠ .nil) : inorder tree ≠ [] := by
  cases tree with
  | nil => exact absurd rfl hne
  | node cell left right => exact List.append_ne_nil_of_right_ne_nil _ (List.cons_ne_nil cell _)

/-- The root is linked to the chain of the right subtree. -/
theorem flattenRight_spec (hcall : right ≠ .nil → Flattens call right)
    (hholds : Holds heap (.node (address, val) left right)) (hnot : address ∉ addresses right) :
    ∃ heap', flattenRight call heap (some address) =
        some (lastOf ((address, val) :: inorder right), heap') ∧
      heap'.node address = some ⟨val, root left, headOf (inorder right) none⟩ ∧
      Chain heap' (inorder right) none ∧
      SameOff {other | other ∈ address :: addresses right} heap heap' := by
  by_cases hnil : right = .nil
  · subst hnil
    refine ⟨heap, ?_, hholds.node_eq, trivial, .refl _ heap⟩
    rw [flattenRight, Heap.load_some, hholds.node_eq]
    rfl
  · obtain ⟨heap', hrun, hchain, hsame⟩ := hcall hnil heap hholds.rightTree
    have hnode : heap'.node address = some ⟨val, root left, root right⟩ :=
      (hsame address hnot).trans hholds.node_eq
    refine ⟨heap'.set address ⟨val, root left, headOf (inorder right) none⟩, ?_,
      Heap.set_node_self, hchain.set hnot, ?_⟩
    · rw [flattenRight, Heap.load_some, hholds.node_eq, lastOf_cons (inorder_ne_nil hnil)]
      simp only [Option.bind_eq_bind, Option.bind_some, if_pos (mt root_eq_none.mp hnil), hrun,
        setRight, Heap.modify_some hnode]
    · exact (hsame.mono fun other hother ↦ List.mem_cons_of_mem address hother).trans
        (sameOff_set_of_mem List.mem_cons_self heap' _)

/-- The chain of the left subtree is put in front of the root. -/
theorem flattenLeft_spec (hcall : left ≠ .nil → Flattens call left) (hholds : Holds heap left)
    (hnode : heap.node address = some ⟨val, root left, headOf (inorder right) none⟩)
    (hrights : Chain heap (inorder right) none)
    (hnodup : (addresses (.node (address, val) left right)).Nodup) :
    ∃ heap', flattenLeft call heap (some address) =
        some (headOf (inorder (.node (address, val) left right)) none, heap') ∧
      Chain heap' (inorder (.node (address, val) left right)) none ∧
      SameOff {other | other ∈ addresses (.node (address, val) left right)} heap heap' := by
  by_cases hnil : left = .nil
  · subst hnil
    refine ⟨heap, ?_, ⟨hnode, hrights⟩, .refl _ heap⟩
    rw [flattenLeft, Heap.load_some, hnode]
    rfl
  · obtain ⟨-, -, hnotLeft, hnotRight, hdisjoint⟩ := nodup_addresses_node.mp hnodup
    have hnodupLeft : (addresses left).Nodup := (nodup_addresses_node.mp hnodup).1
    obtain ⟨heap1, hrun, hlefts, hsame⟩ := hcall hnil heap hholds
    obtain ⟨front, ⟨last, lastVal⟩, hsplit⟩ :=
      (List.eq_nil_or_concat' (inorder left)).resolve_left (inorder_ne_nil hnil)
    have hlastMem : last ∈ addresses left := by
      rw [addresses, hsplit]
      simp
    have hlastFront : last ∉ HeapList.addresses front := by
      rw [addresses, hsplit, List.map_append, List.nodup_append'] at hnodupLeft
      exact fun hmem ↦ hnodupLeft.2.2 hmem List.mem_cons_self
    have hne : address ≠ last := fun heq ↦ hnotLeft (heq ▸ hlastMem)
    rw [hsplit] at hlefts hrun
    have hlast : heap1.node last = some ⟨lastVal, none, none⟩ := (chain_append.mp hlefts).2.1
    have hlefts2 := hlefts.redirect hlastFront (some address)
    have hnode2 : (heap1.set last ⟨lastVal, none, some address⟩).node address =
        some ⟨val, root left, headOf (inorder right) none⟩ := by
      rw [Heap.set_node_of_ne hne, hsame address hnotLeft, hnode]
    have hrights2 : Chain (heap1.set last ⟨lastVal, none, some address⟩) (inorder right) none :=
      (hrights.frame hsame fun other hother hmem ↦ hdisjoint hmem hother).set fun hmem ↦
        hdisjoint hlastMem hmem
    refine ⟨(heap1.set last ⟨lastVal, none, some address⟩).set address
      ⟨val, none, headOf (inorder right) none⟩, ?_, ?_, ?_⟩
    · have hlastOf : lastOf (front ++ [(last, lastVal)]) = some last :=
        lastOf_append (List.cons_ne_nil (last, lastVal) [])
      rw [flattenLeft, Heap.load_some, hnode]
      simp only [Option.bind_eq_bind, Option.bind_some, if_pos (mt root_eq_none.mp hnil), hrun,
        hlastOf, setRight, setLeft, Heap.modify_some hlast, Heap.modify_some hnode2]
      rw [inorder_node, hsplit, HeapList.headOf_append, HeapList.headOf_append,
        HeapList.headOf_append]
      rfl
    · rw [inorder_node, chain_append, hsplit]
      exact ⟨hlefts2.set (hsplit ▸ hnotLeft), Heap.set_node_self, hrights2.set hnotRight⟩
    · have hleftOf {other : ℕ} (hother : other ∈ addresses left) :
          other ∈ addresses (.node (address, val) left right) :=
        mem_addresses_node.mpr (Or.inr (Or.inl hother))
      exact ((hsame.mono fun other hother ↦ hleftOf hother).trans
        (sameOff_set_of_mem (hleftOf hlastMem) heap1 _)).trans
          (sameOff_set_of_mem (mem_addresses_node.mpr (Or.inl rfl)) _ _)

theorem flatten_flattens {fuel : ℕ} (hnodup : (addresses tree).Nodup) (hne : tree ≠ .nil)
    (hfuel : tree.numNodes < fuel) : Flattens (flatten fuel) tree := by
  induction tree generalizing fuel with
  | nil => exact absurd rfl hne
  | node cell left right ihLeft ihRight =>
    intro heap hholds
    obtain ⟨address, val⟩ := cell
    obtain ⟨fuel, rfl⟩ := Nat.exists_eq_succ_of_ne_zero (Nat.ne_zero_of_lt hfuel)
    rw [BinaryTree.numNodes] at hfuel
    obtain ⟨hnodupLeft, hnodupRight, hnotLeft, hnotRight, hdisjoint⟩ :=
      nodup_addresses_node.mp hnodup
    obtain ⟨heap1, hright, hnode, hrights, hsame1⟩ := flattenRight_spec
      (fun hnil ↦ ihRight hnodupRight hnil (by omega : right.numNodes < fuel)) hholds hnotRight
    have hleft : Holds heap1 left := hholds.leftTree.frame hsame1 fun other hother hmem ↦ by
      rcases List.mem_cons.mp hmem with rfl | hmem
      · exact hnotLeft hother
      · exact hdisjoint hother hmem
    obtain ⟨heap', hrun, hchain, hsame⟩ := flattenLeft_spec
      (fun hnil ↦ ihLeft hnodupLeft hnil (by omega : left.numNodes < fuel)) hleft hnode hrights
      hnodup
    refine ⟨heap', ?_, hchain, (hsame1.mono fun other hother ↦ ?_).trans hsame⟩
    · have hlast : lastOf (inorder (.node (address, val) left right)) =
          lastOf ((address, val) :: inorder right) :=
        lastOf_append (List.cons_ne_nil (address, val) _)
      rw [hlast, flatten, root_node]
      simp only [Option.bind_eq_bind, Option.bind_some, hright, hrun]
    · rcases List.mem_cons.mp hother with rfl | hother
      · exact mem_addresses_node.mpr (Or.inl rfl)
      · exact mem_addresses_node.mpr (Or.inr (Or.inr hother))

/-- The nodes of a tree become a chain in order, and all other nodes stay as they are. -/
theorem increasingBST_chain {fuel : ℕ} (hholds : Holds heap tree)
    (hnodup : (addresses tree).Nodup) (hfuel : tree.numNodes < fuel) :
    ∃ heap', increasingBST fuel heap (root tree) =
        some (headOf (inorder tree) none, heap') ∧ Chain heap' (inorder tree) none ∧
      SameOff {address | address ∈ addresses tree} heap heap' := by
  by_cases hnil : tree = .nil
  · subst hnil
    exact ⟨heap, rfl, trivial, .refl _ heap⟩
  · obtain ⟨heap', hrun, hchain, hsame⟩ := flatten_flattens hnodup hnil hfuel heap hholds
    refine ⟨heap', ?_, hchain, hsame⟩
    rw [increasingBST, if_neg (mt root_eq_none.mp hnil), hrun]
    rfl

/-- A root with both children. -/
theorem increasingBST_chain_three :
    let heap := ((Heap.empty.set 0 ⟨2, some 1, some 2⟩).set 1 ⟨1, none, none⟩).set 2 ⟨3, none, none⟩
    ∃ heap', increasingBST 4 heap (some 0) =
        some (headOf [(1, 1), (0, 2), (2, 3)] none, heap') ∧
      Chain heap' [(1, 1), (0, 2), (2, 3)] none ∧
      SameOff {address | address ∈ [1, 0, 2]} heap heap' := by
  intro heap
  have hholds : Holds heap (.node (0, 2) (.node (1, 1) .nil .nil) (.node (2, 3) .nil .nil)) :=
    ⟨rfl, ⟨rfl, trivial, trivial⟩, rfl, trivial, trivial⟩
  exact increasingBST_chain hholds (by decide) (by decide)

end CppLearn.Leetcode.FlattenBSTInorder
