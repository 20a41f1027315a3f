import CppLearn.Foundation.NodeHeap
import Mathlib.Data.List.Nodup
import Mathlib.Data.List.Perm.Subperm
import Mathlib.Data.Tree.Basic

/-!
# Binary trees of nodes

A binary tree in a heap is one whose nodes carry their addresses: what the heap has at them is then
known (`Holds`), and which nodes are part of it is the list of its addresses in order. A tree stays
where it is while the heap changes elsewhere (`Holds.frame`).
-/

set_option autoImplicit false
set_option relaxedAutoImplicit false

namespace CppLearn.Foundation.HeapTree

open NodeHeap

universe u v

variable {α : Type u} {β : Type v}

/-- The values of a tree from the left to the right. -/
def inorder : BinaryTree α → List α
  | .nil => []
  | .node val left right => inorder left ++ val :: inorder right

@[simp] theorem inorder_nil : inorder (.nil : BinaryTree α) = [] := rfl

@[simp] theorem inorder_node (val : α) (left right : BinaryTree α) :
    inorder (.node val left right) = inorder left ++ val :: inorder right := rfl

theorem inorder_map (f : α → β) (tree : BinaryTree α) :
    inorder (tree.map f) = (inorder tree).map f := by
  induction tree with
  | nil => rfl
  | node val left right ihLeft ihRight =>
    rw [BinaryTree.map, inorder, inorder, List.map_append, List.map_cons, ihLeft, ihRight]

theorem map_congr {f g : α → β} {tree : BinaryTree α} (h : ∀ val ∈ inorder tree, f val = g val) :
    tree.map f = tree.map g := by
  induction tree with
  | nil => rfl
  | node val left right ihLeft ihRight =>
    rw [inorder_node, List.forall_mem_append, List.forall_mem_cons] at h
    obtain ⟨hleft, hval, hright⟩ := h
    rw [BinaryTree.map, BinaryTree.map, hval, ihLeft hleft, ihRight hright]

theorem length_inorder (tree : BinaryTree α) : (inorder tree).length = tree.numNodes := by
  induction tree with
  | nil => rfl
  | node val left right ihLeft ihRight =>
    rw [inorder, List.length_append, List.length_cons, ihLeft, ihRight, BinaryTree.numNodes,
      Nat.add_assoc]

/-- The tree with its left and right exchanged. -/
def mirror : BinaryTree α → BinaryTree α
  | .nil => .nil
  | .node val left right => .node val (mirror right) (mirror left)

@[simp] theorem mirror_nil : mirror (.nil : BinaryTree α) = .nil := rfl

@[simp] theorem mirror_node (val : α) (left right : BinaryTree α) :
    mirror (.node val left right) = .node val (mirror right) (mirror left) := rfl

theorem mirror_mirror (tree : BinaryTree α) : mirror (mirror tree) = tree := by
  induction tree with
  | nil => rfl
  | node val left right ihLeft ihRight => rw [mirror, mirror, ihLeft, ihRight]

/-- A tree is the mirror image of another one where the other one is that of it. -/
theorem eq_mirror_comm {tree tree' : BinaryTree α} : tree = mirror tree' ↔ tree' = mirror tree := by
  constructor
  · rintro rfl
    exact (mirror_mirror tree').symm
  · rintro rfl
    exact (mirror_mirror tree).symm

theorem numNodes_mirror (tree : BinaryTree α) : (mirror tree).numNodes = tree.numNodes := by
  induction tree with
  | nil => rfl
  | node val left right ihLeft ihRight =>
    rw [mirror, BinaryTree.numNodes, BinaryTree.numNodes, ihLeft, ihRight, Nat.add_comm]
    omega

structure TreeNode (α : Type u) where
  val : α
  left : Ptr
  right : Ptr
  deriving DecidableEq

/-- A tree whose nodes have addresses. -/
abbrev PlacedTree (α : Type u) := BinaryTree (ℕ × α)

/-- The pointer to a tree. -/
def root : PlacedTree α → Ptr
  | .nil => none
  | .node (address, _) _ _ => some address

theorem root_mirror (tree : PlacedTree α) : root (mirror tree) = root tree := by
  cases tree with
  | nil => rfl
  | node label left right => rfl

def addresses (tree : PlacedTree α) : List ℕ := (inorder tree).map Prod.fst

/-- The tree without its addresses. -/
def contents (tree : PlacedTree α) : BinaryTree α := tree.map Prod.snd

/-- The heap has the nodes of the tree. -/
def Holds (heap : Heap (TreeNode α)) : PlacedTree α → Prop
  | .nil => True
  | .node (address, val) left right =>
    heap.node address = some ⟨val, root left, root right⟩ ∧ Holds heap left ∧ Holds heap right

/-- A pointer to a tree of the given contents, all of whose nodes are different. -/
def Stores (heap : Heap (TreeNode α)) (ptr : Ptr) (tree : BinaryTree α) : Prop :=
  ∃ placed : PlacedTree α, root placed = ptr ∧ Holds heap placed ∧ (addresses placed).Nodup ∧
    contents placed = tree

variable {heap heap' : Heap (TreeNode α)} {tree left right : PlacedTree α} {address : ℕ} {val : α}

@[simp] theorem root_nil : root (.nil : PlacedTree α) = none := rfl

@[simp] theorem root_node : root (.node (address, val) left right) = some address := rfl

@[simp] theorem addresses_nil : addresses (.nil : PlacedTree α) = [] := rfl

@[simp] theorem addresses_node : addresses (.node (address, val) left right) =
    addresses left ++ address :: addresses right := by
  rw [addresses, inorder, List.map_append, List.map_cons]
  rfl

@[simp] theorem contents_nil : contents (.nil : PlacedTree α) = .nil := rfl

@[simp] theorem contents_node : contents (.node (address, val) left right) =
    .node val (contents left) (contents right) := rfl

theorem mem_addresses_node {other : ℕ} : other ∈ addresses (.node (address, val) left right) ↔
    other = address ∨ other ∈ addresses left ∨ other ∈ addresses right := by
  rw [addresses_node, List.mem_append, List.mem_cons]
  tauto

/-- The nodes of a tree are different where the root is in neither subtree and these have none in
common. -/
theorem nodup_addresses_node : (addresses (.node (address, val) left right)).Nodup ↔
    (addresses left).Nodup ∧ (addresses right).Nodup ∧ address ∉ addresses left ∧
      address ∉ addresses right ∧ (addresses left).Disjoint (addresses right) := by
  rw [addresses_node, List.nodup_middle, List.nodup_cons, List.nodup_append', List.mem_append]
  tauto

theorem root_eq_none : root tree = none ↔ tree = .nil := by
  cases tree with
  | nil => simp
  | node label left right => simp [root]

/-- A tree at an address has a root there. -/
theorem exists_of_root (hroot : root tree = some address) :
    ∃ val left right, tree = .node (address, val) left right := by
  cases tree with
  | nil => cases hroot
  | node label left right =>
    obtain ⟨other, val⟩ := label
    cases hroot
    exact ⟨val, left, right, rfl⟩

theorem Holds.node_eq (h : Holds heap (.node (address, val) left right)) :
    heap.node address = some ⟨val, root left, root right⟩ := h.1

theorem Holds.leftTree (h : Holds heap (.node (address, val) left right)) : Holds heap left := h.2.1

theorem Holds.rightTree (h : Holds heap (.node (address, val) left right)) :
    Holds heap right := h.2.2

theorem Holds.leftSide (h : Holds heap tree) : Holds heap tree.left := by
  cases tree with
  | nil => trivial
  | node cell left right => exact h.leftTree

theorem Holds.rightSide (h : Holds heap tree) : Holds heap tree.right := by
  cases tree with
  | nil => trivial
  | node cell left right => exact h.rightTree

/-- A heap has only one tree at a pointer. -/
theorem Holds.unique {tree' : PlacedTree α} (h : Holds heap tree) (h' : Holds heap tree')
    (hroot : root tree = root tree') : tree = tree' := by
  induction tree generalizing tree' with
  | nil => exact (root_eq_none.mp hroot.symm).symm
  | node cell left right ihLeft ihRight =>
    obtain ⟨address, val⟩ := cell
    obtain ⟨val', left', right', rfl⟩ := exists_of_root hroot.symm
    have hnode := Option.some.inj (h.node_eq.symm.trans h'.node_eq)
    rw [TreeNode.mk.injEq] at hnode
    obtain ⟨hval, hleft, hright⟩ := hnode
    rw [hval, ihLeft h.leftTree h'.leftTree hleft, ihRight h.rightTree h'.rightTree hright]

/-- The heap has a node at every address of a tree. -/
theorem Holds.node_ne_none (h : Holds heap tree) (hmem : address ∈ addresses tree) :
    heap.node address ≠ none := by
  induction tree with
  | nil => cases hmem
  | node label left right ihLeft ihRight =>
    obtain ⟨other, val⟩ := label
    rcases mem_addresses_node.mp hmem with rfl | hmem | hmem
    · rw [h.node_eq]
      exact Option.some_ne_none _
    · exact ihLeft h.leftTree hmem
    · exact ihRight h.rightTree hmem

/-- A tree has no more nodes than the heap has addresses. -/
theorem Holds.numNodes_le (h : Holds heap tree) (hnodup : (addresses tree).Nodup) :
    tree.numNodes ≤ heap.bound := by
  have hsubset : addresses tree ⊆ List.range heap.bound := fun other hother ↦
    List.mem_range.mpr (Heap.lt_bound (h.node_ne_none hother))
  have hle := (hnodup.subperm hsubset).length_le
  rwa [List.length_range, addresses, List.length_map, length_inorder] at hle

/-- A free address is in no tree. -/
theorem Holds.notMem (h : Holds heap tree) (hfree : heap.node address = none) :
    address ∉ addresses tree := fun hmem ↦ h.node_ne_none hmem hfree

/-- No tree has a node that is its own right child. -/
theorem Holds.right_ne (h : Holds heap tree) (hroot : root tree = some address) {node : TreeNode α}
    (hnode : heap.node address = some node) : node.right ≠ some address := by
  induction tree with
  | nil => cases hroot
  | node label left right ihLeft ihRight =>
    obtain ⟨other, val⟩ := label
    obtain rfl : other = address := Option.some.inj hroot
    obtain rfl : (⟨val, root left, root right⟩ : TreeNode α) = node :=
      Option.some.inj (h.node_eq.symm.trans hnode)
    intro hself
    exact ihRight h.rightTree hself hself

/-- A tree stays while the heap changes elsewhere. -/
theorem Holds.frame {changed : Set ℕ} (h : Holds heap tree) (hsame : SameOff changed heap heap')
    (hdisjoint : ∀ address ∈ addresses tree, address ∉ changed) : Holds heap' tree := by
  induction tree with
  | nil => trivial
  | node label left right ihLeft ihRight =>
    obtain ⟨address, val⟩ := label
    refine ⟨?_, ihLeft h.leftTree fun other hother ↦ ?_, ihRight h.rightTree fun other hother ↦ ?_⟩
    · rw [hsame address (hdisjoint address (mem_addresses_node.mpr (Or.inl rfl))), h.node_eq]
    · exact hdisjoint other (mem_addresses_node.mpr (Or.inr (Or.inl hother)))
    · exact hdisjoint other (mem_addresses_node.mpr (Or.inr (Or.inr hother)))

/-- A tree stays while nodes are added. -/
theorem Holds.extends (h : Holds heap tree) (hextends : Extends heap heap') : Holds heap' tree :=
  h.frame hextends fun _ hmem ↦ h.node_ne_none hmem

/-- A tree stays while a node is written that is not one of its own. -/
theorem Holds.set {node : TreeNode α} (h : Holds heap tree) (hnot : address ∉ addresses tree) :
    Holds (heap.set address node) tree :=
  h.frame (sameOff_set heap address node) (forall_notMem_singleton hnot)

/-- A node put above two trees. -/
theorem Holds.node (hleft : Holds heap left) (hright : Holds heap right)
    (hnotLeft : address ∉ addresses left) (hnotRight : address ∉ addresses right) (val : α) :
    Holds (heap.set address ⟨val, root left, root right⟩) (.node (address, val) left right) :=
  ⟨Heap.set_node_self, hleft.set hnotLeft, hright.set hnotRight⟩

/-! ### Trees of new nodes -/

/-- A tree has been made of new nodes. -/
structure Planted (heap : Heap (TreeNode α))
    (tree : PlacedTree α) (heap' : Heap (TreeNode α)) : Prop where
  holds : Holds heap' tree
  nodup : (addresses tree).Nodup
  fresh : ∀ address ∈ addresses tree, heap.node address = none
  old : Extends heap heap'

theorem planted_nil (heap : Heap (TreeNode α)) : Planted heap .nil heap :=
  ⟨trivial, .nil, nofun, .refl heap⟩

/-- A node over two trees, made before them and filled in as they are made. -/
theorem Planted.node {leftHeap rightHeap : Heap (TreeNode α)} {node node' : TreeNode α}
    (hfree : heap.node address = none) (hleft : Planted (heap.set address node) left leftHeap)
    (hright : Planted (leftHeap.set address node') right rightHeap) (val : α) :
    Planted heap (.node (address, val) left right)
      (rightHeap.set address ⟨val, root left, root right⟩) := by
  have hnotLeft : address ∉ addresses left := fun hmem ↦ by
    have hnone := hleft.fresh address hmem
    rw [Heap.set_node_self] at hnone
    cases hnone
  have hnotRight : address ∉ addresses right := fun hmem ↦ by
    have hnone := hright.fresh address hmem
    rw [Heap.set_node_self] at hnone
    cases hnone
  have hleftHolds : Holds (leftHeap.set address node') left := hleft.holds.set hnotLeft
  have hdisjoint : (addresses left).Disjoint (addresses right) := fun other hother hother' ↦
    hleftHolds.node_ne_none hother (hright.fresh other hother')
  have holdLeft : Extends heap (leftHeap.set address node') :=
    ((extends_set hfree _).trans hleft.old).set hfree node'
  refine ⟨(hleftHolds.extends hright.old).node hright.holds hnotLeft hnotRight val,
    nodup_addresses_node.mpr ⟨hleft.nodup, hright.nodup, hnotLeft, hnotRight, hdisjoint⟩,
    fun other hother ↦ ?_, (holdLeft.trans hright.old).set hfree _⟩
  rcases mem_addresses_node.mp hother with rfl | hother | hother
  · exact hfree
  · exact (extends_set hfree _).free (hleft.fresh other hother)
  · exact holdLeft.free (hright.fresh other hother)

/-- It is one of new nodes for longer, too. -/
theorem Planted.within {before after : Heap (TreeNode α)} (h : Planted heap tree heap')
    (hbefore : Extends before heap) (hafter : Extends heap' after) : Planted before tree after :=
  ⟨h.holds.extends hafter, h.nodup, fun address hmem ↦ hbefore.free (h.fresh address hmem),
    (hbefore.trans h.old).trans hafter⟩

/-- A node over two trees, made after them. -/
theorem Planted.above {leftHeap rightHeap later : Heap (TreeNode α)}
    (hleft : Planted heap left leftHeap) (hright : Planted leftHeap right rightHeap)
    (hlater : Extends rightHeap later) (hfree : later.node address = none) (val : α) :
    Planted heap (.node (address, val) left right)
      (later.set address ⟨val, root left, root right⟩) := by
  have hleftHolds : Holds later left := hleft.holds.extends (hright.old.trans hlater)
  have hrightHolds : Holds later right := hright.holds.extends hlater
  have hnotLeft : address ∉ addresses left := hleftHolds.notMem hfree
  have hnotRight : address ∉ addresses right := hrightHolds.notMem hfree
  have hdisjoint : (addresses left).Disjoint (addresses right) := fun other hother hother' ↦
    hleft.holds.node_ne_none hother (hright.fresh other hother')
  have hold : Extends heap later := (hleft.old.trans hright.old).trans hlater
  refine ⟨hleftHolds.node hrightHolds hnotLeft hnotRight val,
    nodup_addresses_node.mpr ⟨hleft.nodup, hright.nodup, hnotLeft, hnotRight, hdisjoint⟩,
    fun other hother ↦ ?_, hold.set (hold.free hfree) _⟩
  rcases mem_addresses_node.mp hother with rfl | hother | hother
  · exact hold.free hfree
  · exact hleft.fresh other hother
  · exact hleft.old.free (hright.fresh other hother)

/-- There is room for every tree. -/
theorem exists_planted (heap : Heap (TreeNode α)) (tree : BinaryTree α) :
    ∃ (placed : PlacedTree α) (heap' : Heap (TreeNode α)),
      Planted heap placed heap' ∧ contents placed = tree := by
  induction tree generalizing heap with
  | nil => exact ⟨.nil, heap, planted_nil heap, rfl⟩
  | node val left right ihLeft ihRight =>
    obtain ⟨placedLeft, leftHeap, hleft, hcontentsLeft⟩ := ihLeft heap
    obtain ⟨placedRight, rightHeap, hright, hcontentsRight⟩ := ihRight leftHeap
    obtain ⟨address, -, hfree⟩ := Allocator.next.exists_address rightHeap
    refine ⟨_, _, hleft.above hright (.refl rightHeap) hfree val, ?_⟩
    rw [contents_node, hcontentsLeft, hcontentsRight]

end CppLearn.Foundation.HeapTree
