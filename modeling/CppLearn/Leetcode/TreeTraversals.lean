import CppLearn.Foundation.StackWalk
import CppLearn.Leetcode.TraversalToTree

/-!
# Traversals with a stack

Three loops collect the values of a tree in order, in preorder and in postorder. The last one
collects them in the preorder of the mirrored tree and reverses what it has.
-/

set_option autoImplicit false
set_option relaxedAutoImplicit false

namespace CppLearn.Leetcode.TreeTraversals

open Foundation.HeapTree Foundation.NodeHeap Foundation.StackWalk
open TraversalToTree (postorder)

/-! ### The program -/

variable (heap : Heap (TreeNode ℤ))

/-- `ptr->left`. -/
def leftOf (ptr : Ptr) : Option Ptr := (heap.load ptr).map TreeNode.left

/-- `ptr->right`. -/
def rightOf (ptr : Ptr) : Option Ptr := (heap.load ptr).map TreeNode.right

/-- `traversal.push_back(ptr->val)`. -/
def pushVal (traversal : List ℤ) (ptr : Ptr) : Option (List ℤ) :=
  (heap.load ptr).map fun node ↦ traversal ++ [node.val]

/-- The loops of `inorderTraversal`, which goes down to the left and pushes a value when it comes
back. -/
def inorderWalker : Walker (List ℤ) where
  near _ := leftOf heap
  far _ := rightOf heap
  early traversal _ := some traversal
  late := pushVal heap

/-- The loops of `preorderTraversal`, which pushes a value on its way down. -/
def preorderWalker : Walker (List ℤ) where
  near _ := leftOf heap
  far _ := rightOf heap
  early := pushVal heap
  late traversal _ := some traversal

/-- The loops of `postorderTraversal`, which does so on its way down to the right. -/
def postorderWalker : Walker (List ℤ) where
  near _ := rightOf heap
  far _ := leftOf heap
  early := pushVal heap
  late traversal _ := some traversal

def inorderTraversal (root : Ptr) : Option (List ℤ) :=
  (inorderWalker heap).walk (heap.bound + 1) (heap.bound + 1) root [] []

def preorderTraversal (root : Ptr) : Option (List ℤ) :=
  (preorderWalker heap).walk (heap.bound + 1) (heap.bound + 1) root [] []

def postorderTraversal (root : Ptr) : Option (List ℤ) := do
  let traversal ← (postorderWalker heap).walk (heap.bound + 1) (heap.bound + 1) root [] []
  return traversal.reverse

/-! ### The values that are pushed -/

/-- The values of a tree, that of the root before those of both subtrees. -/
def preorder : BinaryTree ℤ → List ℤ
  | .nil => []
  | .node val left right => val :: (preorder left ++ preorder right)

variable {heap} {tree : PlacedTree ℤ}

theorem pushVal_eq {address : ℕ} {val : ℤ} {left right : PlacedTree ℤ}
    (hholds : Holds heap (.node (address, val) left right)) (traversal : List ℤ) :
    pushVal heap traversal (some address) = some (traversal ++ [val]) := by
  rw [pushVal, Heap.load_some, hholds.node_eq]
  rfl

theorem leftOf_eq {address : ℕ} {node : TreeNode ℤ} (hnode : heap.node address = some node) :
    leftOf heap (some address) = some node.left := by
  rw [leftOf, Heap.load_some, hnode, Option.map_some]

theorem rightOf_eq {address : ℕ} {node : TreeNode ℤ} (hnode : heap.node address = some node) :
    rightOf heap (some address) = some node.right := by
  rw [rightOf, Heap.load_some, hnode, Option.map_some]

theorem foldlM_inorder (hholds : Holds heap tree) (traversal : List ℤ) :
    (visits tree).foldlM (inorderWalker heap).visit traversal =
      some (traversal ++ inorder (contents tree)) := by
  induction tree generalizing traversal with
  | nil => rw [contents_nil, inorder_nil, List.append_nil]; rfl
  | node cell left right ihLeft ihRight =>
    obtain ⟨address, val⟩ := cell
    have hlate (traversal : List ℤ) : (inorderWalker heap).visit traversal (.late address) =
        some (traversal ++ [val]) := pushVal_eq hholds traversal
    have hearly (traversal : List ℤ) :
        (inorderWalker heap).visit traversal (.early address) = some traversal := rfl
    simp only [visits, List.foldlM_cons, List.foldlM_append, hearly, hlate, ihLeft hholds.leftTree,
      ihRight hholds.rightTree, Option.bind_eq_bind, Option.bind_some, contents_node, inorder_node,
      List.append_assoc, List.singleton_append]

theorem foldlM_preorder (hholds : Holds heap tree) (traversal : List ℤ) :
    (visits tree).foldlM (preorderWalker heap).visit traversal =
      some (traversal ++ preorder (contents tree)) := by
  induction tree generalizing traversal with
  | nil => rw [contents_nil, preorder, List.append_nil]; rfl
  | node cell left right ihLeft ihRight =>
    obtain ⟨address, val⟩ := cell
    have hearly (traversal : List ℤ) : (preorderWalker heap).visit traversal (.early address) =
        some (traversal ++ [val]) := pushVal_eq hholds traversal
    have hlate (traversal : List ℤ) :
        (preorderWalker heap).visit traversal (.late address) = some traversal := rfl
    simp only [visits, List.foldlM_cons, List.foldlM_append, hearly, hlate, ihLeft hholds.leftTree,
      ihRight hholds.rightTree, Option.bind_eq_bind, Option.bind_some, contents_node, preorder,
      List.append_assoc, List.singleton_append]

theorem foldlM_postorder (hholds : Holds heap tree) (traversal : List ℤ) :
    (visits (mirror tree)).foldlM (postorderWalker heap).visit traversal =
      some (traversal ++ (postorder (contents tree)).reverse) := by
  induction tree generalizing traversal with
  | nil => rw [contents_nil, postorder, List.reverse_nil, List.append_nil]; rfl
  | node cell left right ihLeft ihRight =>
    obtain ⟨address, val⟩ := cell
    have hearly (traversal : List ℤ) : (postorderWalker heap).visit traversal (.early address) =
        some (traversal ++ [val]) := pushVal_eq hholds traversal
    have hlate (traversal : List ℤ) :
        (postorderWalker heap).visit traversal (.late address) = some traversal := rfl
    simp only [mirror_node, visits, List.foldlM_cons, List.foldlM_append, hearly, hlate,
      ihLeft hholds.leftTree, ihRight hholds.rightTree, Option.bind_eq_bind, Option.bind_some,
      contents_node, postorder, List.reverse_append, List.reverse_singleton, List.append_assoc,
      List.cons_append]

/-! ### The results -/

/-- With what the loops do in a whole tree they return it. -/
theorem walk_eq {walker : Walker (List ℤ)} {traversal : List ℤ}
    (hlinks : ∀ state, Links walker state tree)
    (hvisits : (visits tree).foldlM walker.visit [] = some traversal)
    (hsize : tree.numNodes ≤ heap.bound) :
    walker.walk (heap.bound + 1) (heap.bound + 1) (root tree) [] [] = some traversal := by
  have hwalk := @walk_eq_foldlM _ _ walker (fun _ ↦ True) tree [] [] (heap.bound + 1)
    (heap.bound + 1) (fun _ _ _ _ _ ↦ trivial) (fun state _ ↦ hlinks state) nofun trivial
    (Nat.lt_succ_of_le hsize) (Nat.lt_succ_of_le hsize)
  rw [pending, List.flatMap_nil, List.append_nil, hvisits] at hwalk
  exact hwalk

/-- The three loops return the traversals that the recursions define. -/
theorem traversals_eq (hholds : Holds heap tree) (hnodup : (addresses tree).Nodup) :
    inorderTraversal heap (root tree) = some (inorder (contents tree)) ∧
      preorderTraversal heap (root tree) = some (preorder (contents tree)) ∧
      postorderTraversal heap (root tree) = some (postorder (contents tree)) := by
  have hsize := hholds.numNodes_le hnodup
  have hinorder (traversal : List ℤ) : LeftFirst (inorderWalker heap) traversal heap :=
    fun _ _ hnode ↦ ⟨leftOf_eq hnode, rightOf_eq hnode⟩
  have hpreorder (traversal : List ℤ) : LeftFirst (preorderWalker heap) traversal heap :=
    fun _ _ hnode ↦ ⟨leftOf_eq hnode, rightOf_eq hnode⟩
  have hpostorder (traversal : List ℤ) : RightFirst (postorderWalker heap) traversal heap :=
    fun _ _ hnode ↦ ⟨rightOf_eq hnode, leftOf_eq hnode⟩
  refine ⟨walk_eq (fun traversal ↦ (hinorder traversal).links hholds) (foldlM_inorder hholds [])
    hsize, walk_eq (fun traversal ↦ (hpreorder traversal).links hholds) (foldlM_preorder hholds [])
    hsize, ?_⟩
  have hwalk := @walk_eq _ _ (postorderWalker heap) _
    (fun traversal ↦ (hpostorder traversal).links hholds) (foldlM_postorder hholds [])
    ((numNodes_mirror tree).trans_le hsize)
  rw [root_mirror] at hwalk
  rw [postorderTraversal, hwalk, List.nil_append, Option.bind_eq_bind, Option.bind_some,
    List.reverse_reverse]
  rfl

/-- A root with two children, of which the left one has a right child. -/
theorem traversals_eq_four :
    let heap := (((Heap.empty.set 0 ⟨1, some 1, some 2⟩).set 1 ⟨2, none, some 3⟩).set 2
      ⟨3, none, none⟩).set 3 ⟨4, none, none⟩
    inorderTraversal heap (some 0) = some [2, 4, 1, 3] ∧
      preorderTraversal heap (some 0) = some [1, 2, 4, 3] ∧
      postorderTraversal heap (some 0) = some [4, 2, 3, 1] := by
  intro heap
  have hholds : Holds heap (.node (0, 1) (.node (1, 2) .nil (.node (3, 4) .nil .nil))
      (.node (2, 3) .nil .nil)) :=
    ⟨rfl, ⟨rfl, trivial, rfl, trivial, trivial⟩, rfl, trivial, trivial⟩
  exact traversals_eq hholds (by decide)

end CppLearn.Leetcode.TreeTraversals
