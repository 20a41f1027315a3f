import CppLearn.Foundation.TreeLevels
import CppLearn.Foundation.TreePaths
import CppLearn.Foundation.VectorAccess

/-!
# The diameter of a tree

`diameterOfBinaryTreeImpl` returns the length of a longest path of a tree, and its depth by
reference. Of a path through the root both sides go down as far as the subtrees do.
-/

set_option autoImplicit false
set_option relaxedAutoImplicit false

namespace CppLearn.Leetcode.TreeDiameter

open Foundation.HeapTree Foundation.NodeHeap Foundation.TreePaths
open Foundation.TreeLevels (chain height_chain height_contents)
open Foundation.VectorAccess (toInt toInt_of_lt toInt_eq_some_iff)

/-! ### The program -/

variable (heap : Heap (TreeNode ℤ))

/-- `diameterOfBinaryTreeImpl`, with a limit on the depth of its recursion: what it returns, and
`depth`. -/
def diameterOfBinaryTreeImpl : ℕ → Ptr → Option (ℕ × ℕ)
  | 0, _ => none
  | fuel + 1, root =>
    if root = none then some (0, 0)
    else do
      let node ← heap.load root
      if node.left = none ∧ node.right = none then some (0, 1)
      else do
        let (ldiameter, ldepth) ← diameterOfBinaryTreeImpl fuel node.left
        let (rdiameter, rdepth) ← diameterOfBinaryTreeImpl fuel node.right
        let depth ← toInt (max ldepth rdepth + 1)
        let through ← toInt (rdepth + ldepth)
        some (max (max ldiameter rdiameter) through, depth)

def diameterOfBinaryTree (fuel : ℕ) (root : Ptr) : Option ℕ :=
  (diameterOfBinaryTreeImpl heap fuel root).map Prod.fst

/-! ### The paths -/

variable {heap} {tree : PlacedTree ℤ} {fuel : ℕ}

/-- The depth and the diameter fit in an `int`. -/
def Fits (tree : PlacedTree ℤ) : Prop := tree.height < 2 ^ 31 ∧ diameter tree < 2 ^ 31

theorem Fits.subtrees {cell : ℕ × ℤ} {left right : PlacedTree ℤ}
    (h : Fits (.node cell left right)) :
    Fits left ∧ Fits right ∧ right.height + left.height < 2 ^ 31 := by
  obtain ⟨hheight, hdiameter⟩ := h
  rw [BinaryTree.height] at hheight
  rw [diameter] at hdiameter
  refine ⟨⟨?_, ?_⟩, ⟨?_, ?_⟩, ?_⟩ <;> omega

/-- A node without children is no exception. -/
theorem impl_node {cell : ℕ × ℤ} {left right : PlacedTree ℤ}
    (hholds : Holds heap (.node cell left right)) :
    diameterOfBinaryTreeImpl heap (fuel + 2) (root (.node cell left right)) =
      (diameterOfBinaryTreeImpl heap (fuel + 1) (root left)).bind fun leftResult ↦
        (diameterOfBinaryTreeImpl heap (fuel + 1) (root right)).bind fun rightResult ↦
          (toInt (max leftResult.2 rightResult.2 + 1)).bind fun depth ↦
            (toInt (rightResult.2 + leftResult.2)).bind fun through ↦
              some (max (max leftResult.1 rightResult.1) through, depth) := by
  obtain ⟨address, val⟩ := cell
  rw [diameterOfBinaryTreeImpl, root_node, if_neg (Option.some_ne_none address), Heap.load_some,
    hholds.node_eq, Option.bind_eq_bind, Option.bind_some]
  dsimp only
  by_cases hleaf : root left = none ∧ root right = none
  · obtain ⟨hleft, hright⟩ := hleaf
    rw [if_pos ⟨hleft, hright⟩, hleft, hright, diameterOfBinaryTreeImpl, if_pos rfl]
    rfl
  · rw [if_neg hleaf]
    rfl

/-- What is returned is the diameter and the height, where these fit. -/
theorem impl_spec (hholds : Holds heap tree) (hfits : Fits tree) (hfuel : tree.height < fuel) :
    diameterOfBinaryTreeImpl heap fuel (root tree) = some (diameter tree, tree.height) := by
  induction tree generalizing fuel with
  | nil =>
    obtain ⟨fuel, rfl⟩ := Nat.exists_eq_succ_of_ne_zero (Nat.ne_of_gt hfuel)
    rfl
  | node cell left right ihLeft ihRight =>
    obtain ⟨hleft, hright, hthrough⟩ := hfits.subtrees
    have hheight := hfits.1
    rw [BinaryTree.height] at hfuel hheight
    obtain ⟨fuel, rfl⟩ := Nat.exists_eq_add_of_le' (by omega : 2 ≤ fuel)
    have hleftRun := @ihLeft (fuel + 1) hholds.leftTree hleft (by omega)
    have hrightRun := @ihRight (fuel + 1) hholds.rightTree hright (by omega)
    rw [impl_node hholds, hleftRun, Option.bind_some, hrightRun, Option.bind_some,
      toInt_of_lt hheight, Option.bind_some, toInt_of_lt hthrough, Option.bind_some, diameter,
      BinaryTree.height]

/-- Where they do not, nothing is returned. -/
theorem fits_of_impl {edges depth : ℕ} (hholds : Holds heap tree)
    (hrun : diameterOfBinaryTreeImpl heap fuel (root tree) = some (edges, depth)) :
    edges = diameter tree ∧ depth = tree.height ∧ Fits tree := by
  induction tree generalizing fuel edges depth with
  | nil =>
    cases fuel with
    | zero => cases hrun
    | succ fuel =>
      cases hrun
      exact ⟨rfl, rfl, by decide, by decide⟩
  | node cell left right ihLeft ihRight =>
    match fuel with
    | 0 => cases hrun
    | 1 =>
      obtain ⟨address, val⟩ := cell
      rw [diameterOfBinaryTreeImpl, root_node, if_neg (Option.some_ne_none address),
        Heap.load_some, hholds.node_eq, Option.bind_eq_bind, Option.bind_some] at hrun
      by_cases hleaf : root left = none ∧ root right = none
      · obtain ⟨hleft, hright⟩ := hleaf
        obtain rfl := root_eq_none.mp hleft
        obtain rfl := root_eq_none.mp hright
        cases hrun
        exact ⟨rfl, rfl, by simp [BinaryTree.height], by simp [diameter, BinaryTree.height]⟩
      · rw [if_neg hleaf] at hrun
        cases hrun
    | fuel + 2 =>
      rw [impl_node hholds] at hrun
      obtain ⟨⟨ldiameter, ldepth⟩, hleftRun, hrun⟩ := Option.bind_eq_some_iff.mp hrun
      obtain ⟨⟨rdiameter, rdepth⟩, hrightRun, hrun⟩ := Option.bind_eq_some_iff.mp hrun
      obtain ⟨height, hheight, hrun⟩ := Option.bind_eq_some_iff.mp hrun
      obtain ⟨through, hthrough, hrun⟩ := Option.bind_eq_some_iff.mp hrun
      obtain ⟨rfl, rfl, hleft⟩ := ihLeft hholds.leftTree hleftRun
      obtain ⟨rfl, rfl, hright⟩ := ihRight hholds.rightTree hrightRun
      obtain ⟨rfl, hheightFits⟩ := toInt_eq_some_iff.mp hheight
      obtain ⟨rfl, hthroughFits⟩ := toInt_eq_some_iff.mp hthrough
      cases hrun
      refine ⟨rfl, rfl, hheightFits, ?_⟩
      rw [diameter]
      exact Nat.max_lt.mpr ⟨Nat.max_lt.mpr ⟨hleft.2, hright.2⟩, hthroughFits⟩

theorem diameter_contents (tree : PlacedTree ℤ) : diameter (contents tree) = diameter tree := by
  induction tree with
  | nil => rfl
  | node cell left right ihLeft ihRight =>
    obtain ⟨address, val⟩ := cell
    rw [contents_node, diameter, diameter, ihLeft, ihRight, height_contents, height_contents]

/-- The diameter is the length of a longest path between two nodes, and the depth the number of
nodes on a longest way down. -/
theorem diameterOfBinaryTree_spec (hholds : Holds heap tree) (hheight : tree.height < 2 ^ 31)
    (hpaths : ∀ path, IsPath (contents tree) path → path.length ≤ 2 ^ 31)
    (hfuel : tree.height < fuel) :
    ∃ edges depth, diameterOfBinaryTreeImpl heap fuel (root tree) = some (edges, depth) ∧
      diameterOfBinaryTree heap fuel (root tree) = some edges ∧
      (tree = .nil → edges = 0) ∧
      (tree ≠ .nil → IsGreatest {edges | ∃ first last path,
        Joins (contents tree) first last path ∧ path.length = edges + 1} edges) ∧
      IsGreatest {nodes | ∃ path, IsDownPath (contents tree) path ∧ path.length = nodes} depth := by
  have hfits : Fits tree := by
    refine ⟨hheight, ?_⟩
    cases tree with
    | nil => decide
    | node cell left right =>
      have hne : contents (.node cell left right) ≠ .nil := nofun
      obtain ⟨path, hpath, hlength⟩ := exists_isPath hne
      have hle := hpaths path hpath
      rw [diameter_contents] at hlength
      omega
  have hrun := impl_spec hholds hfits hfuel
  refine ⟨diameter tree, tree.height, hrun, ?_, ?_, fun hne ↦ ?_, ?_⟩
  · rw [diameterOfBinaryTree, hrun]
    rfl
  · rintro rfl
    rfl
  · have hne' : contents tree ≠ .nil := by
      cases tree with
      | nil => exact absurd rfl hne
      | node cell left right => nofun
    rw [← diameter_contents]
    exact isGreatest_diameter hne'
  · rw [← height_contents]
    exact isGreatest_height (contents tree)

theorem diameterOfBinaryTree_spec_four :
    let heap := (((Heap.empty.set 0 ⟨1, some 1, some 2⟩).set 1 ⟨2, none, some 3⟩).set 2
      ⟨3, none, none⟩).set 3 ⟨4, none, none⟩
    let tree : BinaryTree ℤ := .node 1 (.node 2 .nil (.node 4 .nil .nil)) (.node 3 .nil .nil)
    ∃ edges, diameterOfBinaryTree heap 4 (some 0) = some edges ∧
      IsGreatest {edges | ∃ first last path,
        Joins tree first last path ∧ path.length = edges + 1} edges := by
  intro heap tree
  have hholds : Holds heap (.node (0, 1) (.node (1, 2) .nil (.node (3, 4) .nil .nil))
      (.node (2, 3) .nil .nil)) :=
    ⟨rfl, ⟨rfl, trivial, rfl, trivial, trivial⟩, rfl, trivial, trivial⟩
  obtain ⟨edges, depth, -, hrun, -, hedges, -⟩ := @diameterOfBinaryTree_spec heap _ 4 hholds
    (by decide) (fun path hpath ↦ hpath.length_le.trans (by decide)) (by decide)
  exact ⟨edges, hrun, hedges nofun⟩

/-! ### Beyond an `int` -/

/-- The depth of one tree does not fit, and of another one the diameter. -/
theorem diameterOfBinaryTree_eq_none :
    (∃ (heap : Heap (TreeNode ℤ)) (root : Ptr), Stores heap root (chain 0 (2 ^ 31)) ∧
      ∀ fuel, diameterOfBinaryTree heap fuel root = none) ∧
    ∃ (heap : Heap (TreeNode ℤ)) (root : Ptr),
      Stores heap root (.node 0 (chain 0 (2 ^ 30)) (chain 0 (2 ^ 30))) ∧
      ∀ fuel, diameterOfBinaryTree heap fuel root = none := by
  have hnone (tree : BinaryTree ℤ) (hover : ¬ (tree.height < 2 ^ 31 ∧ diameter tree < 2 ^ 31)) :
      ∃ (heap : Heap (TreeNode ℤ)) (root : Ptr), Stores heap root tree ∧
        ∀ fuel, diameterOfBinaryTree heap fuel root = none := by
    obtain ⟨placed, heap, hplanted, rfl⟩ := exists_planted .empty tree
    refine ⟨heap, root placed, ⟨placed, rfl, hplanted.holds, hplanted.nodup, rfl⟩, fun fuel ↦ ?_⟩
    rw [diameterOfBinaryTree, Option.map_eq_none_iff, Option.eq_none_iff_forall_ne_some]
    rintro ⟨edges, depth⟩ hrun
    rw [height_contents, diameter_contents] at hover
    exact hover (fits_of_impl hplanted.holds hrun).2.2
  refine ⟨hnone _ fun hfits ↦ ?_, hnone _ fun hfits ↦ ?_⟩
  · rw [height_chain] at hfits
    exact hfits.1.ne rfl
  · have hdiameter := hfits.2
    rw [diameter, height_chain] at hdiameter
    omega

end CppLearn.Leetcode.TreeDiameter
