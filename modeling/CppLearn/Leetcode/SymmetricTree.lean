import CppLearn.Foundation.HeapTree
import Mathlib.Algebra.GroupWithZero.Nat

/-!
# Symmetric trees

`isSymmetric` compares the two subtrees of the root node by node, one as it is and the other from
the right to the left. `isSymmetricIterative` has the pairs that are still to be compared in a
queue: what it returns is whether all of them are mirror images of each other.
-/

set_option autoImplicit false
set_option relaxedAutoImplicit false

namespace CppLearn.Leetcode.SymmetricTree

open Foundation.HeapTree Foundation.NodeHeap

/-! ### The program -/

variable (heap : Heap (TreeNode ℤ))

/-- The overload for two trees, with a limit on the depth of its recursion. -/
def isSymmetricPair : ℕ → Ptr → Ptr → Option Bool
  | 0, _, _ => none
  | fuel + 1, ltree, rtree =>
    if ltree = none ∧ rtree = none then some true
    else if ltree ≠ none ∧ rtree ≠ none then do
      let lnode ← heap.load ltree
      let rnode ← heap.load rtree
      if lnode.val = rnode.val then do
        let outer ← isSymmetricPair fuel lnode.left rnode.right
        if outer then isSymmetricPair fuel lnode.right rnode.left else some false
      else some false
    else some false

def isSymmetric (fuel : ℕ) (root : Ptr) : Option Bool :=
  if root = none then some true
  else do
    let node ← heap.load root
    isSymmetricPair heap fuel node.left node.right

/-- The loop of `isSymmetricIterative`, with a limit on its rounds. -/
def symmetricLoop : ℕ → List Ptr → Option Bool
  | 0, _ => none
  | fuel + 1, unvisited =>
    if unvisited ≠ [] then do
      let ltree ← unvisited.head?
      let unvisited := unvisited.tail
      let rtree ← unvisited.head?
      let unvisited := unvisited.tail
      if ltree = none ∧ rtree = none then symmetricLoop fuel unvisited
      else if ltree = none ∨ rtree = none then some false
      else do
        let lnode ← heap.load ltree
        let rnode ← heap.load rtree
        if lnode.val ≠ rnode.val then some false
        else symmetricLoop fuel (unvisited ++ [lnode.left, rnode.right, rnode.left, lnode.right])
    else some true

def isSymmetricIterative (fuel : ℕ) (root : Ptr) : Option Bool :=
  symmetricLoop heap fuel [root, root]

/-! ### Mirror images -/

/-- The trees at two pointers are mirror images of each other. -/
def Mirrored (ltree rtree : PlacedTree ℤ) : Prop := contents ltree = mirror (contents rtree)

instance (ltree rtree : PlacedTree ℤ) : Decidable (Mirrored ltree rtree) :=
  inferInstanceAs (Decidable (_ = _))

variable {heap} {tree ltree rtree left right left' right' : PlacedTree ℤ}
  {address address' : ℕ} {val val' : ℤ} {fuel : ℕ}

theorem mirrored_comm : Mirrored ltree rtree ↔ Mirrored rtree ltree := eq_mirror_comm

theorem mirrored_node :
    Mirrored (.node (address, val) left right) (.node (address', val') left' right') ↔
      val = val' ∧ Mirrored left right' ∧ Mirrored right left' := by
  rw [Mirrored, contents_node, contents_node, mirror_node, BinaryTree.node.injEq, Mirrored,
    Mirrored]

theorem decide_mirrored_node : decide (val = val' ∧ Mirrored left right' ∧ Mirrored right left') =
    decide (Mirrored (.node (address, val) left right) (.node (address', val') left' right')) :=
  decide_eq_decide.mpr mirrored_node.symm

/-- The recursion goes down both trees, to the left in one and to the right in the other. -/
theorem isSymmetricPair_eq (hltree : Holds heap ltree) (hrtree : Holds heap rtree)
    (hfuel : ltree.numNodes < fuel) :
    isSymmetricPair heap fuel (root ltree) (root rtree) = some (decide (Mirrored ltree rtree)) := by
  induction ltree generalizing rtree fuel with
  | nil =>
    obtain ⟨fuel, rfl⟩ := Nat.exists_eq_succ_of_ne_zero (Nat.ne_zero_of_lt hfuel)
    cases rtree with
    | nil => rfl
    | node cell' left' right' => rfl
  | node cell left right ihLeft ihRight =>
    obtain ⟨address, val⟩ := cell
    obtain ⟨fuel, rfl⟩ := Nat.exists_eq_succ_of_ne_zero (Nat.ne_zero_of_lt hfuel)
    rw [BinaryTree.numNodes] at hfuel
    cases rtree with
    | nil => rfl
    | node cell' left' right' =>
      obtain ⟨address', val'⟩ := cell'
      rw [isSymmetricPair, root_node, root_node, if_neg (by simp), if_pos (by simp),
        Heap.load_some, Heap.load_some, hltree.node_eq, hrtree.node_eq, Option.bind_eq_bind,
        Option.bind_some, Option.bind_some, ← decide_mirrored_node]
      by_cases hval : val = val'
      · have houter := @ihLeft right' fuel hltree.leftTree hrtree.rightTree (by omega)
        have hinner := @ihRight left' fuel hltree.rightTree hrtree.leftTree (by omega)
        rw [if_pos hval, houter, Option.bind_eq_bind, Option.bind_some, hinner]
        by_cases hmirrored : Mirrored left right'
        · simp [hval, hmirrored]
        · simp [hmirrored]
      · simp [hval]

theorem isSymmetric_eq (hholds : Holds heap tree) (hfuel : tree.numNodes < fuel) :
    isSymmetric heap fuel (root tree) = some (decide (Mirrored tree tree)) := by
  cases tree with
  | nil => rfl
  | node cell left right =>
    obtain ⟨address, val⟩ := cell
    rw [BinaryTree.numNodes] at hfuel
    have hpair := @isSymmetricPair_eq heap left right fuel hholds.leftTree hholds.rightTree
      (by omega)
    have hiff : Mirrored (.node (address, val) left right) (.node (address, val) left right) ↔
        Mirrored left right := by
      rw [mirrored_node, @mirrored_comm right left, and_self, and_iff_right rfl]
    rw [isSymmetric, root_node, if_neg (Option.some_ne_none address), Heap.load_some,
      hholds.node_eq, Option.bind_eq_bind, Option.bind_some, hpair, decide_eq_decide.mpr hiff]

/-! ### The queue -/

/-- The trees that are still to be compared with each other. -/
abbrev Pairs := List (PlacedTree ℤ × PlacedTree ℤ)

def ptrs (pairs : Pairs) : List Ptr := pairs.flatMap fun pair ↦ [root pair.1, root pair.2]

/-- As many rounds remain. -/
def weight (pairs : Pairs) : ℕ :=
  (pairs.map fun pair ↦ pair.1.numNodes + pair.2.numNodes + 1).sum

theorem ptrs_append (pairs more : Pairs) : ptrs (pairs ++ more) = ptrs pairs ++ ptrs more :=
  List.flatMap_append

theorem weight_append (pairs more : Pairs) :
    weight (pairs ++ more) = weight pairs + weight more := by
  rw [weight, List.map_append, List.sum_append, weight, weight]

/-- The subtrees of a pair that are compared in its place. -/
def childPairs (left right left' right' : PlacedTree ℤ) : Pairs := [(left, right'), (left', right)]

theorem weight_childPairs (pairs : Pairs) :
    weight (pairs ++ childPairs left right left' right') <
      weight ((.node (address, val) left right, .node (address', val') left' right') :: pairs) := by
  rw [weight_append, weight, weight, weight, List.map_cons, List.sum_cons, childPairs,
    List.map_cons, List.map_singleton, List.sum_cons, List.sum_singleton]
  simp only [BinaryTree.numNodes]
  omega

theorem mirrored_childPairs (pairs : Pairs) :
    (∀ pair ∈ pairs ++ childPairs left right left' right', Mirrored pair.1 pair.2) ↔
      (Mirrored left right' ∧ Mirrored right left') ∧ ∀ pair ∈ pairs, Mirrored pair.1 pair.2 := by
  rw [List.forall_mem_append, childPairs, List.forall_mem_cons, List.forall_mem_singleton,
    @mirrored_comm left' right, and_comm]

/-- A round at two nodes. -/
theorem symmetricLoop_node (hltree : Holds heap (.node (address, val) left right))
    (hrtree : Holds heap (.node (address', val') left' right')) (pairs : Pairs) :
    symmetricLoop heap (fuel + 1)
        (ptrs ((.node (address, val) left right, .node (address', val') left' right') :: pairs)) =
      if val ≠ val' then some false
      else symmetricLoop heap fuel (ptrs (pairs ++ childPairs left right left' right')) := by
  have hlnode : heap.load (some address) = some ⟨val, root left, root right⟩ := by
    rw [Heap.load_some, hltree.node_eq]
  have hrnode : heap.load (some address') = some ⟨val', root left', root right'⟩ := by
    rw [Heap.load_some, hrtree.node_eq]
  have hptrs : ptrs ((.node (address, val) left right, .node (address', val') left' right') ::
      pairs) = some address :: some address' :: ptrs pairs := rfl
  rw [symmetricLoop, hptrs, if_pos (List.cons_ne_nil _ _), ptrs_append]
  simp only [List.head?_cons, List.tail_cons, Option.bind_eq_bind, Option.bind_some,
    reduceCtorEq, and_self, or_self, if_false, hlnode, hrnode]
  rfl

/-- The loop compares all pairs, in whatever order they are in the queue. -/
theorem symmetricLoop_eq {pairs : Pairs}
    (hholds : ∀ pair ∈ pairs, Holds heap pair.1 ∧ Holds heap pair.2)
    (hfuel : weight pairs < fuel) :
    symmetricLoop heap fuel (ptrs pairs) =
      some (decide (∀ pair ∈ pairs, Mirrored pair.1 pair.2)) := by
  induction fuel generalizing pairs with
  | zero => cases hfuel
  | succ fuel ih =>
    cases pairs with
    | nil => rfl
    | cons pair pairs =>
      obtain ⟨ltree, rtree⟩ := pair
      obtain ⟨⟨hltree, hrtree⟩, hrest⟩ := List.forall_mem_cons.mp hholds
      cases ltree with
      | nil =>
        cases rtree with
        | nil =>
          have hnil : Mirrored .nil .nil := rfl
          rw [weight, List.map_cons, List.sum_cons, ← weight] at hfuel
          have hloop := ih hrest (by omega)
          have hiff : (∀ pair ∈ ((.nil, .nil) : PlacedTree ℤ × PlacedTree ℤ) :: pairs,
              Mirrored pair.1 pair.2) ↔ ∀ pair ∈ pairs, Mirrored pair.1 pair.2 := by
            rw [List.forall_mem_cons, and_iff_right hnil]
          exact hloop.trans (congrArg some (decide_eq_decide.mpr hiff.symm))
        | node cell' left' right' =>
          have hnot : ¬ Mirrored .nil (.node cell' left' right') := nofun
          rw [decide_eq_false fun h ↦ hnot (h _ List.mem_cons_self)]
          rfl
      | node cell left right =>
        obtain ⟨address, val⟩ := cell
        cases rtree with
        | nil =>
          have hnot : ¬ Mirrored (.node (address, val) left right) .nil := nofun
          rw [decide_eq_false fun h ↦ hnot (h _ List.mem_cons_self)]
          rfl
        | node cell' left' right' =>
          obtain ⟨address', val'⟩ := cell'
          rw [symmetricLoop_node hltree hrtree]
          by_cases hval : val = val'
          · have hnext : ∀ pair ∈ pairs ++ childPairs left right left' right',
                Holds heap pair.1 ∧ Holds heap pair.2 := by
              refine List.forall_mem_append.mpr ⟨hrest, List.forall_mem_cons.mpr ⟨?_,
                List.forall_mem_singleton.mpr ?_⟩⟩
              · exact ⟨hltree.leftTree, hrtree.rightTree⟩
              · exact ⟨hrtree.leftTree, hltree.rightTree⟩
            have hweight := (weight_childPairs pairs).trans_le (Nat.le_of_lt_succ hfuel)
            rw [if_neg (not_not.mpr hval), ih hnext hweight]
            refine congrArg some (decide_eq_decide.mpr ?_)
            rw [mirrored_childPairs, List.forall_mem_cons, mirrored_node, and_iff_right hval]
          · rw [if_pos hval, decide_eq_false fun h ↦
              hval (mirrored_node.mp (h _ List.mem_cons_self)).1]

/-- Both return whether the tree is its own mirror image. -/
theorem isSymmetricIterative_agrees (hholds : Holds heap tree)
    (hfuel : 2 * tree.numNodes + 1 < fuel) :
    ∃ answer, isSymmetric heap fuel (root tree) = some answer ∧
      isSymmetricIterative heap fuel (root tree) = some answer ∧
      (answer = true ↔ contents tree = mirror (contents tree)) := by
  have hpair : ∀ pair ∈ [(tree, tree)], Holds heap pair.1 ∧ Holds heap pair.2 :=
    List.forall_mem_singleton.mpr ⟨hholds, hholds⟩
  have hweight : weight [(tree, tree)] < fuel := by
    rw [weight, List.map_singleton, List.sum_singleton]
    dsimp only
    omega
  have hiff : (∀ pair ∈ [(tree, tree)], Mirrored pair.1 pair.2) ↔ Mirrored tree tree :=
    List.forall_mem_singleton
  refine ⟨decide (Mirrored tree tree), isSymmetric_eq hholds (by omega), ?_, decide_eq_true_iff⟩
  exact (symmetricLoop_eq hpair hweight).trans (congrArg some (decide_eq_decide.mpr hiff))

theorem isSymmetricIterative_agrees_three :
    let heap := ((Heap.empty.set 0 ⟨1, some 1, some 2⟩).set 1 ⟨2, none, none⟩).set 2
      ⟨2, none, none⟩
    let tree : BinaryTree ℤ := .node 1 (.node 2 .nil .nil) (.node 2 .nil .nil)
    ∃ answer, isSymmetric heap 8 (some 0) = some answer ∧
      isSymmetricIterative heap 8 (some 0) = some answer ∧
      (answer = true ↔ tree = mirror tree) := by
  intro heap tree
  have hholds : Holds heap (.node (0, 1) (.node (1, 2) .nil .nil) (.node (2, 2) .nil .nil)) :=
    ⟨rfl, ⟨rfl, trivial, trivial⟩, rfl, trivial, trivial⟩
  exact @isSymmetricIterative_agrees heap _ 8 hholds (by decide)

end CppLearn.Leetcode.SymmetricTree
