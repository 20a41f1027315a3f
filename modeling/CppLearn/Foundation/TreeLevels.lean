import CppLearn.Foundation.HeapTree
import Mathlib.Algebra.Group.Nat.Defs

/-!
# Levels of a tree

The values at a depth, from the left to the right. The subtrees that begin at a depth are a row; the
next row has their children. A breadth-first search goes from row to row.
-/

set_option autoImplicit false
set_option relaxedAutoImplicit false

namespace CppLearn.Foundation.TreeLevels

universe u v

variable {α : Type u} {β : Type v} {tree : BinaryTree α} {depth : ℕ}

/-- The values at a depth. -/
def level : BinaryTree α → ℕ → List α
  | .nil, _ => []
  | .node val _ _, 0 => [val]
  | .node _ left right, depth + 1 => level left depth ++ level right depth

/-- All levels, that of the root first. -/
def levels (tree : BinaryTree α) : List (List α) := (List.range tree.height).map (level tree)

theorem level_nil (depth : ℕ) : level (.nil : BinaryTree α) depth = [] := by
  rw [level]

theorem level_zero (val : α) (left right : BinaryTree α) :
    level (.node val left right) 0 = [val] := rfl

theorem level_succ (val : α) (left right : BinaryTree α) (depth : ℕ) :
    level (.node val left right) (depth + 1) = level left depth ++ level right depth := rfl

/-- There are nodes at a depth just if the tree is higher. -/
theorem level_eq_nil_iff : level tree depth = [] ↔ tree.height ≤ depth := by
  induction tree generalizing depth with
  | nil => simp [level]
  | node val left right ihLeft ihRight =>
    cases depth with
    | zero => simp [level]
    | succ depth =>
      rw [level_succ, List.append_eq_nil_iff, ihLeft, ihRight, BinaryTree.height,
        Nat.succ_le_succ_iff, Nat.max_le]

theorem level_map (f : α → β) (tree : BinaryTree α) (depth : ℕ) :
    level (tree.map f) depth = (level tree depth).map f := by
  induction tree generalizing depth with
  | nil => simp [BinaryTree.map, level]
  | node val left right ihLeft ihRight =>
    cases depth with
    | zero => rfl
    | succ depth => rw [BinaryTree.map, level_succ, level_succ, List.map_append, ihLeft, ihRight]

theorem height_map (f : α → β) (tree : BinaryTree α) : (tree.map f).height = tree.height := by
  induction tree with
  | nil => rfl
  | node val left right ihLeft ihRight =>
    rw [BinaryTree.map, BinaryTree.height, BinaryTree.height, ihLeft, ihRight]

theorem height_contents (tree : HeapTree.PlacedTree α) :
    (HeapTree.contents tree).height = tree.height := height_map Prod.snd tree

theorem length_level_le (tree : BinaryTree α) (depth : ℕ) :
    (level tree depth).length ≤ tree.numNodes := by
  induction tree generalizing depth with
  | nil => rw [level_nil, List.length_nil, BinaryTree.numNodes]
  | node val left right ihLeft ihRight =>
    rw [BinaryTree.numNodes]
    cases depth with
    | zero => exact Nat.le_add_left 1 _
    | succ depth =>
      rw [level_succ, List.length_append]
      exact (Nat.add_le_add (ihLeft depth) (ihRight depth)).trans (Nat.le_succ _)

/-! ### Rows -/

/-- A tree, unless it is empty. -/
def present : BinaryTree α → List (BinaryTree α)
  | .nil => []
  | .node val left right => [.node val left right]

/-- The trees below the roots of some. -/
def children (forest : List (BinaryTree α)) : List (BinaryTree α) :=
  forest.flatMap fun tree ↦ present tree.left ++ present tree.right

/-- The subtrees that begin at a depth. -/
def row (tree : BinaryTree α) : ℕ → List (BinaryTree α)
  | 0 => present tree
  | depth + 1 => children (row tree depth)

theorem mem_present {other : BinaryTree α} (hmem : other ∈ present tree) :
    other = tree ∧ other ≠ .nil := by
  cases tree with
  | nil => cases hmem
  | node val left right =>
    obtain rfl := List.mem_singleton.mp hmem
    exact ⟨rfl, nofun⟩

theorem mem_children {forest : List (BinaryTree α)} {other : BinaryTree α}
    (hmem : other ∈ children forest) :
    ∃ tree ∈ forest, (other = tree.left ∨ other = tree.right) ∧ other ≠ .nil := by
  obtain ⟨tree, htree, hmem⟩ := List.mem_flatMap.mp hmem
  rcases List.mem_append.mp hmem with hmem | hmem
  · exact ⟨tree, htree, .inl (mem_present hmem).1, (mem_present hmem).2⟩
  · exact ⟨tree, htree, .inr (mem_present hmem).1, (mem_present hmem).2⟩

theorem ne_nil_of_mem_row {other : BinaryTree α} (hmem : other ∈ row tree depth) :
    other ≠ .nil := by
  cases depth with
  | zero => exact (mem_present hmem).2
  | succ depth =>
    obtain ⟨-, -, -, hne⟩ := mem_children hmem
    exact hne

theorem flatMap_level_present (tree : BinaryTree α) (depth : ℕ) :
    ((present tree).flatMap fun other ↦ level other depth) = level tree depth := by
  cases tree with
  | nil => exact (level_nil depth).symm
  | node val left right => exact List.flatMap_singleton ..

theorem flatMap_level_children (forest : List (BinaryTree α)) (depth : ℕ) :
    ((children forest).flatMap fun tree ↦ level tree depth) =
      forest.flatMap fun tree ↦ level tree (depth + 1) := by
  rw [children, List.flatMap_assoc]
  refine congrArg (fun f ↦ forest.flatMap f) (funext fun tree ↦ ?_)
  rw [List.flatMap_append, flatMap_level_present, flatMap_level_present]
  cases tree with
  | nil => simp [level]
  | node val left right => rfl

/-- What is at a depth below a row. -/
theorem flatMap_level_row (tree : BinaryTree α) (depth below : ℕ) :
    ((row tree depth).flatMap fun other ↦ level other below) = level tree (depth + below) := by
  induction depth generalizing below with
  | zero => rw [row, flatMap_level_present, Nat.zero_add]
  | succ depth ih => rw [row, flatMap_level_children, ih, Nat.add_right_comm, Nat.add_assoc]

/-- The values at the roots of a row. -/
theorem flatMap_root_row (tree : BinaryTree α) (depth : ℕ) :
    ((row tree depth).flatMap fun other ↦ level other 0) = level tree depth :=
  flatMap_level_row tree depth 0

theorem length_flatMap_root {forest : List (BinaryTree α)}
    (hforest : ∀ tree ∈ forest, tree ≠ .nil) :
    (forest.flatMap fun tree ↦ level tree 0).length = forest.length := by
  induction forest with
  | nil => rfl
  | cons tree forest ih =>
    obtain ⟨htree, hrest⟩ := List.forall_mem_cons.mp hforest
    cases tree with
    | nil => exact absurd rfl htree
    | node val left right =>
      rw [List.flatMap_cons, List.length_append, ih hrest, level_zero, List.length_singleton,
        List.length_cons, Nat.add_comm]

theorem length_row (tree : BinaryTree α) (depth : ℕ) :
    (row tree depth).length = (level tree depth).length := by
  rw [← flatMap_root_row, length_flatMap_root fun _ hmem ↦ ne_nil_of_mem_row hmem]

theorem row_eq_nil_iff : row tree depth = [] ↔ tree.height ≤ depth := by
  rw [← level_eq_nil_iff, ← List.length_eq_zero_iff, length_row, List.length_eq_zero_iff]

/-! ### Trees of a given height -/

/-- The tree of a height with all its levels full. -/
def perfect (val : α) : ℕ → BinaryTree α
  | 0 => .nil
  | height + 1 => .node val (perfect val height) (perfect val height)

/-- The one with a single node on each level. -/
def chain (val : α) : ℕ → BinaryTree α
  | 0 => .nil
  | height + 1 => .node val .nil (chain val height)

theorem length_level_perfect (val : α) {height : ℕ} (hdepth : depth < height) :
    (level (perfect val height) depth).length = 2 ^ depth := by
  induction height generalizing depth with
  | zero => cases hdepth
  | succ height ih =>
    cases depth with
    | zero => rfl
    | succ depth =>
      rw [perfect, level_succ, List.length_append, ih (Nat.lt_of_succ_lt_succ hdepth),
        Nat.pow_succ, Nat.mul_two]

theorem height_chain (val : α) (height : ℕ) : (chain val height).height = height := by
  induction height with
  | zero => rfl
  | succ height ih => rw [chain, BinaryTree.height, ih, BinaryTree.height, Nat.zero_max]

end CppLearn.Foundation.TreeLevels
