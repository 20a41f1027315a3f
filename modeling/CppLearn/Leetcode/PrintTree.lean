import CppLearn.Foundation.TreeLevels
import CppLearn.Foundation.VectorAccess

/-!
# Printing a tree

`printTree` writes the values of a tree into a grid of texts, each level into a row of its own. A
call writes its root in the middle of an interval of columns; the left part of the interval, with
the middle, is for the left subtree and the rest for the right one.
-/

set_option autoImplicit false
set_option relaxedAutoImplicit false

namespace CppLearn.Leetcode.PrintTree

open Foundation.HeapTree Foundation.NodeHeap Foundation.TreeLevels
open Foundation.VectorAccess (toInt toInt_of_lt)

/-! ### The program -/

abbrev Grid := List (List String)

/-- `output[row][column] = text`. -/
def setCell (output : Grid) (row column : ℕ) (text : String) : Option Grid := do
  let line ← output[row]?
  if column < line.length then some (output.set row (line.set column text)) else none

variable (heap : Heap (TreeNode ℤ))

/-- `printTreeImpl`, with a limit on the depth of its recursion. -/
def printTreeImpl : ℕ → Ptr → ℕ → ℕ → ℕ → Grid → Option Grid
  | 0, _, _, _, _, _ => none
  | fuel + 1, root, depth, left, right, output =>
    if root = none then some output
    else do
      let node ← heap.load root
      let sum ← toInt (left + right)
      let output ← setCell output depth (sum / 2) (toString node.val)
      let next ← toInt (depth + 1)
      let output ← printTreeImpl fuel node.left next left (sum / 2) output
      let middle ← toInt (sum / 2 + 1)
      printTreeImpl fuel node.right next middle right output

/-- `maxDepth`, with a limit on the depth of its recursion. -/
def maxDepth : ℕ → Ptr → Option ℕ
  | 0, _ => none
  | fuel + 1, root =>
    if root = none then some 0
    else do
      let node ← heap.load root
      let left ← maxDepth fuel node.left
      let right ← maxDepth fuel node.right
      toInt (1 + max left right)

def printTree (fuel : ℕ) (root : Ptr) : Option Grid := do
  let depth ← maxDepth heap fuel root
  let size ← toInt (2 ^ depth)
  let line := List.replicate (size - 1) ""
  let output := List.replicate depth line
  printTreeImpl heap fuel root 0 0 (line.length - 1) output

/-! ### The calls -/

/-- A call, by its arguments and the value that it writes. -/
structure Call where
  row : ℕ
  left : ℕ
  right : ℕ
  val : ℤ

def Call.column (call : Call) : ℕ := (call.left + call.right) / 2

/-- The calls for a tree: those for its subtrees are below that for the root. -/
def plan : BinaryTree ℤ → ℕ → ℕ → ℕ → BinaryTree Call
  | .nil, _, _, _ => .nil
  | .node val leftTree rightTree, row, left, right =>
    .node ⟨row, left, right, val⟩ (plan leftTree (row + 1) left ((left + right) / 2))
      (plan rightTree (row + 1) ((left + right) / 2 + 1) right)

/-- An interval of columns that is wide enough for so many levels, or by one column less. -/
def Wide (levels left right : ℕ) : Prop :=
  right + 1 = left + 2 ^ levels ∨ right + 2 = left + 2 ^ levels

variable {heap} {tree : BinaryTree ℤ} {levels row left right : ℕ}

/-- The middle of an interval is where its left half would end. -/
theorem Wide.middle (h : Wide (levels + 1) left right) :
    (left + right) / 2 + 1 = left + 2 ^ levels := by
  rw [Wide, Nat.pow_succ] at h
  have hpos : 0 < 2 ^ levels := Nat.two_pow_pos levels
  omega

theorem Wide.leftHalf (h : Wide (levels + 1) left right) :
    Wide levels left ((left + right) / 2) := .inl h.middle

theorem Wide.rightHalf (h : Wide (levels + 1) left right) :
    Wide levels ((left + right) / 2 + 1) right := by
  have hmiddle := h.middle
  rw [Wide, Nat.pow_succ] at h
  rw [Wide]
  omega

/-- The calls stay in the rows of the tree, and in its columns with the last one left out. -/
theorem plan_bounds (hheight : tree.height ≤ levels) (hwide : Wide levels left right) :
    ∀ call ∈ inorder (plan tree row left right), row ≤ call.row ∧ call.row < row + levels ∧
      left ≤ call.column ∧ call.column + 2 ≤ left + 2 ^ levels := by
  induction tree generalizing levels row left right with
  | nil => nofun
  | node val leftTree rightTree ihLeft ihRight =>
    rw [BinaryTree.height] at hheight
    obtain ⟨levels, rfl⟩ := Nat.exists_eq_add_of_le' (Nat.le_of_add_left_le hheight)
    have hmiddle := hwide.middle
    have hpos : 0 < 2 ^ levels := Nat.two_pow_pos levels
    intro call hmem
    rw [plan, inorder_node, List.mem_append, List.mem_cons] at hmem
    rw [Nat.pow_succ]
    rcases hmem with hmem | rfl | hmem
    · have hcall := ihLeft (by omega) hwide.leftHalf call hmem
      omega
    · rw [Call.column]
      dsimp only
      omega
    · have hcall := ihRight (by omega) hwide.rightHalf call hmem
      omega

/-- From the left to the right the calls are in order. -/
theorem pairwise_columns (hheight : tree.height ≤ levels) (hwide : Wide levels left right) :
    (inorder (plan tree row left right)).Pairwise fun call other ↦ call.column < other.column := by
  induction tree generalizing levels row left right with
  | nil => exact .nil
  | node val leftTree rightTree ihLeft ihRight =>
    rw [BinaryTree.height] at hheight
    obtain ⟨levels, rfl⟩ := Nat.exists_eq_add_of_le' (Nat.le_of_add_left_le hheight)
    have hmiddle := hwide.middle
    have hleft : leftTree.height ≤ levels := by omega
    have hright : rightTree.height ≤ levels := by omega
    rw [plan, inorder_node, List.pairwise_append, List.pairwise_cons]
    refine ⟨ihLeft hleft hwide.leftHalf, ⟨fun other hother ↦ ?_, ihRight hright hwide.rightHalf⟩,
      fun call hcall other hother ↦ ?_⟩
    · have hbounds := plan_bounds hright hwide.rightHalf other hother
      change (left + right) / 2 < other.column
      omega
    · have hbefore := plan_bounds hleft hwide.leftHalf call hcall
      rcases List.mem_cons.mp hother with rfl | hother
      · change call.column < (left + right) / 2
        omega
      · have hbehind := plan_bounds hright hwide.rightHalf other hother
        omega

/-- The calls for every subtree write into the interval of the first one. -/
def Within : BinaryTree Call → Prop
  | .nil => True
  | .node call left right =>
    (∀ other ∈ inorder (.node call left right),
      call.left ≤ other.column ∧ other.column ≤ call.right) ∧ Within left ∧ Within right

theorem within_plan (hheight : tree.height ≤ levels) (hwide : Wide levels left right) :
    Within (plan tree row left right) := by
  induction tree generalizing levels row left right with
  | nil => trivial
  | node val leftTree rightTree ihLeft ihRight =>
    have hbounds := @plan_bounds (.node val leftTree rightTree) levels row left right hheight hwide
    rw [BinaryTree.height] at hheight
    obtain ⟨levels, rfl⟩ := Nat.exists_eq_add_of_le' (Nat.le_of_add_left_le hheight)
    refine ⟨fun other hother ↦ ?_, ihLeft (by omega) hwide.leftHalf,
      ihRight (by omega) hwide.rightHalf⟩
    have hother := hbounds other hother
    rw [Wide] at hwide
    dsimp only
    omega

theorem row_of_mem_level {depth : ℕ} {call : Call}
    (hmem : call ∈ level (plan tree row left right) depth) : call.row = row + depth := by
  induction tree generalizing row left right depth with
  | nil =>
    rw [plan, level_nil] at hmem
    cases hmem
  | node val leftTree rightTree ihLeft ihRight =>
    cases depth with
    | zero => rw [List.mem_singleton.mp hmem, Nat.add_zero]
    | succ depth =>
      rcases List.mem_append.mp hmem with hmem | hmem
      · rw [ihLeft hmem, Nat.add_right_comm, Nat.add_assoc]
      · rw [ihRight hmem, Nat.add_right_comm, Nat.add_assoc]

theorem map_val_plan (tree : BinaryTree ℤ) (row left right : ℕ) :
    (plan tree row left right).map Call.val = tree := by
  induction tree generalizing row left right with
  | nil => rfl
  | node val leftTree rightTree ihLeft ihRight =>
    rw [plan, BinaryTree.map, ihLeft, ihRight]

/-! ### The grid -/

/-- The text at a place. -/
def textAt (grid : Grid) (row column : ℕ) : Option String :=
  grid[row]?.bind fun texts ↦ texts[column]?

/-- What a call writes. -/
def Call.put (call : Call) (grid : Grid) : Grid :=
  grid.modify call.row fun line ↦ line.set call.column (toString call.val)

/-- What all calls write, in the order in which they are made. -/
def drawn : BinaryTree Call → Grid → Grid
  | .nil, grid => grid
  | .node call left right, grid => drawn right (drawn left (call.put grid))

/-- A grid of so many rows and columns. -/
structure Sized (grid : Grid) (rows columns : ℕ) : Prop where
  length_eq : grid.length = rows
  line_length : ∀ line ∈ grid, line.length = columns

variable {grid : Grid} {rows columns column : ℕ} {call : Call} {calls : BinaryTree Call}

theorem Sized.put (h : Sized grid rows columns) (call : Call) :
    Sized (call.put grid) rows columns := by
  refine ⟨(List.length_modify ..).trans h.length_eq, fun line hmem ↦ ?_⟩
  obtain ⟨row, hrow⟩ := List.mem_iff_getElem?.mp hmem
  rw [Call.put, List.getElem?_modify, Option.map_eq_map, Option.map_eq_some_iff] at hrow
  obtain ⟨before, hbefore, rfl⟩ := hrow
  have hlength := h.line_length before (List.mem_of_getElem? hbefore)
  split
  · rw [List.length_set, hlength]
  · exact hlength

theorem Sized.drawn (h : Sized grid rows columns) (calls : BinaryTree Call) :
    Sized (drawn calls grid) rows columns := by
  induction calls generalizing grid with
  | nil => exact h
  | node call left right ihLeft ihRight => exact ihRight (ihLeft (h.put call))

/-- There is a line for every row. -/
theorem Sized.exists_line (h : Sized grid rows columns) (hrow : row < rows) :
    ∃ line, grid[row]? = some line ∧ line.length = columns := by
  have hlt : row < grid.length := hrow.trans_eq h.length_eq.symm
  exact ⟨grid[row], List.getElem?_eq_getElem hlt, h.line_length _ (List.getElem_mem hlt)⟩

/-- A cell of the grid can be written. -/
theorem setCell_eq (h : Sized grid rows columns) (hrow : call.row < rows)
    (hcolumn : call.column < columns) :
    setCell grid call.row call.column (toString call.val) = some (call.put grid) := by
  obtain ⟨line, hline, hlength⟩ := h.exists_line hrow
  rw [setCell, hline, Option.bind_eq_bind, Option.bind_some, if_pos (hcolumn.trans_eq hlength.symm),
    Call.put, List.modify_eq_set_getElem?, hline]
  rfl

theorem textAt_put_self (h : Sized grid rows columns) (hrow : call.row < rows)
    (hcolumn : call.column < columns) :
    textAt (call.put grid) call.row call.column = some (toString call.val) := by
  obtain ⟨line, hline, hlength⟩ := h.exists_line hrow
  rw [textAt, Call.put, List.getElem?_modify_eq, hline, Option.map_eq_map, Option.map_some,
    Option.bind_some, List.getElem?_set_self (hcolumn.trans_eq hlength.symm)]

theorem textAt_put_of_ne (hne : call.row ≠ row ∨ call.column ≠ column) :
    textAt (call.put grid) row column = textAt grid row column := by
  rw [textAt, Call.put, List.getElem?_modify, Option.map_eq_map, textAt]
  cases grid[row]? with
  | none => rfl
  | some line =>
    rw [Option.map_some, Option.bind_some, Option.bind_some]
    rcases hne with hne | hne
    · rw [if_neg hne]
    · split
      · rw [List.getElem?_set_ne hne]
      · rfl

/-- What is not written stays. -/
theorem textAt_drawn_of_ne
    (hne : ∀ call ∈ inorder calls, call.row ≠ row ∨ call.column ≠ column) :
    textAt (drawn calls grid) row column = textAt grid row column := by
  induction calls generalizing grid with
  | nil => rfl
  | node call left right ihLeft ihRight =>
    rw [inorder_node, List.forall_mem_append, List.forall_mem_cons] at hne
    obtain ⟨hleft, hcall, hright⟩ := hne
    rw [drawn, ihRight hright, ihLeft hleft, textAt_put_of_ne hcall]

/-- Calls that write into different columns all have their values in the grid. -/
theorem textAt_drawn (h : Sized grid rows columns)
    (hcolumns : (inorder calls).Pairwise fun call other ↦ call.column < other.column)
    (hinside : ∀ call ∈ inorder calls, call.row < rows ∧ call.column < columns) :
    ∀ call ∈ inorder calls,
      textAt (drawn calls grid) call.row call.column = some (toString call.val) := by
  induction calls generalizing grid with
  | nil => nofun
  | node call left right ihLeft ihRight =>
    rw [inorder_node, List.pairwise_append, List.pairwise_cons] at hcolumns
    obtain ⟨hleft, ⟨hbehind, hright⟩, hbefore⟩ := hcolumns
    rw [inorder_node, List.forall_mem_append, List.forall_mem_cons] at hinside ⊢
    obtain ⟨hinLeft, ⟨hrow, hcolumn⟩, hinRight⟩ := hinside
    refine ⟨fun other hother ↦ ?_, ?_, fun other hother ↦ ?_⟩
    · rw [drawn, textAt_drawn_of_ne fun later hlater ↦ .inr
        (hbefore other hother later (List.mem_cons_of_mem _ hlater)).ne']
      exact ihLeft (h.put call) hleft hinLeft other hother
    · rw [drawn, textAt_drawn_of_ne fun later hlater ↦ .inr (hbehind later hlater).ne',
        textAt_drawn_of_ne fun earlier hearlier ↦ .inr
          (hbefore earlier hearlier call List.mem_cons_self).ne]
      exact textAt_put_self h hrow hcolumn
    · exact ihRight ((h.put call).drawn left) hright hinRight other hother

/-! ### The run -/

variable {placed : PlacedTree ℤ} {fuel : ℕ}

theorem maxDepth_spec (hholds : Holds heap placed) (hheight : placed.height < 2 ^ 31)
    (hfuel : placed.height < fuel) : maxDepth heap fuel (root placed) = some placed.height := by
  induction placed generalizing fuel with
  | nil =>
    obtain ⟨fuel, rfl⟩ := Nat.exists_eq_succ_of_ne_zero (Nat.ne_of_gt hfuel)
    rfl
  | node cell leftTree rightTree ihLeft ihRight =>
    obtain ⟨address, val⟩ := cell
    obtain ⟨fuel, rfl⟩ := Nat.exists_eq_succ_of_ne_zero (Nat.ne_of_gt (Nat.zero_lt_of_lt hfuel))
    rw [BinaryTree.height] at hheight hfuel ⊢
    have hleft := @ihLeft fuel hholds.leftTree (by omega) (by omega)
    have hright := @ihRight fuel hholds.rightTree (by omega) (by omega)
    rw [maxDepth, root_node, if_neg (Option.some_ne_none address), Heap.load_some, hholds.node_eq]
    simp only [Option.bind_eq_bind, Option.bind_some, hleft, hright]
    rw [toInt_of_lt (by omega), Nat.add_comm 1]

/-- A call draws its subtree, with its arguments in the grid and in an `int`. -/
theorem printTreeImpl_spec (hholds : Holds heap placed) (hheight : placed.height ≤ levels)
    (hwide : Wide levels left right) (hsized : Sized grid rows columns)
    (hrows : row + levels ≤ rows) (hrowsFit : rows < 31)
    (hcolumns : left + 2 ^ levels ≤ columns + 1) (hcolumnsFit : columns < 2 ^ 30)
    (hfuel : placed.height < fuel) :
    printTreeImpl heap fuel (root placed) row left right grid =
      some (drawn (plan (contents placed) row left right) grid) := by
  induction placed generalizing levels row left right grid fuel with
  | nil =>
    obtain ⟨fuel, rfl⟩ := Nat.exists_eq_succ_of_ne_zero (Nat.ne_of_gt hfuel)
    rfl
  | node cell leftTree rightTree ihLeft ihRight =>
    obtain ⟨address, val⟩ := cell
    obtain ⟨fuel, rfl⟩ := Nat.exists_eq_succ_of_ne_zero (Nat.ne_of_gt (Nat.zero_lt_of_lt hfuel))
    rw [BinaryTree.height] at hheight hfuel
    obtain ⟨levels, rfl⟩ := Nat.exists_eq_add_of_le' (Nat.le_of_add_left_le hheight)
    have hmiddle := hwide.middle
    have hpos : 0 < 2 ^ levels := Nat.two_pow_pos levels
    have hright : right < 2 ^ 30 := by
      rw [Wide] at hwide
      omega
    rw [Nat.pow_succ] at hcolumns
    have hput := @setCell_eq grid rows columns ⟨row, left, right, val⟩ hsized
      (by dsimp only; omega) (by rw [Call.column]; dsimp only; omega)
    have hsized' := hsized.put ⟨row, left, right, val⟩
    have hleftRun := ihLeft hholds.leftTree (by omega) hwide.leftHalf hsized'
      (by omega : row + 1 + levels ≤ rows) (by omega) (by omega : leftTree.height < fuel)
    have hrightRun := ihRight hholds.rightTree (by omega) hwide.rightHalf
      (hsized'.drawn (plan (contents leftTree) (row + 1) left ((left + right) / 2)))
      (by omega : row + 1 + levels ≤ rows) (by omega) (by omega : rightTree.height < fuel)
    have hsum : toInt (left + right) = some (left + right) := toInt_of_lt (by omega)
    have hnext : toInt (row + 1) = some (row + 1) := toInt_of_lt (by omega)
    have hmiddleFits : toInt ((left + right) / 2 + 1) = some ((left + right) / 2 + 1) :=
      toInt_of_lt (by omega)
    rw [Call.column] at hput
    rw [printTreeImpl, root_node, if_neg (Option.some_ne_none address), Heap.load_some,
      hholds.node_eq]
    simp only [Option.bind_eq_bind, Option.bind_some, hsum, hput, hnext, hleftRun, hmiddleFits,
      hrightRun]
    rfl

/-- The calls of a tree, and the grid that they write. -/
structure Printed (tree : BinaryTree ℤ) (calls : BinaryTree Call) (grid : Grid) : Prop where
  vals : calls.map Call.val = tree
  rows : ∀ depth, ∀ call ∈ level calls depth, call.row = depth
  columns : (inorder calls).Pairwise fun call other ↦ call.column < other.column
  within : Within calls
  inside : ∀ call ∈ inorder calls, call.row < tree.height ∧ call.column < 2 ^ tree.height - 1
  sized : Sized grid tree.height (2 ^ tree.height - 1)
  text : ∀ call ∈ inorder calls, textAt grid call.row call.column = some (toString call.val)
  rest : ∀ row < tree.height, ∀ column < 2 ^ tree.height - 1,
    (∀ call ∈ inorder calls, call.row ≠ row ∨ call.column ≠ column) →
      textAt grid row column = some ""

theorem sized_replicate (rows columns : ℕ) :
    Sized (List.replicate rows (List.replicate columns "")) rows columns := by
  refine ⟨List.length_replicate, fun line hmem ↦ ?_⟩
  rw [List.eq_of_mem_replicate hmem, List.length_replicate]

theorem textAt_replicate (hrow : row < rows) (hcolumn : column < columns) :
    textAt (List.replicate rows (List.replicate columns "")) row column = some "" := by
  rw [textAt, List.getElem?_replicate_of_lt hrow, Option.bind_some,
    List.getElem?_replicate_of_lt hcolumn]

/-- A tree with nodes has columns. -/
theorem two_le_pow_height {α : Type} {tree : BinaryTree α} (hne : tree ≠ .nil) :
    2 ≤ 2 ^ tree.height := by
  cases tree with
  | nil => exact absurd rfl hne
  | node val leftTree rightTree =>
    have hpos := Nat.two_pow_pos (max leftTree.height rightTree.height)
    rw [BinaryTree.height, Nat.pow_succ]
    omega

theorem printed_drawn (hne : tree ≠ .nil) :
    let calls := plan tree 0 0 (2 ^ tree.height - 1 - 1)
    Printed tree calls
      (drawn calls (List.replicate tree.height (List.replicate (2 ^ tree.height - 1) ""))) := by
  intro calls
  have htwo := two_le_pow_height hne
  have hwide : Wide tree.height 0 (2 ^ tree.height - 1 - 1) := .inr (by omega)
  have hsized := sized_replicate tree.height (2 ^ tree.height - 1)
  have hinside : ∀ call ∈ inorder calls,
      call.row < tree.height ∧ call.column < 2 ^ tree.height - 1 := by
    intro call hmem
    have hbounds := plan_bounds le_rfl hwide call hmem
    omega
  have hcolumns := @pairwise_columns tree _ 0 _ _ le_rfl hwide
  exact {
    vals := map_val_plan ..
    rows := fun depth call hmem ↦ (row_of_mem_level hmem).trans (Nat.zero_add depth)
    columns := hcolumns
    within := within_plan le_rfl hwide
    inside := hinside
    sized := hsized.drawn calls
    text := textAt_drawn hsized hcolumns hinside
    rest := fun row hrow column hcolumn hnone ↦
      (textAt_drawn_of_ne hnone).trans (textAt_replicate hrow hcolumn) }

/-- Every value is printed in the row of its depth, and no two of them in one column. -/
theorem printTree_spec (hholds : Holds heap placed) (hne : placed ≠ .nil)
    (hheight : placed.height < 31) (hfuel : placed.height < fuel) :
    ∃ grid, printTree heap fuel (root placed) = some grid ∧
      Printed (contents placed) (plan (contents placed) 0 0 (2 ^ placed.height - 1 - 1)) grid := by
  have hne' : contents placed ≠ .nil := by
    cases placed with
    | nil => exact absurd rfl hne
    | node cell leftTree rightTree => nofun
  have hprinted := printed_drawn hne'
  rw [height_contents] at hprinted
  refine ⟨_, ?_, hprinted⟩
  have htwo := two_le_pow_height hne
  have hmost : 2 ^ placed.height ≤ 2 ^ 30 :=
    Nat.pow_le_pow_right Nat.two_pos (Nat.le_of_lt_succ hheight)
  have hrun := @printTreeImpl_spec heap placed.height 0 0 (2 ^ placed.height - 1 - 1) _ _ _ placed
    fuel hholds le_rfl (.inr (by omega)) (sized_replicate placed.height (2 ^ placed.height - 1))
    (Nat.zero_add _).le hheight (by omega) (by omega) hfuel
  rw [printTree, maxDepth_spec hholds (hheight.trans (by decide)) hfuel]
  simp only [Option.bind_eq_bind, Option.bind_some, toInt_of_lt (hmost.trans_lt (by decide)),
    List.length_replicate, hrun]

theorem printTree_spec_four :
    let heap := (((Heap.empty.set 0 ⟨1, some 1, some 2⟩).set 1 ⟨2, none, some 3⟩).set 2
      ⟨3, none, none⟩).set 3 ⟨4, none, none⟩
    let tree := .node 1 (.node 2 .nil (.node 4 .nil .nil)) (.node 3 .nil .nil)
    ∃ grid, printTree heap 4 (some 0) = some grid ∧ Printed tree (plan tree 0 0 6) grid := by
  intro heap tree
  have hholds : Holds heap (.node (0, 1) (.node (1, 2) .nil (.node (3, 4) .nil .nil))
      (.node (2, 3) .nil .nil)) :=
    ⟨rfl, ⟨rfl, trivial, rfl, trivial, trivial⟩, rfl, trivial, trivial⟩
  exact printTree_spec hholds nofun (by decide) (by decide)

end CppLearn.Leetcode.PrintTree
