import CppLearn.Foundation.TreeLevels
import CppLearn.Foundation.VectorAccess

/-!
# Views of a tree by its levels

`levelOrder` and `zigzagLevelOrder` go over a tree with a queue, one level in each round.
`rightSideView` goes down, to the right first, and takes the first node of each depth. The nodes of
a level and the depths are counted in an `int`.
-/

set_option autoImplicit false
set_option relaxedAutoImplicit false

namespace CppLearn.Leetcode.LevelViews

open Foundation.HeapTree Foundation.NodeHeap Foundation.TreeLevels
open Foundation.VectorAccess (sizeToInt sizeToInt_of_lt sizeToInt_two_pow toInt toInt_of_lt
  toInt_of_le)

/-! ### The program -/

/-- `if (ptr != nullptr) unvisited.push(ptr)`. -/
def pushPresent (unvisited : List Ptr) (ptr : Ptr) : List Ptr :=
  if ptr ≠ none then unvisited ++ [ptr] else unvisited

variable (heap : Heap (TreeNode ℤ))

/-- One round of the inner loop of `levelOrder`: the value, and the queue. -/
def popPush (unvisited : List Ptr) : Option (ℤ × List Ptr) := do
  let ptr ← unvisited.head?
  let node ← heap.load ptr
  let unvisited := unvisited.tail
  let unvisited := pushPresent unvisited node.left
  let unvisited := pushPresent unvisited node.right
  return (node.val, unvisited)

/-- And of that of `zigzagLevelOrder`, which takes the node off the queue in the end. -/
def pushPop (unvisited : List Ptr) : Option (ℤ × List Ptr) := do
  let ptr ← unvisited.head?
  let node ← heap.load ptr
  let unvisited := pushPresent unvisited node.left
  let unvisited := pushPresent unvisited node.right
  return (node.val, unvisited.tail)

variable (round : List Ptr → Option (ℤ × List Ptr))

/-- The inner loop, with a limit on its rounds. -/
def levelLoop (lens : ℤ) : ℕ → ℕ → List Ptr → List ℤ → Option (List Ptr × List ℤ)
  | 0, _, _, _ => none
  | fuel + 1, cnt, unvisited, levelTraversals =>
    if cnt ≤ lens then do
      let (val, unvisited) ← round unvisited
      let cnt ← toInt (cnt + 1)
      levelLoop lens fuel cnt unvisited (levelTraversals ++ [val])
    else some (unvisited, levelTraversals)

/-- What one round of the outer loops finds, and the queue after it. -/
def nextLevel (unvisited : List Ptr) : Option (List Ptr × List ℤ) :=
  let lens := sizeToInt unvisited.length
  levelLoop round lens (lens.toNat + 1) 1 unvisited []

/-- The outer loop of `levelOrder`, with a limit on its rounds. -/
def levelOrderLoop : ℕ → List Ptr → List (List ℤ) → Option (List (List ℤ))
  | 0, _, _ => none
  | fuel + 1, unvisited, traversal =>
    if unvisited ≠ [] then do
      let (unvisited, levelTraversals) ← nextLevel round unvisited
      levelOrderLoop fuel unvisited (traversal ++ [levelTraversals])
    else some traversal

def levelOrder (fuel : ℕ) (root : Ptr) : Option (List (List ℤ)) :=
  if root = none then some [] else levelOrderLoop (popPush heap) fuel [root] []

/-- The outer loop of `zigzagLevelOrder`, with a limit on its rounds. -/
def zigzagLoop : ℕ → List Ptr → ℤ → List (List ℤ) → Option (List (List ℤ))
  | 0, _, _, _ => none
  | fuel + 1, unvisited, flag, traversal =>
    if unvisited ≠ [] then do
      let (unvisited, levelTraversals) ← nextLevel round unvisited
      let levelTraversals := if flag < 0 then levelTraversals.reverse else levelTraversals
      zigzagLoop fuel unvisited (flag * -1) (traversal ++ [levelTraversals])
    else some traversal

def zigzagLevelOrder (fuel : ℕ) (root : Ptr) : Option (List (List ℤ)) :=
  if root = none then some [] else zigzagLoop (pushPop heap) fuel [root] 1 []

/-- `rightSideViewImpl`, with a limit on the depth of its recursion: `depth` and `view` after it. -/
def rightSideViewImpl : ℕ → Ptr → ℕ → ℕ → List ℤ → Option (ℕ × List ℤ)
  | 0, _, _, _, _ => none
  | fuel + 1, root, curDepth, depth, view =>
    if root = none then some (depth, view)
    else do
      let node ← heap.load root
      let (depth, view) :=
        if curDepth > depth then (curDepth, view ++ [node.val]) else (depth, view)
      let next ← toInt (curDepth + 1)
      let (depth, view) ← rightSideViewImpl fuel node.right next depth view
      let next ← toInt (curDepth + 1)
      rightSideViewImpl fuel node.left next depth view

def rightSideView (fuel : ℕ) (root : Ptr) : Option (List ℤ) := do
  let (_, view) ← rightSideViewImpl heap fuel root 1 0 []
  return view

/-! ### One level -/

/-- The pointers to some trees. -/
def ptrs (forest : List (PlacedTree ℤ)) : List Ptr := forest.map root

variable {heap round} {tree : PlacedTree ℤ} {forest queue : List (PlacedTree ℤ)} {fuel : ℕ}

/-- The values at the roots. -/
def rootVals (forest : List (PlacedTree ℤ)) : List ℤ :=
  forest.flatMap fun tree ↦ (level tree 0).map Prod.snd

theorem pushPresent_eq (unvisited : List Ptr) (tree : PlacedTree ℤ) :
    pushPresent unvisited (root tree) = unvisited ++ ptrs (present tree) := by
  cases tree with
  | nil => simp [pushPresent, present, ptrs]
  | node cell left right => simp [pushPresent, present, ptrs, root]

/-- The trees of the queue are in the heap, and none is empty. -/
def Queued (heap : Heap (TreeNode ℤ)) (queue : List (PlacedTree ℤ)) : Prop :=
  ∀ tree ∈ queue, Holds heap tree ∧ tree ≠ .nil

/-- A round takes the first tree and puts its children behind the others. -/
def Rounds (heap : Heap (TreeNode ℤ)) (round : List Ptr → Option (ℤ × List Ptr)) : Prop :=
  ∀ (address : ℕ) (val : ℤ) (left right : PlacedTree ℤ) (queue : List (PlacedTree ℤ)),
    Holds heap (.node (address, val) left right) →
      round (some address :: ptrs queue) =
        some (val, ptrs (queue ++ (present left ++ present right)))

theorem popPush_rounds (heap : Heap (TreeNode ℤ)) : Rounds heap (popPush heap) := by
  intro address val left right queue hholds
  simp only [popPush, List.head?_cons, Heap.load_some, hholds.node_eq, Option.bind_eq_bind,
    Option.bind_some, pushPresent_eq, List.tail_cons, ptrs, List.map_append, List.append_assoc]
  rfl

theorem pushPop_rounds (heap : Heap (TreeNode ℤ)) : Rounds heap (pushPop heap) := by
  intro address val left right queue hholds
  simp only [pushPop, List.head?_cons, Heap.load_some, hholds.node_eq, Option.bind_eq_bind,
    Option.bind_some, pushPresent_eq, List.cons_append, List.tail_cons, ptrs, List.map_append,
    List.append_assoc]
  rfl

/-- The inner loop goes over the trees that are there. -/
theorem levelLoop_spec {lens : ℤ} {cnt : ℕ} {levelTraversals : List ℤ} (hround : Rounds heap round)
    (hqueued : Queued heap forest) (hcnt : (cnt + forest.length : ℤ) = lens + 1)
    (hlens : lens + 1 < 2 ^ 31) (hfuel : forest.length < fuel) :
    levelLoop round lens fuel cnt (ptrs (forest ++ queue)) levelTraversals =
      some (ptrs (queue ++ children forest), levelTraversals ++ rootVals forest) := by
  induction forest generalizing fuel cnt queue levelTraversals with
  | nil =>
    obtain ⟨fuel, rfl⟩ := Nat.exists_eq_succ_of_ne_zero (Nat.ne_of_gt hfuel)
    rw [levelLoop, if_neg (by rw [List.length_nil] at hcnt; omega)]
    simp [children, rootVals]
  | cons tree forest ih =>
    obtain ⟨fuel, rfl⟩ := Nat.exists_eq_succ_of_ne_zero (Nat.ne_of_gt (Nat.zero_lt_of_lt hfuel))
    obtain ⟨⟨hholds, hne⟩, hrest⟩ := List.forall_mem_cons.mp hqueued
    rw [List.length_cons] at hcnt hfuel
    push_cast at hcnt
    cases tree with
    | nil => exact absurd rfl hne
    | node cell left right =>
      obtain ⟨address, val⟩ := cell
      have hloop := @ih (queue ++ (present left ++ present right)) fuel (cnt + 1)
        (levelTraversals ++ [val]) hrest (by push_cast; omega) (Nat.lt_of_succ_lt_succ hfuel)
      have hstep := hround address val left right (forest ++ queue) hholds
      rw [levelLoop, if_pos (by omega), List.cons_append, ptrs, List.map_cons, root_node, ← ptrs,
        hstep]
      simp only [Option.bind_eq_bind, Option.bind_some, toInt_of_lt (by omega : cnt + 1 < 2 ^ 31)]
      rw [List.append_assoc, hloop]
      simp [children, rootVals, level_zero, List.append_assoc]

theorem queued_row (hholds : Holds heap tree) (depth : ℕ) : Queued heap (row tree depth) := by
  induction depth with
  | zero =>
    intro other hmem
    obtain ⟨rfl, hne⟩ := mem_present hmem
    exact ⟨hholds, hne⟩
  | succ depth ih =>
    intro other hmem
    obtain ⟨above, habove, hchild, hne⟩ := mem_children hmem
    have hheld := (ih _ habove).1
    rcases hchild with rfl | rfl
    · exact ⟨hheld.leftSide, hne⟩
    · exact ⟨hheld.rightSide, hne⟩

theorem rootVals_row (tree : PlacedTree ℤ) (depth : ℕ) :
    rootVals (row tree depth) = level (contents tree) depth := by
  rw [rootVals, ← List.map_flatMap, flatMap_root_row, contents, level_map]

theorem length_ptrs_row (tree : PlacedTree ℤ) (depth : ℕ) :
    (ptrs (row tree depth)).length = (level (contents tree) depth).length := by
  rw [ptrs, List.length_map, length_row, contents, level_map, List.length_map]

/-- A round of the outer loops goes from one row to the next one. -/
theorem nextLevel_row {depth : ℕ} (hround : Rounds heap round) (hholds : Holds heap tree)
    (hrow : (level (contents tree) depth).length < 2 ^ 31 - 1) :
    nextLevel round (ptrs (row tree depth)) =
      some (ptrs (row tree (depth + 1)), level (contents tree) depth) := by
  have hlens : sizeToInt (ptrs (row tree depth)).length = (level (contents tree) depth).length := by
    rw [sizeToInt_of_lt (by rw [length_ptrs_row]; omega), length_ptrs_row]
  have hlength : (row tree depth).length = (level (contents tree) depth).length := by
    rw [← length_ptrs_row, ptrs, List.length_map]
  have hloop := @levelLoop_spec _ _ (row tree depth) [] ((level (contents tree) depth).length + 1)
    (level (contents tree) depth).length 1 [] hround (queued_row hholds depth)
    (by push_cast; omega) (by omega) (by omega)
  rw [List.append_nil, List.nil_append, List.nil_append, rootVals_row] at hloop
  rw [nextLevel, hlens, Int.toNat_natCast, hloop, row]

theorem ptrs_row_eq_nil {depth : ℕ} : ptrs (row tree depth) = [] ↔ tree.height ≤ depth := by
  rw [ptrs, List.map_eq_nil_iff, row_eq_nil_iff]

/-! ### All levels -/

/-- What is seen of the levels from a depth on. -/
def shownFrom (shown : ℕ → List ℤ) (height depth : ℕ) : List (List ℤ) :=
  (List.range' depth (height - depth)).map shown

theorem shownFrom_zero (shown : ℕ → List ℤ) (height : ℕ) :
    shownFrom shown height 0 = (List.range height).map shown := by
  rw [shownFrom, Nat.sub_zero, ← List.range_eq_range']

theorem shownFrom_self (shown : ℕ → List ℤ) (height : ℕ) : shownFrom shown height height = [] := by
  rw [shownFrom, Nat.sub_self, List.range'_zero, List.map_nil]

theorem shownFrom_of_lt {shown : ℕ → List ℤ} {height depth : ℕ} (hlt : depth < height) :
    shownFrom shown height depth = shown depth :: shownFrom shown height (depth + 1) := by
  have hnow : height - depth = height - (depth + 1) + 1 := by omega
  rw [shownFrom, hnow, List.range'_succ, List.map_cons, shownFrom]

/-- Every level has fewer nodes than an `int` counts. -/
def NarrowRows (tree : BinaryTree ℤ) : Prop := ∀ depth, (level tree depth).length < 2 ^ 31 - 1

theorem levelOrderLoop_spec {depth : ℕ} {traversal : List (List ℤ)} (hround : Rounds heap round)
    (hholds : Holds heap tree) (hrows : NarrowRows (contents tree)) (hdepth : depth ≤ tree.height)
    (hfuel : tree.height < fuel + depth) :
    levelOrderLoop round fuel (ptrs (row tree depth)) traversal =
      some (traversal ++ shownFrom (level (contents tree)) tree.height depth) := by
  induction fuel generalizing depth traversal with
  | zero => omega
  | succ fuel ih =>
    rw [levelOrderLoop]
    rcases hdepth.eq_or_lt with rfl | hlt
    · rw [if_neg (not_not.mpr (ptrs_row_eq_nil.mpr le_rfl)), shownFrom_self, List.append_nil]
    · have hnext := @ih (depth + 1) (traversal ++ [level (contents tree) depth]) hlt (by omega)
      rw [if_pos fun hnil ↦ hlt.not_ge (ptrs_row_eq_nil.mp hnil),
        nextLevel_row hround hholds (hrows depth), Option.bind_eq_bind, Option.bind_some]
      dsimp only
      rw [hnext, shownFrom_of_lt hlt, List.append_assoc, List.singleton_append]

/-- Every second row is reversed. -/
def turned (depth : ℕ) (row : List ℤ) : List ℤ := if depth % 2 = 1 then row.reverse else row

/-- The sign of `flag` says which rows these are. -/
theorem zigzagLoop_spec {depth : ℕ} {flag : ℤ} {traversal : List (List ℤ)}
    (hround : Rounds heap round) (hholds : Holds heap tree) (hrows : NarrowRows (contents tree))
    (hflag : flag = if depth % 2 = 1 then -1 else 1) (hdepth : depth ≤ tree.height)
    (hfuel : tree.height < fuel + depth) :
    zigzagLoop round fuel (ptrs (row tree depth)) flag traversal =
      some (traversal ++
        shownFrom (fun depth ↦ turned depth (level (contents tree) depth)) tree.height depth) := by
  induction fuel generalizing depth flag traversal with
  | zero => omega
  | succ fuel ih =>
    rw [zigzagLoop]
    rcases hdepth.eq_or_lt with rfl | hlt
    · rw [if_neg (not_not.mpr (ptrs_row_eq_nil.mpr le_rfl)), shownFrom_self, List.append_nil]
    · have hsign : flag < 0 ↔ depth % 2 = 1 := by
        rw [hflag]
        split <;> omega
      have hnextFlag : flag * -1 = if (depth + 1) % 2 = 1 then -1 else 1 := by
        rw [hflag]
        split <;> split <;> omega
      have hnext := @ih (depth + 1) (flag * -1)
        (traversal ++ [turned depth (level (contents tree) depth)]) hnextFlag hlt (by omega)
      rw [if_pos fun hnil ↦ hlt.not_ge (ptrs_row_eq_nil.mp hnil),
        nextLevel_row hround hholds (hrows depth), Option.bind_eq_bind, Option.bind_some]
      dsimp only
      rw [turned] at hnext
      simp only [hsign]
      rw [hnext, shownFrom_of_lt hlt, List.append_assoc, List.singleton_append, turned]

theorem levelOrder_eq (hholds : Holds heap tree) (hrows : NarrowRows (contents tree))
    (hfuel : tree.height < fuel) :
    levelOrder heap fuel (root tree) = some (levels (contents tree)) := by
  cases tree with
  | nil => rfl
  | node cell left right =>
    obtain ⟨address, val⟩ := cell
    have hloop := @levelOrderLoop_spec _ _ _ _ 0 [] (popPush_rounds heap) hholds hrows
      (Nat.zero_le _) hfuel
    rw [levelOrder, root_node, if_neg (Option.some_ne_none address)]
    rwa [shownFrom_zero, List.nil_append, ← height_contents] at hloop

theorem mapIdx_levels (shown : ℕ → List ℤ → List ℤ) (tree : BinaryTree ℤ) :
    (levels tree).mapIdx shown =
      (List.range tree.height).map fun depth ↦ shown depth (level tree depth) := by
  refine List.ext_getElem (by simp [levels]) fun depth hleft hright ↦ ?_
  simp [levels]

theorem zigzagLevelOrder_eq (hholds : Holds heap tree) (hrows : NarrowRows (contents tree))
    (hfuel : tree.height < fuel) :
    zigzagLevelOrder heap fuel (root tree) = some ((levels (contents tree)).mapIdx turned) := by
  cases tree with
  | nil => rfl
  | node cell left right =>
    obtain ⟨address, val⟩ := cell
    have hloop := @zigzagLoop_spec _ _ _ _ 0 1 [] (pushPop_rounds heap) hholds hrows rfl
      (Nat.zero_le _) hfuel
    rw [zigzagLevelOrder, root_node, if_neg (Option.some_ne_none address), mapIdx_levels]
    rwa [shownFrom_zero, List.nil_append, ← height_contents] at hloop

/-! ### The right side -/

/-- The last values of the levels from a depth on. -/
def lastsFrom (tree : BinaryTree ℤ) (depth : ℕ) : List ℤ :=
  (List.range' depth (tree.height - depth)).filterMap fun depth ↦ (level tree depth).getLast?

/-- The right subtree hides the left one, as far as it goes down. -/
theorem lastsFrom_node (val : ℤ) (left right : BinaryTree ℤ) (depth : ℕ) :
    lastsFrom (.node val left right) (depth + 1) =
      lastsFrom right depth ++ lastsFrom left (max depth right.height) := by
  have hsplit : (BinaryTree.node val left right).height - (depth + 1) =
      (right.height - depth) + (left.height - max depth right.height) := by
    rw [BinaryTree.height]
    omega
  have hstart : depth + (right.height - depth) = max depth right.height := by omega
  rw [lastsFrom, hsplit, Nat.add_comm depth 1, ← List.map_add_range', List.filterMap_map,
    ← List.range'_append_1, List.filterMap_append, hstart, lastsFrom, lastsFrom]
  refine congrArg₂ (· ++ ·) (List.filterMap_congr fun below hmem ↦ ?_)
    (List.filterMap_congr fun below hmem ↦ ?_)
  · have hlt : below < right.height := by
      have := List.mem_range'_1.mp hmem
      omega
    have hne : level right below ≠ [] := fun hnil ↦ hlt.not_ge (level_eq_nil_iff.mp hnil)
    rw [Function.comp_apply, Nat.add_comm, level_succ, List.getLast?_append_of_ne_nil _ hne]
  · have hle : right.height ≤ below := by
      have := List.mem_range'_1.mp hmem
      omega
    rw [Function.comp_apply, Nat.add_comm, level_succ, level_eq_nil_iff.mpr hle, List.append_nil]

theorem lastsFrom_node_zero (val : ℤ) (left right : BinaryTree ℤ) :
    lastsFrom (.node val left right) 0 = val :: lastsFrom (.node val left right) 1 := by
  have hheight : (BinaryTree.node val left right).height - 0 =
      (BinaryTree.node val left right).height - 1 + 1 := by
    rw [BinaryTree.height]
    omega
  rw [lastsFrom, hheight, List.range'_succ, List.filterMap_cons, level_zero, lastsFrom]
  rfl

theorem lastsFrom_of_le {tree : BinaryTree ℤ} {depth : ℕ} (hle : tree.height ≤ depth) :
    lastsFrom tree depth = [] := by
  rw [lastsFrom, Nat.sub_eq_zero_of_le hle, List.range'_zero, List.filterMap_nil]

/-- The walk adds the last values of the levels that it gets to first. -/
theorem rightSideViewImpl_spec {above depth : ℕ} {view : List ℤ} (hholds : Holds heap tree)
    (habove : above ≤ depth) (hheight : above + tree.height + 1 < 2 ^ 31)
    (hfuel : tree.height < fuel) :
    rightSideViewImpl heap fuel (root tree) (above + 1) depth view =
      some (max depth (above + tree.height),
        view ++ lastsFrom (contents tree) (depth - above)) := by
  induction tree generalizing above depth view fuel with
  | nil =>
    obtain ⟨fuel, rfl⟩ := Nat.exists_eq_succ_of_ne_zero (Nat.ne_of_gt hfuel)
    have hnone : lastsFrom (contents .nil) (depth - above) = [] := lastsFrom_of_le (Nat.zero_le _)
    have hmax : max depth (above + (.nil : PlacedTree ℤ).height) = depth := by
      rw [BinaryTree.height]
      omega
    rw [hnone, List.append_nil, hmax]
    rfl
  | node cell left right ihLeft ihRight =>
    obtain ⟨address, val⟩ := cell
    obtain ⟨fuel, rfl⟩ := Nat.exists_eq_succ_of_ne_zero (Nat.ne_of_gt (Nat.zero_lt_of_lt hfuel))
    rw [BinaryTree.height] at hheight hfuel
    have hnext : toInt (above + 1 + 1) = some (above + 1 + 1) := toInt_of_lt (by omega)
    -- below a root that is seen, or hidden
    have hbelow : ∀ (depth : ℕ) (view : List ℤ), above + 1 ≤ depth →
        (do
          let (depth, view) ← rightSideViewImpl heap fuel (root right) (above + 1 + 1) depth view
          rightSideViewImpl heap fuel (root left) (above + 1 + 1) depth view) =
        some (max depth (above + (max left.height right.height + 1)), view ++
          lastsFrom (contents (.node (address, val) left right)) (depth - above)) := by
      intro depth view hseen
      obtain ⟨more, rfl⟩ := Nat.exists_eq_add_of_le hseen
      have hright := @ihRight fuel (above + 1) (above + 1 + more) view hholds.rightTree hseen
        (by omega) (by omega)
      have hleft := @ihLeft fuel (above + 1) (max (above + 1 + more) (above + 1 + right.height))
        (view ++ lastsFrom (contents right) more) hholds.leftTree (by omega) (by omega) (by omega)
      rw [Nat.add_sub_cancel_left] at hright
      have hhidden : max (above + 1 + more) (above + 1 + right.height) - (above + 1) =
          max more (contents right).height := by
        rw [height_contents]
        omega
      have hdepth : above + 1 + more - above = more + 1 := by omega
      have hmax : max (max (above + 1 + more) (above + 1 + right.height))
          (above + 1 + left.height) =
          max (above + 1 + more) (above + (max left.height right.height + 1)) := by omega
      rw [hright, Option.bind_eq_bind, Option.bind_some]
      dsimp only
      rw [hleft, hhidden, hmax, hdepth, contents_node, lastsFrom_node, List.append_assoc]
    rw [rightSideViewImpl, root_node, if_neg (Option.some_ne_none address), Heap.load_some,
      hholds.node_eq, Option.bind_eq_bind, Option.bind_some, BinaryTree.height]
    simp only [hnext, Option.bind_eq_bind, Option.bind_some]
    rcases habove.eq_or_lt with rfl | hlt
    · have hseen := hbelow (above + 1) (view ++ [val]) le_rfl
      have hmax : max (above + 1) (above + (max left.height right.height + 1)) =
          max above (above + (max left.height right.height + 1)) := by omega
      rw [Nat.add_sub_cancel_left, contents_node, List.append_assoc, List.singleton_append,
        ← lastsFrom_node_zero, hmax] at hseen
      rw [if_pos (Nat.lt_succ_self above), Nat.sub_self, contents_node]
      exact hseen
    · rw [if_neg (by omega)]
      exact hbelow depth view hlt

theorem map_some_lastsFrom_zero (tree : BinaryTree ℤ) :
    (lastsFrom tree 0).map some = (levels tree).map List.getLast? := by
  rw [lastsFrom, levels, Nat.sub_zero, ← List.range_eq_range', List.map_filterMap, List.map_map,
    ← List.filterMap_eq_map]
  refine List.filterMap_congr fun depth hmem ↦ ?_
  have hne : level tree depth ≠ [] := fun hnil ↦
    (List.mem_range.mp hmem).not_ge (level_eq_nil_iff.mp hnil)
  rw [List.getLast?_eq_some_getLast hne, Option.map_some, Function.comp_apply,
    Function.comp_apply, List.getLast?_eq_some_getLast hne]

theorem rightSideView_eq (hholds : Holds heap tree) (hheight : tree.height < 2 ^ 31 - 1)
    (hfuel : tree.height < fuel) :
    rightSideView heap fuel (root tree) = some (lastsFrom (contents tree) 0) := by
  have hview := @rightSideViewImpl_spec heap tree fuel 0 0 [] hholds le_rfl (by omega) hfuel
  rw [Nat.zero_add, Nat.sub_self, List.nil_append] at hview
  rw [rightSideView, hview]
  rfl

/-- The three views are those of the levels: all of them, every second one reversed, and the last
values. -/
theorem views_eq (hholds : Holds heap tree) (hfuel : tree.height < fuel) :
    (NarrowRows (contents tree) →
      levelOrder heap fuel (root tree) = some (levels (contents tree)) ∧
      zigzagLevelOrder heap fuel (root tree) = some ((levels (contents tree)).mapIdx turned)) ∧
    (tree.height < 2 ^ 31 - 1 → ∃ view, rightSideView heap fuel (root tree) = some view ∧
      view.map some = (levels (contents tree)).map List.getLast?) :=
  ⟨fun hrows ↦ ⟨levelOrder_eq hholds hrows hfuel, zigzagLevelOrder_eq hholds hrows hfuel⟩,
    fun hheight ↦ ⟨_, rightSideView_eq hholds hheight hfuel,
      map_some_lastsFrom_zero (contents tree)⟩⟩

theorem views_eq_four :
    let heap := (((Heap.empty.set 0 ⟨1, some 1, some 2⟩).set 1 ⟨2, none, some 3⟩).set 2
      ⟨3, none, none⟩).set 3 ⟨4, none, none⟩
    levelOrder heap 4 (some 0) = some [[1], [2, 3], [4]] ∧
      zigzagLevelOrder heap 4 (some 0) = some [[1], [3, 2], [4]] ∧
      ∃ view, rightSideView heap 4 (some 0) = some view ∧
        view.map some = [some 1, some 3, some 4] := by
  intro heap
  have hholds : Holds heap (.node (0, 1) (.node (1, 2) .nil (.node (3, 4) .nil .nil))
      (.node (2, 3) .nil .nil)) :=
    ⟨rfl, ⟨rfl, trivial, rfl, trivial, trivial⟩, rfl, trivial, trivial⟩
  obtain ⟨hrows, hview⟩ := @views_eq heap _ 4 hholds (by decide)
  obtain ⟨horder, hzigzag⟩ := hrows fun depth ↦
    (length_level_le _ depth).trans_lt (by decide)
  exact ⟨horder, hzigzag, hview (by decide)⟩

/-! ### Beyond an `int` -/

/-- A level of `2 ^ 31` nodes is never left: its size is negative as an `int`. -/
theorem levelOrderLoop_eq_none {depth : ℕ} {traversal : List (List ℤ)}
    (hround : Rounds heap round) (hholds : Holds heap tree)
    (hrows : ∀ depth < 31, (level (contents tree) depth).length < 2 ^ 31 - 1)
    (hrow : (level (contents tree) 31).length = 2 ^ 31) (hdepth : depth ≤ 31) (fuel : ℕ) :
    levelOrderLoop round fuel (ptrs (row tree depth)) traversal = none := by
  induction fuel generalizing depth traversal with
  | zero => rfl
  | succ fuel ih =>
    have hne : ptrs (row tree depth) ≠ [] := fun hnil ↦ by
      have hempty : level (contents tree) 31 = [] := level_eq_nil_iff.mpr <| by
        rw [height_contents]
        exact (ptrs_row_eq_nil.mp hnil).trans hdepth
      rw [hempty] at hrow
      exact absurd hrow (by decide)
    rw [levelOrderLoop, if_pos hne]
    rcases hdepth.eq_or_lt with rfl | hlt
    · have hlens : sizeToInt (ptrs (row tree 31)).length = -2 ^ 31 := by
        rw [length_ptrs_row, hrow, sizeToInt_two_pow]
      have hnext : nextLevel round (ptrs (row tree 31)) = some (ptrs (row tree 31), []) := by
        rw [nextLevel, hlens]
        rfl
      rw [hnext, Option.bind_eq_bind, Option.bind_some]
      exact ih le_rfl
    · rw [nextLevel_row hround hholds (hrows depth hlt), Option.bind_eq_bind, Option.bind_some]
      exact ih hlt

/-- Nor is there a view of a tree so high that the depths below its last level do not fit. -/
theorem rightSideViewImpl_eq_none {above depth : ℕ} {view : List ℤ} (hholds : Holds heap tree)
    (hne : tree ≠ .nil) (hheight : 2 ^ 31 ≤ above + tree.height + 1) (fuel : ℕ) :
    rightSideViewImpl heap fuel (root tree) (above + 1) depth view = none := by
  induction tree generalizing above depth view fuel with
  | nil => exact absurd rfl hne
  | node cell left right ihLeft ihRight =>
    obtain ⟨address, val⟩ := cell
    cases fuel with
    | zero => rfl
    | succ fuel =>
      rw [BinaryTree.height] at hheight
      rw [rightSideViewImpl, root_node, if_neg (Option.some_ne_none address), Heap.load_some,
        hholds.node_eq, Option.bind_eq_bind, Option.bind_some]
      dsimp only
      by_cases hfits : above + 1 + 1 < 2 ^ 31
      · simp only [toInt_of_lt hfits, Option.bind_eq_bind, Option.bind_some]
        generalize (if above + 1 > depth then (above + 1, view ++ [val]) else (depth, view)) = seen
        rcases le_total left.height right.height with hle | hle
        · have hright : right ≠ .nil := by
            rintro rfl
            rw [max_eq_right hle, BinaryTree.height] at hheight
            omega
          rw [ihRight hholds.rightTree hright (by omega), Option.bind_none]
        · have hleft : left ≠ .nil := by
            rintro rfl
            rw [max_eq_left hle, BinaryTree.height] at hheight
            omega
          cases rightSideViewImpl heap fuel (root right) (above + 1 + 1) seen.1 seen.2 with
          | none => rfl
          | some after => exact ihLeft hholds.leftTree hleft (by omega) fuel
      · rw [toInt_of_le (by omega)]
        rfl

/-- Some trees are too wide, others too high. -/
theorem views_eq_none :
    (∃ (heap : Heap (TreeNode ℤ)) (root : Ptr), Stores heap root (perfect 0 32) ∧
      ∀ fuel, levelOrder heap fuel root = none) ∧
    ∃ (heap : Heap (TreeNode ℤ)) (root : Ptr), Stores heap root (chain 0 (2 ^ 31 - 1)) ∧
      ∀ fuel, rightSideView heap fuel root = none := by
  refine ⟨?_, ?_⟩
  · obtain ⟨tree, heap, hplanted, hcontents⟩ := exists_planted .empty (perfect (0 : ℤ) 32)
    refine ⟨heap, root tree, ⟨tree, rfl, hplanted.holds, hplanted.nodup, hcontents⟩, fun fuel ↦ ?_⟩
    have hrows : ∀ depth < 31, (level (contents tree) depth).length < 2 ^ 31 - 1 := by
      intro depth hdepth
      rw [hcontents, length_level_perfect 0 (hdepth.trans (by decide))]
      exact (Nat.pow_le_pow_right (by decide) (Nat.le_of_lt_succ hdepth)).trans_lt (by decide)
    have hrow : (level (contents tree) 31).length = 2 ^ 31 := by
      rw [hcontents, length_level_perfect 0 (by decide)]
    have hloop := @levelOrderLoop_eq_none _ _ _ 0 [] (popPush_rounds heap) hplanted.holds hrows
      hrow (Nat.zero_le 31) fuel
    cases tree with
    | nil => cases hcontents
    | node cell left right =>
      obtain ⟨address, val⟩ := cell
      rw [levelOrder, root_node, if_neg (Option.some_ne_none address)]
      exact hloop
  · obtain ⟨tree, heap, hplanted, hcontents⟩ := exists_planted .empty (chain (0 : ℤ) (2 ^ 31 - 1))
    refine ⟨heap, root tree, ⟨tree, rfl, hplanted.holds, hplanted.nodup, hcontents⟩, fun fuel ↦ ?_⟩
    have hheight : tree.height = 2 ^ 31 - 1 := by
      rw [← height_contents, hcontents, height_chain]
    have hne : tree ≠ .nil := by
      rintro rfl
      rw [BinaryTree.height] at hheight
      omega
    rw [rightSideView, rightSideViewImpl_eq_none hplanted.holds hne (by omega) fuel]
    rfl

end CppLearn.Leetcode.LevelViews
