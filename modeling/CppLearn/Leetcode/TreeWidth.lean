import CppLearn.Foundation.RunningBounds
import CppLearn.Foundation.TreeSlots
import CppLearn.Foundation.VectorAccess

/-!
# The maximum width of a tree

`widthOfBinaryTree` goes from level to level with a queue that has null pointers for the nodes that
are missing, and cuts them off at both ends. `widthOfBinaryTreeStoreIndex` keeps with each node its
index in the level instead. The index doubles with each level, in an `int`.
-/

set_option autoImplicit false
set_option relaxedAutoImplicit false

namespace CppLearn.Leetcode.TreeWidth

open Foundation.HeapTree Foundation.NodeHeap Foundation.TreeLevels Foundation.TreeSlots
open Foundation.RunningBounds (isLeast_foldl_min isGreatest_foldl_max)
open Foundation.VectorAccess (sizeToInt sizeToInt_of_lt toInt toInt_of_lt toInt_of_le wrapInt
  wrapInt_of_fits)

/-! ### The program -/

variable (heap : Heap (TreeNode ℤ))

/-- `ptr ? ptr->left : ptr`, and the same on the right. -/
def childOf (child : TreeNode ℤ → Ptr) (ptr : Ptr) : Option Ptr :=
  if ptr ≠ none then (heap.load ptr).map child else some ptr

/-- The inner loop of `widthOfBinaryTree`, with a limit on its rounds. -/
def rowLoop (lens : ℤ) : ℕ → ℕ → List Ptr → Option (List Ptr)
  | 0, _, _ => none
  | fuel + 1, cnt, unvisited =>
    if cnt ≤ lens then do
      let ptr ← unvisited.head?
      let left ← childOf heap TreeNode.left ptr
      let unvisited := unvisited ++ [left]
      let right ← childOf heap TreeNode.right ptr
      let unvisited := unvisited ++ [right]
      let cnt ← toInt (cnt + 1)
      rowLoop lens fuel cnt unvisited.tail
    else some unvisited

/-- The two loops that trim null pointers. -/
def trim (unvisited : List Ptr) : List Ptr :=
  (unvisited.dropWhile Option.isNone).rdropWhile Option.isNone

/-- The outer loop of `widthOfBinaryTree`, with a limit on its rounds. -/
def widthLoop : ℕ → List Ptr → ℤ → Option ℤ
  | 0, _, _ => none
  | fuel + 1, unvisited, width =>
    if unvisited ≠ [] then do
      let lens := sizeToInt unvisited.length
      let width := max width lens
      let unvisited ← rowLoop heap lens (lens.toNat + 1) 1 unvisited
      widthLoop fuel (trim unvisited) width
    else some width

def widthOfBinaryTree (fuel : ℕ) (root : Ptr) : Option ℤ :=
  if root = none then some 0 else widthLoop heap fuel [root] 0

/-- `if (ptr != nullptr) unvisited.push(make_pair(ptr, index))`. -/
def pushChild (unvisited : List (Ptr × ℤ)) (ptr : Ptr) (index : ℤ) : List (Ptr × ℤ) :=
  if ptr ≠ none then unvisited ++ [(ptr, index)] else unvisited

/-- The inner loop of `widthOfBinaryTreeStoreIndex`, with a limit on its rounds. -/
def indexLoop (lens : ℤ) :
    ℕ → ℕ → List (Ptr × ℤ) → ℤ → ℤ → Option (List (Ptr × ℤ) × ℤ × ℤ)
  | 0, _, _, _, _ => none
  | fuel + 1, cnt, unvisited, lmostpos, rmostpos =>
    if cnt ≤ lens then do
      let elem ← unvisited.head?
      let unvisited := unvisited.tail
      let node ← heap.load elem.1
      let unvisited := pushChild unvisited node.left (wrapInt (elem.2 * 2))
      let unvisited := pushChild unvisited node.right (wrapInt (wrapInt (elem.2 * 2) + 1))
      let cnt ← toInt (cnt + 1)
      indexLoop lens fuel cnt unvisited (min lmostpos elem.2) (max rmostpos elem.2)
    else some (unvisited, lmostpos, rmostpos)

/-- The outer loop of `widthOfBinaryTreeStoreIndex`, with a limit on its rounds. -/
def storeIndexLoop : ℕ → List (Ptr × ℤ) → ℤ → Option ℤ
  | 0, _, _ => none
  | fuel + 1, unvisited, width =>
    if unvisited ≠ [] then do
      let lens := sizeToInt unvisited.length
      let (unvisited, lmostpos, rmostpos) ←
        indexLoop heap lens (lens.toNat + 1) 1 unvisited (2 ^ 31 - 1) (-2 ^ 31)
      storeIndexLoop fuel unvisited (max width (wrapInt (wrapInt (rmostpos - lmostpos) + 1)))
    else some width

def widthOfBinaryTreeStoreIndex (fuel : ℕ) (root : Ptr) : Option ℤ :=
  if root = none then some 0 else storeIndexLoop heap fuel [(root, 0)] 0

/-! ### Rows with null pointers -/

/-- The pointers to some trees. -/
def ptrs (forest : List (PlacedTree ℤ)) : List Ptr := forest.map root

variable {heap} {tree : PlacedTree ℤ} {forest queue : List (PlacedTree ℤ)} {fuel depth : ℕ}

theorem childOf_root (hholds : Holds heap tree) :
    childOf heap TreeNode.left (root tree) = some (root tree.left) ∧
      childOf heap TreeNode.right (root tree) = some (root tree.right) := by
  cases tree with
  | nil => exact ⟨rfl, rfl⟩
  | node cell left right =>
    obtain ⟨address, val⟩ := cell
    simp [childOf, hholds.node_eq, BinaryTree.left, BinaryTree.right]

/-- A round puts the children of the first tree behind the others. -/
theorem rowLoop_step {lens : ℤ} {cnt : ℕ} (hholds : Holds heap tree) (hcnt : cnt ≤ lens) :
    rowLoop heap lens (fuel + 1) cnt (ptrs (tree :: queue)) =
      (toInt (cnt + 1)).bind fun cnt ↦
        rowLoop heap lens fuel cnt (ptrs (queue ++ [tree.left, tree.right])) := by
  obtain ⟨hleft, hright⟩ := childOf_root hholds
  rw [rowLoop, if_pos hcnt, ptrs, List.map_cons]
  simp only [List.head?_cons, Option.bind_eq_bind, Option.bind_some, hleft, hright]
  simp [ptrs]

/-- The inner loop has the children of the row in its place. -/
theorem rowLoop_spec {lens : ℤ} {cnt : ℕ} (hholds : ∀ tree ∈ forest, Holds heap tree)
    (hcnt : (cnt + forest.length : ℤ) = lens + 1) (hlens : lens + 1 < 2 ^ 31)
    (hfuel : forest.length < fuel) :
    rowLoop heap lens fuel cnt (ptrs (forest ++ queue)) = some (ptrs (queue ++ below forest)) := by
  induction forest generalizing fuel cnt queue with
  | nil =>
    obtain ⟨fuel, rfl⟩ := Nat.exists_eq_succ_of_ne_zero (Nat.ne_of_gt hfuel)
    rw [rowLoop, if_neg (by rw [List.length_nil] at hcnt; omega)]
    simp [below]
  | cons tree forest ih =>
    obtain ⟨fuel, rfl⟩ := Nat.exists_eq_succ_of_ne_zero (Nat.ne_of_gt (Nat.zero_lt_of_lt hfuel))
    obtain ⟨htree, hrest⟩ := List.forall_mem_cons.mp hholds
    rw [List.length_cons] at hcnt hfuel
    push_cast at hcnt
    have hloop := @ih (queue ++ [tree.left, tree.right]) fuel (cnt + 1) hrest
      (by push_cast; omega) (Nat.lt_of_succ_lt_succ hfuel)
    rw [List.cons_append, rowLoop_step htree (by omega), toInt_of_lt (by omega), Option.bind_some,
      List.append_assoc, hloop, below_cons, List.append_assoc]

/-- Counting to `2 ^ 31` it does not end. -/
theorem rowLoop_eq_none {lens : ℤ} {cnt : ℕ} (hholds : ∀ tree ∈ forest, Holds heap tree)
    (hcnt : (cnt + forest.length : ℤ) = lens + 1) (hlens : 2 ^ 31 ≤ lens + 1)
    (hne : forest ≠ []) :
    rowLoop heap lens fuel cnt (ptrs (forest ++ queue)) = none := by
  induction forest generalizing fuel cnt queue with
  | nil => exact absurd rfl hne
  | cons tree forest ih =>
    cases fuel with
    | zero => rfl
    | succ fuel =>
      obtain ⟨htree, hrest⟩ := List.forall_mem_cons.mp hholds
      rw [List.length_cons] at hcnt
      push_cast at hcnt
      rw [List.cons_append, rowLoop_step htree (by omega)]
      by_cases hlast : forest = []
      · subst hlast
        rw [List.length_nil] at hcnt
        rw [toInt_of_le (by omega), Option.bind_none]
      · rcases Nat.lt_or_ge (cnt + 1) (2 ^ 31) with hfits | hover
        · rw [toInt_of_lt hfits, Option.bind_some, List.append_assoc]
          exact ih hrest (by push_cast; omega) hlast
        · rw [toInt_of_le hover, Option.bind_none]

theorem isNone_root (tree : PlacedTree ℤ) : (root tree).isNone = isNil tree := by
  cases tree with
  | nil => rfl
  | node cell left right => rfl

/-- The trees of a row that has been trimmed. -/
def trimmed (forest : List (PlacedTree ℤ)) : List (PlacedTree ℤ) :=
  (forest.dropWhile isNil).rdropWhile isNil

theorem trim_ptrs (forest : List (PlacedTree ℤ)) : trim (ptrs forest) = ptrs (trimmed forest) := by
  have hroot : Option.isNone ∘ root = (isNil : PlacedTree ℤ → Bool) := funext isNone_root
  rw [trim, ptrs, trimmed, ptrs, List.dropWhile_map, hroot, List.rdropWhile, ← List.map_reverse,
    List.dropWhile_map, hroot, ← List.map_reverse, List.rdropWhile]

/-- The row is that of the trees at a depth, with none missing at its ends. -/
structure RowAt (heap : Heap (TreeNode ℤ)) (tree : PlacedTree ℤ) (depth : ℕ)
    (forest : List (PlacedTree ℤ)) : Prop where
  holds : ∀ other ∈ forest, Holds heap other
  first : ∀ other ∈ forest.head?, other ≠ .nil
  last : ∀ other ∈ forest.getLast?, other ≠ .nil
  slots : ∃ slot, ∀ below, slotsBelow (forest.zipIdx slot) below = slots tree (depth + below)

theorem RowAt.length_eq (h : RowAt heap tree depth forest) : forest.length = width tree depth := by
  obtain ⟨slot, hslots⟩ := h.slots
  rw [← span_slotsBelow slot h.first h.last, hslots, Nat.add_zero, width]

theorem RowAt.eq_nil_iff (h : RowAt heap tree depth forest) :
    forest = [] ↔ tree.height ≤ depth := by
  rw [← width_eq_zero_iff, ← h.length_eq, List.length_eq_zero_iff]

theorem rowAt_zero (hholds : Holds heap tree) (hne : tree ≠ .nil) : RowAt heap tree 0 [tree] := by
  refine ⟨?_, ?_, ?_, 0, fun below ↦ ?_⟩
  · rintro other hmem
    rwa [List.mem_singleton.mp hmem]
  · rintro other ⟨rfl⟩
    exact hne
  · rintro other ⟨rfl⟩
    exact hne
  · rw [List.zipIdx_singleton, slotsBelow_root, Nat.zero_add]

theorem mem_below {other : PlacedTree ℤ} (hmem : other ∈ below forest) :
    ∃ tree ∈ forest, other = tree.left ∨ other = tree.right := by
  obtain ⟨tree, htree, hmem⟩ := List.mem_flatMap.mp hmem
  rw [List.mem_pair] at hmem
  exact ⟨tree, htree, hmem⟩

theorem first_trimmed (forest : List (PlacedTree ℤ)) :
    ∀ other ∈ (trimmed forest).head?, other ≠ .nil := by
  intro other hhead hnil
  obtain ⟨rest, hrest⟩ := List.rdropWhile_prefix isNil (forest.dropWhile isNil)
  have hother : (forest.dropWhile isNil).head? = some other := by
    rw [← hrest, List.head?_append, ← trimmed, hhead]
    rfl
  have hnot := List.head?_dropWhile_not isNil forest
  rw [hother] at hnot
  exact Bool.false_ne_true (hnot.symm.trans (isNil_iff.mpr hnil))

theorem last_trimmed (forest : List (PlacedTree ℤ)) :
    ∀ other ∈ (trimmed forest).getLast?, other ≠ .nil := by
  intro other hlast hnil
  obtain ⟨hne, hother⟩ := List.mem_getLast?_eq_getLast hlast
  exact List.rdropWhile_last_not isNil (forest.dropWhile isNil) hne
    (hother ▸ isNil_iff.mpr hnil)

/-- The children of a row, trimmed, are the next one. -/
theorem RowAt.next (h : RowAt heap tree depth forest) :
    RowAt heap tree (depth + 1) (trimmed (below forest)) := by
  refine ⟨fun other hmem ↦ ?_, first_trimmed _, last_trimmed _, ?_⟩
  · have hsublist : (trimmed (below forest)).Sublist (below forest) :=
      (List.rdropWhile_prefix isNil _).sublist.trans (List.dropWhile_sublist isNil)
    obtain ⟨above, habove, rfl | rfl⟩ := mem_below (hsublist.subset hmem)
    · exact (h.holds above habove).leftSide
    · exact (h.holds above habove).rightSide
  · obtain ⟨slot, hslots⟩ := h.slots
    obtain ⟨slot', hslot'⟩ := exists_dropWhile (below forest) (slot * 2)
    refine ⟨slot', fun deeper ↦ ?_⟩
    rw [trimmed, slotsBelow_rdropWhile, hslot', ← grown_zipIdx, slotsBelow_grown, hslots,
      Nat.add_right_comm, Nat.add_assoc]

/-! ### All widths -/

/-- The greatest value of a function from a depth on. -/
def widest (shown : ℕ → ℤ) (height depth : ℕ) (sofar : ℤ) : ℤ :=
  (List.range' depth (height - depth)).foldl (fun width depth ↦ max width (shown depth)) sofar

theorem widest_self (shown : ℕ → ℤ) (height : ℕ) (sofar : ℤ) :
    widest shown height height sofar = sofar := by
  rw [widest, Nat.sub_self, List.range'_zero, List.foldl_nil]

theorem widest_of_lt {shown : ℕ → ℤ} {height depth : ℕ} (hlt : depth < height) (sofar : ℤ) :
    widest shown height depth sofar =
      widest shown height (depth + 1) (max sofar (shown depth)) := by
  have hnow : height - depth = height - (depth + 1) + 1 := by omega
  rw [widest, hnow, List.range'_succ, List.foldl_cons, widest]

theorem widthLoop_spec {sofar : ℤ} (hrow : RowAt heap tree depth forest)
    (hwidth : maxWidth tree < 2 ^ 31 - 1) (hdepth : depth ≤ tree.height)
    (hfuel : tree.height < fuel + depth) :
    widthLoop heap fuel (ptrs forest) sofar =
      some (widest (fun depth ↦ (width tree depth : ℤ)) tree.height depth sofar) := by
  induction fuel generalizing depth forest sofar with
  | zero => omega
  | succ fuel ih =>
    have hnil : ptrs forest = [] ↔ tree.height ≤ depth := by
      rw [ptrs, List.map_eq_nil_iff, hrow.eq_nil_iff]
    rw [widthLoop]
    rcases hdepth.eq_or_lt with rfl | hlt
    · rw [if_neg (not_not.mpr (hnil.mpr le_rfl)), widest_self]
    · have hlength : (ptrs forest).length = width tree depth := by
        rw [ptrs, List.length_map, hrow.length_eq]
      have hle := width_le_maxWidth tree depth
      have hlens : sizeToInt (ptrs forest).length = width tree depth := by
        rw [sizeToInt_of_lt (by omega), hlength]
      have hloop := @rowLoop_spec heap forest [] (width tree depth + 1) (width tree depth) 1
        hrow.holds (by rw [hrow.length_eq]; push_cast; omega) (by omega)
        (by rw [hrow.length_eq]; omega)
      have hnext := @ih _ (depth + 1) (max sofar (width tree depth)) hrow.next hlt (by omega)
      rw [List.append_nil, List.nil_append] at hloop
      rw [if_pos fun hempty ↦ hlt.not_ge (hnil.mp hempty), hlens]
      dsimp only
      rw [Int.toNat_natCast, hloop, Option.bind_eq_bind, Option.bind_some, trim_ptrs, hnext,
        widest_of_lt hlt]

/-- A level of `2 ^ 31 - 1` slots is too wide to count. -/
theorem widthLoop_eq_none {sofar : ℤ} {widestDepth : ℕ} (hrow : RowAt heap tree depth forest)
    (hwidth : maxWidth tree = 2 ^ 31 - 1) (hwidest : width tree widestDepth = maxWidth tree)
    (hdepth : depth ≤ widestDepth) : widthLoop heap fuel (ptrs forest) sofar = none := by
  induction fuel generalizing depth forest sofar with
  | zero => rfl
  | succ fuel ih =>
    have hhigh : widestDepth < tree.height := by
      by_contra hnot
      rw [width_eq_zero_iff.mpr (Nat.le_of_not_lt hnot), hwidth] at hwidest
      exact absurd hwidest (by decide)
    have hne : forest ≠ [] := fun hnil ↦
      absurd (hrow.eq_nil_iff.mp hnil) (Nat.not_le.mpr (hdepth.trans_lt hhigh))
    have hlength : (ptrs forest).length = width tree depth := by
      rw [ptrs, List.length_map, hrow.length_eq]
    have hle := width_le_maxWidth tree depth
    have hlens : sizeToInt (ptrs forest).length = width tree depth := by
      rw [sizeToInt_of_lt (by omega), hlength]
    rw [widthLoop, if_pos (by rwa [Ne, ptrs, List.map_eq_nil_iff]), hlens]
    dsimp only
    rw [Int.toNat_natCast]
    rcases hle.eq_or_lt with heq | hlt
    · have hloop := @rowLoop_eq_none heap forest [] (width tree depth + 1) (width tree depth) 1
        hrow.holds (by rw [hrow.length_eq]; push_cast; omega) (by omega) hne
      rw [List.append_nil] at hloop
      rw [hloop]
      rfl
    · have hloop := @rowLoop_spec heap forest [] (width tree depth + 1) (width tree depth) 1
        hrow.holds (by rw [hrow.length_eq]; push_cast; omega) (by omega)
        (by rw [hrow.length_eq]; omega)
      have hmore : depth ≠ widestDepth := by
        rintro rfl
        omega
      rw [List.append_nil, List.nil_append] at hloop
      rw [hloop, Option.bind_eq_bind, Option.bind_some, trim_ptrs]
      exact ih hrow.next (by omega)

/-! ### Indices -/

/-- The queue with the indices that the slots have in an `int`. -/
def entries (row : List (PlacedTree ℤ × ℕ)) : List (Ptr × ℤ) :=
  row.map fun entry ↦ (root entry.1, wrapInt entry.2)

variable {row later : List (PlacedTree ℤ × ℕ)}

theorem pushChild_eq (unvisited : List (Ptr × ℤ)) (tree : PlacedTree ℤ) (slot : ℕ) :
    pushChild unvisited (root tree) (wrapInt slot) =
      unvisited ++ entries (occupied [(tree, slot)]) := by
  cases tree with
  | nil => simp [pushChild, entries, occupied, present]
  | node cell left right => simp [pushChild, entries, occupied, present, root]

theorem wrapInt_left (slot : ℕ) : wrapInt (wrapInt slot * 2) = wrapInt (slot * 2 : ℕ) := by
  rw [wrapInt, wrapInt, Int.bmod_mul_bmod, wrapInt]
  push_cast
  rfl

theorem wrapInt_right (slot : ℕ) :
    wrapInt (wrapInt (slot * 2 : ℕ) + 1) = wrapInt (slot * 2 + 1 : ℕ) := by
  rw [wrapInt, wrapInt, Int.bmod_add_bmod, wrapInt]
  push_cast
  rfl

/-- The least and the greatest index seen, as the inner loop keeps them. -/
def lmostOf (lmostpos : ℤ) (row : List ℕ) : ℤ :=
  (row.map fun slot : ℕ ↦ wrapInt slot).foldl min lmostpos

def rmostOf (rmostpos : ℤ) (row : List ℕ) : ℤ :=
  (row.map fun slot : ℕ ↦ wrapInt slot).foldl max rmostpos

theorem lmostOf_cons (lmostpos : ℤ) (slot : ℕ) (row : List ℕ) :
    lmostOf lmostpos (slot :: row) = lmostOf (min lmostpos (wrapInt slot)) row := by
  rw [lmostOf, List.map_cons, List.foldl_cons, lmostOf]

theorem rmostOf_cons (rmostpos : ℤ) (slot : ℕ) (row : List ℕ) :
    rmostOf rmostpos (slot :: row) = rmostOf (max rmostpos (wrapInt slot)) row := by
  rw [rmostOf, List.map_cons, List.foldl_cons, rmostOf]

theorem indexLoop_step {lens lmostpos rmostpos index : ℤ} {cnt address : ℕ} {node : TreeNode ℤ}
    {unvisited : List (Ptr × ℤ)} (hnode : heap.node address = some node) (hcnt : cnt ≤ lens) :
    indexLoop heap lens (fuel + 1) cnt ((some address, index) :: unvisited) lmostpos rmostpos =
      (toInt (cnt + 1)).bind fun cnt ↦ indexLoop heap lens fuel cnt
        (pushChild (pushChild unvisited node.left (wrapInt (index * 2))) node.right
          (wrapInt (wrapInt (index * 2) + 1))) (min lmostpos index) (max rmostpos index) := by
  rw [indexLoop, if_pos hcnt]
  simp only [List.head?_cons, List.tail_cons, Option.bind_eq_bind, Option.bind_some,
    Heap.load_some, hnode]

theorem indexLoop_spec {lens lmostpos rmostpos : ℤ} {cnt : ℕ}
    (hrow : ∀ entry ∈ row, Holds heap entry.1 ∧ entry.1 ≠ .nil)
    (hcnt : (cnt + row.length : ℤ) = lens + 1) (hlens : lens + 1 < 2 ^ 31)
    (hfuel : row.length < fuel) :
    indexLoop heap lens fuel cnt (entries (row ++ later)) lmostpos rmostpos =
      some (entries (later ++ occupied (grown row)), lmostOf lmostpos (row.map Prod.snd),
        rmostOf rmostpos (row.map Prod.snd)) := by
  induction row generalizing fuel cnt later lmostpos rmostpos with
  | nil =>
    obtain ⟨fuel, rfl⟩ := Nat.exists_eq_succ_of_ne_zero (Nat.ne_of_gt hfuel)
    rw [indexLoop, if_neg (by rw [List.length_nil] at hcnt; omega)]
    simp [grown, occupied, lmostOf, rmostOf]
  | cons entry row ih =>
    obtain ⟨fuel, rfl⟩ := Nat.exists_eq_succ_of_ne_zero (Nat.ne_of_gt (Nat.zero_lt_of_lt hfuel))
    obtain ⟨⟨hholds, hne⟩, hrest⟩ := List.forall_mem_cons.mp hrow
    rw [List.length_cons] at hcnt hfuel
    push_cast at hcnt
    obtain ⟨tree, slot⟩ := entry
    cases tree with
    | nil => exact absurd rfl hne
    | node cell left right =>
      obtain ⟨address, val⟩ := cell
      have hloop := @ih fuel (later ++ occupied ([(left, slot * 2)] ++ [(right, slot * 2 + 1)]))
        (min lmostpos (wrapInt slot)) (max rmostpos (wrapInt slot)) (cnt + 1) hrest
        (by push_cast; omega) (Nat.lt_of_succ_lt_succ hfuel)
      have hqueue : entries (row ++ later) ++ entries (occupied [(left, slot * 2)]) ++
          entries (occupied [(right, slot * 2 + 1)]) =
          entries (row ++ (later ++ occupied ([(left, slot * 2)] ++ [(right, slot * 2 + 1)]))) := by
        simp only [entries, occupied_append, List.map_append, List.append_assoc]
      have hgrown : later ++ occupied ([(left, slot * 2)] ++ [(right, slot * 2 + 1)]) ++
          occupied (grown row) =
          later ++ occupied (grown ((.node (address, val) left right, slot) :: row)) := by
        rw [grown_cons, occupied_append _ (grown row), List.append_assoc]
        rfl
      rw [List.cons_append, entries, List.map_cons, ← entries, root_node,
        indexLoop_step (Holds.node_eq hholds) (by omega), toInt_of_lt (by omega), Option.bind_some,
        wrapInt_left, wrapInt_right, pushChild_eq, pushChild_eq, hqueue, hloop, hgrown,
        List.map_cons, lmostOf_cons, rmostOf_cons]

/-- The width that `widthOfBinaryTreeStoreIndex` finds of a row. -/
def storedWidth (row : List ℕ) : ℤ :=
  wrapInt (wrapInt (rmostOf (-2 ^ 31) row - lmostOf (2 ^ 31 - 1) row) + 1)

/-- Between the first slot and the last one an `int` wraps. -/
def Wraps : List ℕ → Prop
  | [] => False
  | first :: rest => (first + 2 ^ 31) / 2 ^ 32 ≠ (rest.getLastD first + 2 ^ 31) / 2 ^ 32

instance : DecidablePred Wraps
  | [] => inferInstanceAs (Decidable False)
  | _ :: _ => inferInstanceAs (Decidable (_ ≠ _))

theorem wrapInt_eq (n : ℤ) : wrapInt n = n - 2 ^ 32 * ((n + 2 ^ 31) / 2 ^ 32) := by
  unfold wrapInt
  rw [Int.bmod_def]
  split <;> omega

theorem wrapInt_bounds (n : ℤ) : -2 ^ 31 ≤ wrapInt n ∧ wrapInt n ≤ 2 ^ 31 - 1 := by
  rw [wrapInt_eq]
  omega

variable {places : List ℕ}

/-- The inner loop gets to the least and the greatest index. -/
theorem exists_lmostOf (hne : places ≠ []) :
    (∃ slot ∈ places, wrapInt slot = lmostOf (2 ^ 31 - 1) places) ∧
      ∀ slot ∈ places, lmostOf (2 ^ 31 - 1) places ≤ wrapInt slot := by
  have hne' : places.map (fun slot : ℕ ↦ wrapInt slot) ≠ [] := mt List.map_eq_nil_iff.mp hne
  obtain ⟨hmem, hleast⟩ := @isLeast_foldl_min _ _ _ (2 ^ 31 - 1) hne' fun index hindex ↦ by
    obtain ⟨slot, -, rfl⟩ := List.mem_map.mp hindex
    exact (wrapInt_bounds slot).2
  exact ⟨List.mem_map.mp hmem, fun slot hslot ↦ hleast (List.mem_map.mpr ⟨slot, hslot, rfl⟩)⟩

theorem exists_rmostOf (hne : places ≠ []) :
    (∃ slot ∈ places, wrapInt slot = rmostOf (-2 ^ 31) places) ∧
      ∀ slot ∈ places, wrapInt slot ≤ rmostOf (-2 ^ 31) places := by
  have hne' : places.map (fun slot : ℕ ↦ wrapInt slot) ≠ [] := mt List.map_eq_nil_iff.mp hne
  obtain ⟨hmem, hgreatest⟩ := @isGreatest_foldl_max _ _ _ (-2 ^ 31) hne' fun index hindex ↦ by
    obtain ⟨slot, -, rfl⟩ := List.mem_map.mp hindex
    exact (wrapInt_bounds slot).1
  exact ⟨List.mem_map.mp hmem, fun slot hslot ↦ hgreatest (List.mem_map.mpr ⟨slot, hslot, rfl⟩)⟩

/-- Where no index wraps on the way, they are as far from each other as the slots. -/
theorem storedWidth_eq (hsorted : places.Pairwise (· < ·)) (hspan : span places < 2 ^ 31)
    (hne : places ≠ []) (hwraps : ¬ Wraps places) : storedWidth places = span places := by
  obtain ⟨⟨least, hleast, hlmost⟩, hlow⟩ := exists_lmostOf hne
  obtain ⟨⟨greatest, hgreatest, hrmost⟩, hhigh⟩ := exists_rmostOf hne
  cases places with
  | nil => exact absurd rfl hne
  | cons first rest =>
    obtain ⟨hlast, hbounds⟩ := bounds_of_pairwise hsorted
    have hsame : (first + 2 ^ 31) / 2 ^ 32 = (rest.getLastD first + 2 ^ 31) / 2 ^ 32 :=
      not_not.mp hwraps
    have hend := (hbounds _ hlast).1
    have hleft := hlow first List.mem_cons_self
    have hright := hhigh _ hlast
    have hleastBounds := hbounds least hleast
    have hgreatestBounds := hbounds greatest hgreatest
    rw [← hlmost] at hleft
    rw [← hrmost] at hright
    rw [wrapInt_eq, wrapInt_eq] at hleft hright
    rw [span] at hspan ⊢
    have hdistance : wrapInt greatest - wrapInt least = (rest.getLastD first : ℤ) - first := by
      rw [wrapInt_eq, wrapInt_eq]
      omega
    have hfits : wrapInt ((rest.getLastD first : ℤ) - first) = rest.getLastD first - first :=
      wrapInt_of_fits (by omega) (by omega)
    rw [storedWidth, ← hlmost, ← hrmost, hdistance, hfits, wrapInt_of_fits (by omega) (by omega)]
    omega

/-- Where one does, the difference is too great for an `int`. -/
theorem storedWidth_nonpos (hsorted : places.Pairwise (· < ·)) (hspan : span places < 2 ^ 31)
    (hwraps : Wraps places) : storedWidth places ≤ 0 := by
  cases places with
  | nil => exact hwraps.elim
  | cons first rest =>
    obtain ⟨⟨least, -, hlmost⟩, hlow⟩ := exists_lmostOf (List.cons_ne_nil first rest)
    obtain ⟨⟨greatest, -, hrmost⟩, hhigh⟩ := exists_rmostOf (List.cons_ne_nil first rest)
    obtain ⟨hlast, hbounds⟩ := bounds_of_pairwise hsorted
    have hturn : (first + 2 ^ 31) / 2 ^ 32 ≠ (rest.getLastD first + 2 ^ 31) / 2 ^ 32 := hwraps
    have hend := (hbounds _ hlast).1
    have hleft := hlow _ hlast
    have hright := hhigh first List.mem_cons_self
    have hleast := (wrapInt_bounds least).1
    have hgreatest := (wrapInt_bounds greatest).2
    rw [← hlmost, wrapInt_eq (rest.getLastD first)] at hleft
    rw [← hrmost, wrapInt_eq first] at hright
    rw [span] at hspan
    have hdistance : wrapInt (wrapInt greatest - wrapInt least) =
        wrapInt greatest - wrapInt least - 2 ^ 32 := by
      rw [wrapInt_eq (wrapInt greatest - wrapInt least)]
      omega
    rw [storedWidth, ← hlmost, ← hrmost, hdistance, wrapInt_of_fits (by omega) (by omega)]
    omega

/-! ### All indices -/

/-- The subtrees at a depth are in the heap. -/
theorem holds_subtreesAt (hholds : Holds heap tree) (depth : ℕ) :
    ∀ entry ∈ subtreesAt tree depth, Holds heap entry.1 ∧ entry.1 ≠ .nil := by
  induction depth with
  | zero =>
    intro entry hmem
    obtain ⟨hentry, hne⟩ := mem_occupied hmem
    rw [List.mem_singleton.mp hentry] at hne ⊢
    exact ⟨hholds, hne⟩
  | succ depth ih =>
    intro entry hmem
    obtain ⟨hentry, hne⟩ := mem_occupied hmem
    refine ⟨?_, hne⟩
    obtain ⟨above, habove, hmem⟩ := List.mem_flatMap.mp hentry
    have hheld := (ih above habove).1
    rcases List.mem_pair.mp hmem with rfl | rfl
    · exact hheld.leftSide
    · exact hheld.rightSide

theorem storeIndexLoop_spec {sofar : ℤ} (hholds : Holds heap tree)
    (hwidth : maxWidth tree < 2 ^ 31 - 1) (hdepth : depth ≤ tree.height)
    (hfuel : tree.height < fuel + depth) :
    storeIndexLoop heap fuel (entries (subtreesAt tree depth)) sofar =
      some (widest (fun depth ↦ storedWidth (slots tree depth)) tree.height depth sofar) := by
  induction fuel generalizing depth sofar with
  | zero => omega
  | succ fuel ih =>
    have hlength : (subtreesAt tree depth).length = (slots tree depth).length := by
      rw [← map_snd_subtreesAt, List.length_map]
    have hnil : entries (subtreesAt tree depth) = [] ↔ tree.height ≤ depth := by
      rw [entries, List.map_eq_nil_iff, ← slots_eq_nil_iff, ← List.length_eq_zero_iff, hlength,
        List.length_eq_zero_iff]
    rw [storeIndexLoop]
    rcases hdepth.eq_or_lt with rfl | hlt
    · rw [if_neg (not_not.mpr (hnil.mpr le_rfl)), widest_self]
    · have hle := (length_le_span (pairwise_slots tree depth)).trans (width_le_maxWidth tree depth)
      have hlens : sizeToInt (entries (subtreesAt tree depth)).length = (slots tree depth).length := by
        rw [sizeToInt_of_lt (by rw [entries, List.length_map, hlength]; omega), entries, List.length_map,
          hlength]
      have hloop := @indexLoop_spec heap ((slots tree depth).length + 1) (subtreesAt tree depth) []
        (slots tree depth).length (2 ^ 31 - 1) (-2 ^ 31) 1 (holds_subtreesAt hholds depth)
        (by rw [hlength]; push_cast; omega) (by omega) (by rw [hlength]; omega)
      have hnext := @ih (depth + 1) (max sofar (storedWidth (slots tree depth))) hlt (by omega)
      rw [List.append_nil, List.nil_append, map_snd_subtreesAt] at hloop
      rw [if_pos fun hempty ↦ hlt.not_ge (hnil.mp hempty), hlens]
      dsimp only
      rw [Int.toNat_natCast, hloop, Option.bind_eq_bind, Option.bind_some]
      dsimp only
      rw [← storedWidth, ← subtreesAt, hnext, widest_of_lt hlt]

/-! ### The widest level -/

/-- The running maximum is that of a depth, unless none is greater than the first value. -/
theorem widest_spec (shown : ℕ → ℤ) (height : ℕ) :
    0 ≤ widest shown height 0 0 ∧ (∀ depth < height, shown depth ≤ widest shown height 0 0) ∧
      (widest shown height 0 0 = 0 ∨ ∃ depth < height, widest shown height 0 0 = shown depth) := by
  have hfold : ∀ (depths : List ℕ) (sofar : ℤ),
      let greatest := depths.foldl (fun width depth ↦ max width (shown depth)) sofar
      sofar ≤ greatest ∧ (∀ depth ∈ depths, shown depth ≤ greatest) ∧
        (greatest = sofar ∨ ∃ depth ∈ depths, greatest = shown depth) := by
    intro depths
    induction depths with
    | nil => exact fun sofar ↦ ⟨le_rfl, nofun, .inl rfl⟩
    | cons first depths ih =>
      intro sofar
      obtain ⟨hsofar, hall, hfrom⟩ := ih (max sofar (shown first))
      refine ⟨(le_max_left ..).trans hsofar, fun depth hmem ↦ ?_, ?_⟩
      · rcases List.mem_cons.mp hmem with rfl | hmem
        · exact (le_max_right ..).trans hsofar
        · exact hall depth hmem
      · rcases hfrom with hfrom | ⟨depth, hmem, hfrom⟩
        · rcases max_choice sofar (shown first) with hmax | hmax
          · exact .inl (hfrom.trans hmax)
          · exact .inr ⟨first, List.mem_cons_self, hfrom.trans hmax⟩
        · exact .inr ⟨depth, List.mem_cons_of_mem _ hmem, hfrom⟩
  have hspec := hfold (List.range' 0 (height - 0)) 0
  rw [Nat.sub_zero, ← List.range_eq_range'] at hspec
  obtain ⟨hzero, hall, hfrom⟩ := hspec
  rw [widest, Nat.sub_zero, ← List.range_eq_range']
  exact ⟨hzero, fun depth hlt ↦ hall depth (List.mem_range.mpr hlt),
    hfrom.imp_right fun ⟨depth, hmem, heq⟩ ↦ ⟨depth, List.mem_range.mp hmem, heq⟩⟩

theorem widest_width (tree : PlacedTree ℤ) :
    widest (fun depth ↦ (width tree depth : ℤ)) tree.height 0 0 = maxWidth tree := by
  obtain ⟨hzero, hall, hfrom⟩ :=
    widest_spec (fun depth ↦ (width tree depth : ℤ)) tree.height
  apply le_antisymm
  · rcases hfrom with hfrom | ⟨depth, -, hfrom⟩
    · rw [hfrom]
      exact Int.natCast_nonneg _
    · rw [hfrom]
      exact_mod_cast width_le_maxWidth tree depth
  · obtain ⟨depth, hdepth⟩ := exists_width_eq tree
    rw [← hdepth]
    rcases Nat.lt_or_ge depth tree.height with hlt | hle
    · exact hall depth hlt
    · rw [width_eq_zero_iff.mpr hle]
      exact hzero

/-- The indices show the width of a level unless they wrap. -/
theorem storedWidth_slots (hwidth : maxWidth tree < 2 ^ 31) (hlt : depth < tree.height) :
    if Wraps (slots tree depth) then storedWidth (slots tree depth) ≤ 0
    else storedWidth (slots tree depth) = width tree depth := by
  have hspan : span (slots tree depth) < 2 ^ 31 := (width_le_maxWidth tree depth).trans_lt hwidth
  have hne : slots tree depth ≠ [] := fun hnil ↦ hlt.not_ge (slots_eq_nil_iff.mp hnil)
  split
  next hwraps => exact storedWidth_nonpos (pairwise_slots tree depth) hspan hwraps
  next hwraps => exact storedWidth_eq (pairwise_slots tree depth) hspan hne hwraps

/-- They show the maximum width just if some level of this width does not wrap. -/
theorem widest_storedWidth_iff (hwidth : maxWidth tree < 2 ^ 31) :
    widest (fun depth ↦ storedWidth (slots tree depth)) tree.height 0 0 = maxWidth tree ↔
      ∃ depth, width tree depth = maxWidth tree ∧ ¬ Wraps (slots tree depth) := by
  obtain ⟨hzero, hall, hfrom⟩ :=
    widest_spec (fun depth ↦ storedWidth (slots tree depth)) tree.height
  have hstored (depth : ℕ) (hlt : depth < tree.height) :
      storedWidth (slots tree depth) ≤ width tree depth := by
    have hslots := storedWidth_slots hwidth hlt
    split at hslots
    · exact hslots.trans (Int.natCast_nonneg _)
    · exact hslots.le
  constructor
  · intro heq
    rcases hfrom with hfrom | ⟨depth, hlt, hfrom⟩
    · have hle := width_le_maxWidth tree 0
      have hnil : slots tree 0 = [] := slots_eq_nil_iff.mpr (width_eq_zero_iff.mp (by omega))
      refine ⟨0, by omega, ?_⟩
      rw [hnil]
      exact id
    · have hslots := storedWidth_slots hwidth hlt
      have hpos : width tree depth ≠ 0 := fun hnone ↦
        hlt.not_ge (width_eq_zero_iff.mp hnone)
      have hle := width_le_maxWidth tree depth
      split at hslots
      · omega
      next hwraps => exact ⟨depth, by omega, hwraps⟩
  · rintro ⟨depth, hdepth, hwraps⟩
    apply le_antisymm
    · rcases hfrom with hfrom | ⟨other, hlt, hfrom⟩
      · rw [hfrom]
        exact Int.natCast_nonneg _
      · rw [hfrom]
        exact (hstored other hlt).trans (by exact_mod_cast width_le_maxWidth tree other)
    · rcases Nat.lt_or_ge depth tree.height with hlt | hle
      · have hslots := storedWidth_slots hwidth hlt
        rw [if_neg hwraps, hdepth] at hslots
        exact hslots.ge.trans (hall depth hlt)
      · rw [← hdepth, width_eq_zero_iff.mpr hle]
        exact hzero

/-! ### Both widths -/

theorem widthOfBinaryTree_eq (hholds : Holds heap tree) (hwidth : maxWidth tree < 2 ^ 31 - 1)
    (hfuel : tree.height < fuel) :
    widthOfBinaryTree heap fuel (root tree) = some (maxWidth tree : ℤ) := by
  cases tree with
  | nil => rfl
  | node cell left right =>
    obtain ⟨address, val⟩ := cell
    have hloop := @widthLoop_spec heap _ _ fuel 0 0 (rowAt_zero hholds nofun) hwidth
      (Nat.zero_le _) hfuel
    rw [widest_width] at hloop
    rw [widthOfBinaryTree, root_node, if_neg (Option.some_ne_none address)]
    exact hloop

theorem widthOfBinaryTree_eq_none (hholds : Holds heap tree)
    (hwidth : maxWidth tree = 2 ^ 31 - 1) : widthOfBinaryTree heap fuel (root tree) = none := by
  obtain ⟨depth, hdepth⟩ := exists_width_eq tree
  cases tree with
  | nil => cases hwidth
  | node cell left right =>
    obtain ⟨address, val⟩ := cell
    rw [widthOfBinaryTree, root_node, if_neg (Option.some_ne_none address)]
    exact @widthLoop_eq_none heap _ _ fuel 0 0 depth (rowAt_zero hholds nofun) hwidth hdepth
      (Nat.zero_le _)

theorem storeIndex_eq (hholds : Holds heap tree) (hwidth : maxWidth tree < 2 ^ 31 - 1)
    (hfuel : tree.height < fuel) :
    widthOfBinaryTreeStoreIndex heap fuel (root tree) =
      some (widest (fun depth ↦ storedWidth (slots tree depth)) tree.height 0 0) := by
  cases tree with
  | nil => rfl
  | node cell left right =>
    obtain ⟨address, val⟩ := cell
    have hloop := @storeIndexLoop_spec heap _ fuel 0 0 hholds hwidth (Nat.zero_le _) hfuel
    have hentries : entries (subtreesAt (.node (address, val) left right) 0) =
        [(some address, 0)] := by
      have hwrap : wrapInt (0 : ℕ) = 0 := wrapInt_of_fits (by omega) (by omega)
      rw [entries, subtreesAt, occupied, List.flatMap_singleton, present, List.map_cons,
        List.map_nil, List.map_cons, List.map_nil, root_node, hwrap]
    rw [hentries] at hloop
    rw [widthOfBinaryTreeStoreIndex, root_node, if_neg (Option.some_ne_none address), hloop]

/-- Both find the maximum width just if it can be counted, and if on some level of this width the
indices do not wrap between the first node and the last one. -/
theorem widths_eq_iff (hholds : Holds heap tree) (hwidth : maxWidth tree < 2 ^ 31)
    (hfuel : tree.height < fuel) :
    (widthOfBinaryTree heap fuel (root tree) = some (maxWidth tree : ℤ) ∧
      widthOfBinaryTreeStoreIndex heap fuel (root tree) = some (maxWidth tree : ℤ)) ↔
    maxWidth tree < 2 ^ 31 - 1 ∧
      ∃ depth, width tree depth = maxWidth tree ∧ ¬ Wraps (slots tree depth) := by
  constructor
  · rintro ⟨hplain, hstored⟩
    have hlt : maxWidth tree < 2 ^ 31 - 1 := by
      by_contra hnot
      rw [widthOfBinaryTree_eq_none hholds (by omega)] at hplain
      cases hplain
    rw [storeIndex_eq hholds hlt hfuel] at hstored
    exact ⟨hlt, (widest_storedWidth_iff hwidth).mp (Option.some.inj hstored)⟩
  · rintro ⟨hlt, hlevel⟩
    refine ⟨widthOfBinaryTree_eq hholds hlt hfuel, ?_⟩
    rw [storeIndex_eq hholds hlt hfuel, (widest_storedWidth_iff hwidth).mpr hlevel]

theorem widths_eq_iff_three :
    let heap := ((Heap.empty.set 0 ⟨1, some 1, some 2⟩).set 1 ⟨2, none, none⟩).set 2
      ⟨3, none, none⟩
    widthOfBinaryTree heap 3 (some 0) = some 2 ∧
      widthOfBinaryTreeStoreIndex heap 3 (some 0) = some 2 := by
  intro heap
  have hholds : Holds heap (.node (0, 1) (.node (1, 2) .nil .nil) (.node (2, 3) .nil .nil)) :=
    ⟨rfl, ⟨rfl, trivial, trivial⟩, rfl, trivial, trivial⟩
  exact (@widths_eq_iff heap _ 3 hholds (by decide) (by decide)).mpr
    ⟨by decide, 1, by decide, by decide⟩

/-! ### A level that wraps -/

/-- A way down to the left, and one to the right. -/
def leftTo (tree : BinaryTree ℤ) : ℕ → BinaryTree ℤ
  | 0 => tree
  | depth + 1 => .node 0 (leftTo tree depth) .nil

def rightTo (tree : BinaryTree ℤ) : ℕ → BinaryTree ℤ
  | 0 => tree
  | depth + 1 => .node 0 .nil (rightTo tree depth)

/-- Three nodes in the middle of the level at depth 32. -/
def middleTree : BinaryTree ℤ :=
  .node 0 (rightTo (.node 0 (.node 0 .nil .nil) (.node 0 .nil .nil)) 30)
    (leftTo (.node 0 .nil .nil) 31)

example : slots middleTree 32 = [2 ^ 31 - 2, 2 ^ 31 - 1, 2 ^ 31] := by decide +kernel

theorem maxWidth_middleTree : maxWidth middleTree = 3 := by
  decide +kernel

theorem widest_middleTree :
    widest (fun depth ↦ storedWidth (slots middleTree depth)) middleTree.height 0 0 = 2 := by
  decide +kernel

theorem slots_contents (tree : PlacedTree ℤ) : slots (contents tree) = slots tree :=
  funext fun depth ↦ slots_map Prod.snd tree depth

theorem maxWidth_contents (tree : PlacedTree ℤ) : maxWidth (contents tree) = maxWidth tree := by
  have hwidth : width (contents tree) = width tree := by
    funext depth
    rw [width, slots_contents, width]
  rw [maxWidth, hwidth, height_contents, maxWidth]

/-- Of the three nodes only a width of two on the levels above is found. -/
theorem widths_ne :
    maxWidth middleTree = 3 ∧ ∃ (heap : Heap (TreeNode ℤ)) (root : Ptr),
      Stores heap root middleTree ∧ ∀ fuel > 33, widthOfBinaryTree heap fuel root = some 3 ∧
        widthOfBinaryTreeStoreIndex heap fuel root = some 2 := by
  refine ⟨maxWidth_middleTree, ?_⟩
  obtain ⟨tree, heap, hplanted, hcontents⟩ := exists_planted .empty middleTree
  have hwidth : maxWidth tree = 3 := by
    rw [← maxWidth_contents, hcontents, maxWidth_middleTree]
  have hheight : tree.height = 33 := by
    rw [← height_contents, hcontents]
    decide +kernel
  refine ⟨heap, root tree, ⟨tree, rfl, hplanted.holds, hplanted.nodup, hcontents⟩,
    fun fuel hfuel ↦ ⟨?_, ?_⟩⟩
  · rw [widthOfBinaryTree_eq hplanted.holds (by omega) (by omega), hwidth]
    rfl
  · rw [storeIndex_eq hplanted.holds (by omega) (by omega), ← slots_contents, ← height_contents,
      hcontents, widest_middleTree]

end CppLearn.Leetcode.TreeWidth
