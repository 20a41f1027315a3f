import CppLearn.Foundation.HeapTree

/-!
# Trees from their traversals

`buildTree` makes the tree whose values in order and in postorder are two given vectors. The calls
pass on iterators of these, here the places they point to. What lies outside of the range between
two iterators is not read, and no iterator goes past the end of its vector, or else nothing is
returned.
-/

set_option autoImplicit false
set_option relaxedAutoImplicit false

namespace CppLearn.Leetcode.TraversalToTree

open Foundation.HeapTree Foundation.NodeHeap

/-! ### The program -/

/-- `std::find` in a range. -/
def find (nums : List ℤ) (val : ℤ) (last first : ℕ) : Option ℕ :=
  if first = last then some last
  else if hfirst : first < nums.length then
    if nums[first] = val then some first else find nums val last (first + 1)
  else none
termination_by nums.length - first

/-- `*(last - 1)`. -/
def backOf (nums : List ℤ) (first last : ℕ) : Option ℤ :=
  if first < last then nums[last - 1]? else none

/-- `pos + count`. -/
def advance (nums : List ℤ) (pos count : ℕ) : Option ℕ :=
  if pos + count ≤ nums.length then some (pos + count) else none

variable (alloc : Allocator (TreeNode ℤ))

/-- `buildTreeImpl`, with a limit on the depth of its recursion. -/
def buildTreeImpl (inorder postorder : List ℤ) :
    ℕ → Heap (TreeNode ℤ) → ℕ → ℕ → ℕ → ℕ → Option (Ptr × Heap (TreeNode ℤ))
  | 0, _, _, _, _, _ => none
  | fuel + 1, heap, inorderFirst, inorderLast, postorderFirst, postorderLast =>
    if inorderFirst ≥ inorderLast then some (none, heap)
    else do
      let rootVal ← backOf postorder postorderFirst postorderLast
      let (root, heap) := alloc.new heap ⟨rootVal, none, none⟩
      let rootPos ← find inorder rootVal inorderLast inorderFirst
      let nLtreeNodes := rootPos - inorderFirst
      let postorderMid ← advance postorder postorderFirst nLtreeNodes
      let (left, heap) ←
        buildTreeImpl inorder postorder fuel heap inorderFirst rootPos postorderFirst postorderMid
      let heap ← heap.modify (some root) fun node ↦ { node with left := left }
      let rootNext ← advance inorder rootPos 1
      let (right, heap) ← buildTreeImpl inorder postorder fuel heap rootNext inorderLast
        postorderMid (postorderLast - 1)
      let heap ← heap.modify (some root) fun node ↦ { node with right := right }
      return (some root, heap)

def buildTree (fuel : ℕ) (heap : Heap (TreeNode ℤ)) (inorder postorder : List ℤ) :
    Option (Ptr × Heap (TreeNode ℤ)) :=
  buildTreeImpl alloc inorder postorder fuel heap 0 inorder.length 0 postorder.length

/-! ### Ranges -/

/-- The values of a tree, those of both subtrees before that of the root. -/
def postorder : BinaryTree ℤ → List ℤ
  | .nil => []
  | .node val left right => postorder left ++ (postorder right ++ [val])

theorem length_postorder (tree : BinaryTree ℤ) : (postorder tree).length = tree.numNodes := by
  induction tree with
  | nil => rfl
  | node val left right ihLeft ihRight =>
    rw [postorder, BinaryTree.numNodes, List.length_append, List.length_append, ihLeft, ihRight,
      List.length_singleton, Nat.add_assoc]

section Ranges

variable {nums part front rest : List ℤ} {num val : ℤ} {first last : ℕ}

/-- What begins at a place goes on behind its first part. -/
theorem prefix_drop_length (h : front ++ rest <+: nums.drop first) :
    rest <+: nums.drop (first + front.length) := by
  obtain ⟨back, hback⟩ := h
  refine ⟨back, ?_⟩
  rw [← List.drop_drop, ← hback, List.append_assoc, List.drop_left]

theorem getElem?_of_prefix_drop (h : num :: rest <+: nums.drop first) :
    nums[first]? = some num := by
  obtain ⟨back, hback⟩ := h
  rw [← Nat.add_zero first, ← List.getElem?_drop, ← hback]
  rfl

/-- A value that occurs in a range, and not before that place. -/
theorem find_eq (h : front ++ val :: rest <+: nums.drop first) (hnot : val ∉ front)
    (hlast : first + front.length < last) :
    find nums val last first = some (first + front.length) := by
  induction front generalizing first with
  | nil =>
    obtain ⟨hfirst, hval⟩ := List.getElem?_eq_some_iff.mp (getElem?_of_prefix_drop h)
    rw [List.length_nil, Nat.add_zero] at hlast ⊢
    rw [find, if_neg hlast.ne, dif_pos hfirst, if_pos hval]
  | cons num front ih =>
    obtain ⟨hfirst, hnum⟩ := List.getElem?_eq_some_iff.mp (getElem?_of_prefix_drop h)
    rw [List.mem_cons, not_or] at hnot
    rw [List.length_cons] at hlast ⊢
    have hne : first ≠ last := by omega
    have hrest : front ++ val :: rest <+: nums.drop (first + 1) :=
      @prefix_drop_length nums [num] _ _ h
    have hnext := ih hrest hnot.2 (by omega)
    rw [find, if_neg hne, dif_pos hfirst, hnum, if_neg (Ne.symm hnot.1), hnext, Nat.add_assoc,
      Nat.add_comm 1]

theorem backOf_eq (h : part ++ [val] <+: nums.drop first) :
    backOf nums first (first + (part.length + 1)) = some val := by
  rw [backOf, if_pos (by omega), ← Nat.add_assoc, Nat.add_sub_cancel]
  exact getElem?_of_prefix_drop (prefix_drop_length h)

theorem advance_eq (h : front ++ rest <+: nums.drop first) (hne : front ++ rest ≠ []) :
    advance nums first front.length = some (first + front.length) := by
  have hpositive := List.length_pos_iff.mpr hne
  have hle := h.length_le
  rw [List.length_append] at hpositive hle
  rw [List.length_drop] at hle
  exact if_pos (by omega)

end Ranges

/-! ### The tree -/

/-- The ranges of a tree in the two vectors: it is built from new nodes. -/
theorem buildTreeImpl_spec {tree : BinaryTree ℤ} {nums nums' : List ℤ} {inFirst postFirst : ℕ}
    (hinorder : inorder tree <+: nums.drop inFirst)
    (hpostorder : postorder tree <+: nums'.drop postFirst) (hnodup : (inorder tree).Nodup)
    {fuel : ℕ} (hfuel : tree.numNodes < fuel) (heap : Heap (TreeNode ℤ)) :
    ∃ placed heap', buildTreeImpl alloc nums nums' fuel heap inFirst (inFirst + tree.numNodes)
        postFirst (postFirst + tree.numNodes) = some (root placed, heap') ∧
      Planted heap placed heap' ∧ contents placed = tree := by
  induction tree generalizing inFirst postFirst fuel heap with
  | nil =>
    obtain ⟨fuel, rfl⟩ := Nat.exists_eq_succ_of_ne_zero (Nat.ne_zero_of_lt hfuel)
    refine ⟨.nil, heap, ?_, planted_nil heap, rfl⟩
    rw [buildTreeImpl, BinaryTree.numNodes, Nat.add_zero, if_pos le_rfl]
    rfl
  | node val left right ihLeft ihRight =>
    obtain ⟨fuel, rfl⟩ := Nat.exists_eq_succ_of_ne_zero (Nat.ne_zero_of_lt hfuel)
    rw [inorder_node] at hinorder hnodup
    rw [List.nodup_middle, List.nodup_cons, List.mem_append, not_or, List.nodup_append'] at hnodup
    obtain ⟨⟨hnotLeft, -⟩, hnodupLeft, hnodupRight, -⟩ := hnodup
    rw [postorder] at hpostorder
    rw [BinaryTree.numNodes] at hfuel ⊢
    -- Where the parts of the two ranges begin.
    have hinVal : [val] ++ inorder right <+: nums.drop (inFirst + left.numNodes) :=
      length_inorder left ▸ prefix_drop_length hinorder
    have hpostRest : postorder right ++ [val] <+: nums'.drop (postFirst + left.numNodes) :=
      length_postorder left ▸ prefix_drop_length hpostorder
    have hback : backOf nums' postFirst (postFirst + (left.numNodes + right.numNodes + 1)) =
        some val := by
      rw [← length_postorder left, ← length_postorder right, ← List.length_append]
      exact backOf_eq (by rwa [List.append_assoc])
    have hfind : find nums val (inFirst + (left.numNodes + right.numNodes + 1)) inFirst =
        some (inFirst + left.numNodes) := by
      rw [← length_inorder left]
      exact find_eq hinorder hnotLeft (by omega)
    have hmid : advance nums' postFirst (inFirst + left.numNodes - inFirst) =
        some (postFirst + left.numNodes) := by
      rw [Nat.add_sub_cancel_left, ← length_postorder left]
      exact advance_eq hpostorder (by simp)
    have hnext : advance nums (inFirst + left.numNodes) 1 = some (inFirst + left.numNodes + 1) :=
      advance_eq hinVal (List.cons_ne_nil val _)
    obtain ⟨address, haddress, hfree⟩ := alloc.exists_address heap
    obtain ⟨leftTree, leftHeap, hleft, hleftPlanted, hleftContents⟩ :=
      ihLeft ((List.prefix_append ..).trans hinorder) ((List.prefix_append ..).trans hpostorder)
        hnodupLeft (by omega : left.numNodes < fuel) (heap.set address ⟨val, none, none⟩)
    obtain ⟨rightTree, rightHeap, hright, hrightPlanted, hrightContents⟩ :=
      ihRight (prefix_drop_length hinVal) ((List.prefix_append ..).trans hpostRest) hnodupRight
        (by omega : right.numNodes < fuel) (leftHeap.set address ⟨val, root leftTree, none⟩)
    refine ⟨.node (address, val) leftTree rightTree, _, ?_,
      hleftPlanted.node hfree hrightPlanted val, ?_⟩
    · have hnode : leftHeap.node address = some ⟨val, none, none⟩ :=
        hleftPlanted.old.node_eq Heap.set_node_self
      have hnode' : rightHeap.node address = some ⟨val, root leftTree, none⟩ :=
        hrightPlanted.old.node_eq Heap.set_node_self
      have hinLast : inFirst + left.numNodes + 1 + right.numNodes =
          inFirst + (left.numNodes + right.numNodes + 1) := by omega
      have hpostLast : postFirst + left.numNodes + right.numNodes =
          postFirst + (left.numNodes + right.numNodes + 1) - 1 := by omega
      rw [List.length_singleton, hinLast, hpostLast] at hright
      rw [buildTreeImpl, if_neg (by omega)]
      simp only [hback, Allocator.new, haddress, hfind, hmid, hleft, hnext, hright,
        Heap.modify_some hnode, Heap.modify_some hnode', Option.bind_eq_bind, Option.bind_some]
      rfl
    · rw [contents_node, hleftContents, hrightContents]

/-- From the traversals of a tree without duplicates the tree is made again, of new nodes. -/
theorem buildTree_spec {tree : BinaryTree ℤ} (hnodup : (inorder tree).Nodup)
    (heap : Heap (TreeNode ℤ)) {fuel : ℕ}
    (hfuel : tree.numNodes < fuel) :
    ∃ ptr heap', buildTree alloc fuel heap (inorder tree) (postorder tree) = some (ptr, heap') ∧
      Stores heap' ptr tree ∧ Extends heap heap' := by
  obtain ⟨placed, heap', hresult, hplanted, hcontents⟩ := @buildTreeImpl_spec alloc tree
    (inorder tree) (postorder tree) 0 0 List.prefix_rfl List.prefix_rfl hnodup fuel hfuel heap
  refine ⟨root placed, heap', ?_, ⟨placed, rfl, hplanted.holds, hplanted.nodup, hcontents⟩,
    hplanted.old⟩
  rw [Nat.zero_add] at hresult
  rw [buildTree, length_inorder, length_postorder]
  exact hresult

/-- A root with a left child only, and below it a right child. -/
theorem buildTree_three : ∃ ptr heap', buildTree .next 4 .empty
      (inorder (.node 3 (.node 1 .nil (.node 2 .nil .nil)) .nil))
      (postorder (.node 3 (.node 1 .nil (.node 2 .nil .nil)) .nil)) = some (ptr, heap') ∧
    Stores heap' ptr (.node 3 (.node 1 .nil (.node 2 .nil .nil)) .nil) ∧
    Extends .empty heap' :=
  buildTree_spec .next (by decide) .empty (by decide)

end CppLearn.Leetcode.TraversalToTree
