import CppLearn.Foundation.CartesianTree

/-!
# Maximum binary trees

Three ways to build the tree of an array whose root is its maximum: with a recursion on ranges, with a
stack of the nodes on the right spine, and with a recursion on halves whose trees are merged along their
spines. All take the first of several maxima, and so build the same tree. The nodes are made with `new`
by an allocator, which may place them anywhere that is free.
-/

set_option autoImplicit false
set_option relaxedAutoImplicit false

namespace CppLearn.Leetcode.MaximumBinaryTree

open Foundation.CartesianTree Foundation.HeapTree Foundation.NodeHeap

/-! ### The program -/

variable (alloc : Allocator (TreeNode ℤ))

/-- `std::max_element`: where the first of the greatest elements is. -/
def maxElement : List ℤ → ℕ
  | [] => 0
  | num :: rest => if ∀ other ∈ rest, other ≤ num then 0 else maxElement rest + 1

/-- It splits the elements into lesser ones and ones that are not greater. -/
theorem maxElement_spec {nums : List ℤ} (hnums : nums ≠ []) :
    ∃ before val after, nums = before ++ val :: after ∧ before.length = maxElement nums ∧
      (∀ other ∈ before, other < val) ∧ ∀ other ∈ after, other ≤ val := by
  induction nums with
  | nil => exact absurd rfl hnums
  | cons num rest ih =>
    by_cases hall : ∀ other ∈ rest, other ≤ num
    · exact ⟨[], num, rest, rfl, (if_pos hall).symm, nofun, hall⟩
    · obtain ⟨greater, hgreater, hless⟩ : ∃ greater ∈ rest, num < greater := by
        by_contra hnone
        exact hall fun other hother ↦ not_lt.mp fun hless ↦ hnone ⟨other, hother, hless⟩
      obtain ⟨before, val, after, rfl, hlength, hbefore, hafter⟩ := ih (List.ne_nil_of_mem hgreater)
      refine ⟨num :: before, val, after, rfl, ?_, List.forall_mem_cons.mpr ⟨hless.trans_le ?_, hbefore⟩,
        hafter⟩
      · rw [maxElement, if_neg hall, List.length_cons, hlength]
      · rcases List.mem_append.mp hgreater with hgreater | hgreater
        · exact (hbefore greater hgreater).le
        · rcases List.mem_cons.mp hgreater with rfl | hgreater
          · exact le_rfl
          · exact hafter greater hgreater

theorem maxElement_lt {nums : List ℤ} (hnums : nums ≠ []) : maxElement nums < nums.length := by
  obtain ⟨before, val, after, hsplit, hlength, -⟩ := maxElement_spec hnums
  have hcount := congrArg List.length hsplit
  rw [List.length_append, List.length_cons] at hcount
  omega

/-- `constructImpl` on a range. -/
def constructImpl (heap : Heap (TreeNode ℤ)) : List ℤ → Option (Ptr × Heap (TreeNode ℤ))
  | [] => some (none, heap)
  | first :: rest => do
    let nums := first :: rest
    let maxitr := maxElement nums
    let val ← nums[maxitr]?
    let (root, heap) := alloc.new heap ⟨val, none, none⟩
    let (left, heap) ← constructImpl heap (nums.take maxitr)
    let heap ← heap.modify (some root) fun node ↦ { node with left := left }
    let (right, heap) ← constructImpl heap (nums.drop (maxitr + 1))
    let heap ← heap.modify (some root) fun node ↦ { node with right := right }
    return (some root, heap)
termination_by nums => nums.length
decreasing_by
  · have hlt := maxElement_lt (List.cons_ne_nil first rest)
    rw [List.length_take]
    omega
  · rw [List.length_drop, List.length_cons]
    omega

def constructMaximumBinaryTree (heap : Heap (TreeNode ℤ)) (nums : List ℤ) :
    Option (Ptr × Heap (TreeNode ℤ)) := constructImpl alloc heap nums

/-- The inner loop of `constructMaximumBinaryTreeIterative` over `nodes`, its back first. -/
def popLess (cur : Ptr) (val : ℤ) (heap : Heap (TreeNode ℤ)) :
    List Ptr → Option (List Ptr × Heap (TreeNode ℤ))
  | [] => some ([], heap)
  | back :: nodes => do
    let node ← heap.load back
    if node.val < val then do
      let heap ← heap.modify cur fun node ↦ { node with left := back }
      popLess cur val heap nodes
    else some (back :: nodes, heap)

/-- One round of the loop over the elements. -/
def addNode : List Ptr × Heap (TreeNode ℤ) → ℤ → Option (List Ptr × Heap (TreeNode ℤ))
  | (nodes, heap), val => do
    let (cur, heap) := alloc.new heap ⟨val, none, none⟩
    let (nodes, heap) ← popLess (some cur) val heap nodes
    let heap ← match nodes with
      | [] => some heap
      | back :: _ => heap.modify back fun node ↦ { node with right := some cur }
    return (some cur :: nodes, heap)

def constructMaximumBinaryTreeIterative (heap : Heap (TreeNode ℤ)) (nums : List ℤ) :
    Option (Ptr × Heap (TreeNode ℤ)) := do
  let (nodes, heap) ← nums.foldlM (addNode alloc) ([], heap)
  let front ← nodes.getLast?
  return (front, heap)

/-- The condition of `mergeCartesianTree` for the node of `rtree`. -/
def takesRight (heap : Heap (TreeNode ℤ)) (ltree rtree : Ptr) : Option Bool :=
  if rtree = none then some false
  else if ltree = none then some true
  else do
    let rnode ← heap.load rtree
    let lnode ← heap.load ltree
    return lnode.val < rnode.val

/-- `cur->left = child` on the right spine, else `cur->right = child`. -/
def attach (isRightSpine : Bool) (node : TreeNode ℤ) (child : Ptr) : TreeNode ℤ :=
  if isRightSpine then { node with left := child } else { node with right := child }

/-- The loop of `mergeCartesianTree`, with a limit on its rounds. -/
def mergeLoop : ℕ → Heap (TreeNode ℤ) → Ptr → Bool → Ptr → Ptr → Option (Heap (TreeNode ℤ))
  | 0, _, _, _, _, _ => none
  | fuel + 1, heap, cur, isRightSpine, ltree, rtree =>
    if ltree ≠ none ∨ rtree ≠ none then do
      let fromRight ← takesRight heap ltree rtree
      if fromRight then do
        let heap ← heap.modify cur (attach isRightSpine · rtree)
        let node ← heap.load rtree
        mergeLoop fuel heap rtree true ltree node.left
      else do
        let heap ← heap.modify cur (attach isRightSpine · ltree)
        let node ← heap.load ltree
        mergeLoop fuel heap ltree false node.right rtree
    else some heap

/-- `mergeCartesianTree`, with a node of its own for the time of the loop. -/
def mergeCartesianTree (fuel : ℕ) (heap : Heap (TreeNode ℤ)) (ltree rtree : Ptr) :
    Option (Ptr × Heap (TreeNode ℤ)) :=
  if ltree = none ∨ rtree = none then some (none, heap)
  else do
    let (root, heap) := alloc.new heap ⟨0, none, none⟩
    let heap ← mergeLoop fuel heap (some root) true ltree rtree
    let node ← heap.load (some root)
    let heap ← heap.delete (some root)
    return (node.left, heap)

/-- `constructDACImpl` on a range. -/
def constructDACImpl (fuel : ℕ) (heap : Heap (TreeNode ℤ)) :
    List ℤ → Option (Ptr × Heap (TreeNode ℤ))
  | [] => some (none, heap)
  | [val] =>
    let (node, heap) := alloc.new heap ⟨val, none, none⟩
    some (some node, heap)
  | first :: second :: rest => do
    let nums := first :: second :: rest
    let mid := nums.length / 2
    let (ltree, heap) ← constructDACImpl fuel heap (nums.take mid)
    let (rtree, heap) ← constructDACImpl fuel heap (nums.drop mid)
    mergeCartesianTree alloc fuel heap ltree rtree
termination_by nums => nums.length
decreasing_by
  · rw [List.length_take]
    simp only [List.length_cons]
    omega
  · rw [List.length_drop]
    simp only [List.length_cons]
    omega

def constructMaximumBinaryTreeDAC (fuel : ℕ) (heap : Heap (TreeNode ℤ)) (nums : List ℤ) :
    Option (Ptr × Heap (TreeNode ℤ)) := constructDACImpl alloc fuel heap nums

/-! ### Trees that are built -/

/-- The tree of an array has been built from new nodes. -/
structure Built (heap : Heap (TreeNode ℤ)) (nums : List ℤ) (placed : PlacedTree ℤ)
    (heap' : Heap (TreeNode ℤ)) : Prop where
  holds : Holds heap' placed
  nodup : (addresses placed).Nodup
  fresh : ∀ address ∈ addresses placed, heap.node address = none
  old : Extends heap heap'
  firstMax : FirstMax Prod.snd placed
  values : (inorder placed).map Prod.snd = nums

variable {alloc} {heap : Heap (TreeNode ℤ)}

theorem built_nil (heap : Heap (TreeNode ℤ)) : Built heap [] .nil heap :=
  ⟨trivial, .nil, nofun, .refl heap, trivial, rfl⟩

theorem Built.planted {heap' : Heap (TreeNode ℤ)} {nums : List ℤ} {placed : PlacedTree ℤ}
    (h : Built heap nums placed heap') : Planted heap placed heap' :=
  ⟨h.holds, h.nodup, h.fresh, h.old⟩

/-- A node over the trees of two arrays, made before them and filled in as they are built. -/
theorem Built.node {before after : List ℤ} {val : ℤ} {address : ℕ} {left right : PlacedTree ℤ}
    {leftHeap rightHeap : Heap (TreeNode ℤ)} {node : TreeNode ℤ} (hfree : heap.node address = none)
    (hleft : Built (heap.set address ⟨val, none, none⟩) before left leftHeap)
    (hright : Built (leftHeap.set address node) after right rightHeap)
    (hbefore : ∀ other ∈ before, other < val) (hafter : ∀ other ∈ after, other ≤ val) :
    Built heap (before ++ val :: after) (.node (address, val) left right)
      (rightHeap.set address ⟨val, root left, root right⟩) := by
  have hplanted := hleft.planted.node hfree hright.planted val
  have hleftMem {other : ℕ × ℤ} (hother : other ∈ inorder left) : other.2 ∈ before :=
    hleft.values ▸ List.mem_map_of_mem hother
  have hrightMem {other : ℕ × ℤ} (hother : other ∈ inorder right) : other.2 ∈ after :=
    hright.values ▸ List.mem_map_of_mem hother
  refine ⟨hplanted.holds, hplanted.nodup, hplanted.fresh, hplanted.old,
    ⟨fun other hother ↦ hbefore other.2 (hleftMem hother),
      fun other hother ↦ hafter other.2 (hrightMem hother), hleft.firstMax, hright.firstMax⟩, ?_⟩
  rw [inorder_node, List.map_append, List.map_cons, hleft.values, hright.values]

/-- The recursion on ranges builds the tree. -/
theorem constructImpl_built (alloc : Allocator (TreeNode ℤ)) (heap : Heap (TreeNode ℤ))
    (nums : List ℤ) :
    ∃ placed heap', constructImpl alloc heap nums = some (root placed, heap') ∧
      Built heap nums placed heap' := by
  induction hsize : nums.length using Nat.strong_induction_on generalizing heap nums with
  | _ size ih =>
    cases nums with
    | nil =>
      refine ⟨.nil, heap, ?_, built_nil heap⟩
      rw [constructImpl]
      rfl
    | cons first rest =>
      obtain ⟨before, val, after, hsplit, hmaxitr, hbefore, hafter⟩ :=
        maxElement_spec (List.cons_ne_nil first rest)
      have hcount : size = before.length + after.length + 1 := by
        rw [← hsize, hsplit, List.length_append, List.length_cons, Nat.add_assoc]
      obtain ⟨address, haddress, hfree⟩ := alloc.exists_address heap
      obtain ⟨left, leftHeap, hleft, hbuiltLeft⟩ :=
        ih before.length (by omega) (heap.set address ⟨val, none, none⟩) before rfl
      obtain ⟨right, rightHeap, hright, hbuiltRight⟩ := ih after.length (by omega)
        (leftHeap.set address ⟨val, root left, none⟩) after rfl
      refine ⟨.node (address, val) left right, _, ?_,
        hsplit ▸ hbuiltLeft.node hfree hbuiltRight hbefore hafter⟩
      have hnode : leftHeap.node address = some ⟨val, none, none⟩ :=
        hbuiltLeft.old.node_eq Heap.set_node_self
      have hnode' : rightHeap.node address = some ⟨val, root left, none⟩ :=
        hbuiltRight.old.node_eq Heap.set_node_self
      have hload : (first :: rest)[maxElement (first :: rest)]? = some val := by
        rw [← hmaxitr, hsplit]
        simp
      have htake : (first :: rest).take (maxElement (first :: rest)) = before := by
        rw [← hmaxitr, hsplit, List.take_left]
      have hdrop : (first :: rest).drop (maxElement (first :: rest) + 1) = after := by
        rw [← hmaxitr, hsplit]
        simp
      rw [constructImpl]
      simp only [hload, htake, hdrop, Allocator.new, haddress, Option.bind_eq_bind, Option.bind_some,
        hleft, Heap.modify_some hnode, hright, Heap.modify_some hnode']
      rfl

/-! ### The stack -/

/-- The addresses on a right spine, as the stack has them. -/
def stackOf (spine : List ((ℕ × ℤ) × PlacedTree ℤ)) : List Ptr := spine.map fun node ↦ some node.1.1

/-- The nodes of a right spine are in the heap, with the tree at the pointer below them. -/
def HoldsSpine (heap : Heap (TreeNode ℤ)) : List ((ℕ × ℤ) × PlacedTree ℤ) → Ptr → Prop
  | [], _ => True
  | ((address, val), left) :: spine, below =>
    heap.node address = some ⟨val, root left, below⟩ ∧ Holds heap left ∧
      HoldsSpine heap spine (some address)

theorem holds_plug {spine : List ((ℕ × ℤ) × PlacedTree ℤ)} {tree : PlacedTree ℤ} :
    Holds heap (plug spine tree) ↔ Holds heap tree ∧ HoldsSpine heap spine (root tree) := by
  induction spine generalizing tree with
  | nil => exact (and_iff_left trivial).symm
  | cons node spine ih =>
    obtain ⟨⟨address, val⟩, left⟩ := node
    rw [plug, ih, HoldsSpine, Holds, root_node]
    tauto

/-- The nodes of the stack that are less than the new one become its left subtree. -/
theorem popLess_spec {cur : ℕ} {val : ℤ} {spine : List ((ℕ × ℤ) × PlacedTree ℤ)} {tree : PlacedTree ℤ}
    (hholds : Holds heap (plug spine tree)) (hcur : heap.node cur = some ⟨val, root tree, none⟩)
    (hnot : cur ∉ addresses (plug spine tree)) :
    ∃ popped rest, spine = popped ++ rest ∧ (∀ node ∈ popped, node.1.2 < val) ∧
      (∀ node ∈ rest.head?, val ≤ node.1.2) ∧
      ∃ heap', popLess (some cur) val heap (stackOf spine) = some (stackOf rest, heap') ∧
        heap'.node cur = some ⟨val, root (plug popped tree), none⟩ ∧ SameOff {cur} heap heap' := by
  induction spine generalizing heap tree with
  | nil =>
    refine ⟨[], [], rfl, nofun, nofun, heap, rfl, hcur, .refl _ heap⟩
  | cons node spine ih =>
    obtain ⟨⟨address, other⟩, left⟩ := node
    have hnode := (holds_plug.mp hholds).2.1
    by_cases hless : other < val
    · have hmodify := Heap.modify_some hcur fun node ↦ { node with left := some address }
      obtain ⟨popped, rest, rfl, hpopped, hrest, heap', hpop, hcur', hsame⟩ :=
        @ih (heap.set cur ⟨val, some address, none⟩) (.node (address, other) left tree)
          (hholds.set hnot) Heap.set_node_self hnot
      refine ⟨((address, other), left) :: popped, rest, rfl,
        List.forall_mem_cons.mpr ⟨hless, hpopped⟩, hrest, heap', ?_, hcur',
        (sameOff_set heap cur _).trans hsame⟩
      rw [stackOf, List.map_cons, popLess, Heap.load_some, hnode]
      simp only [Option.bind_eq_bind, Option.bind_some, if_pos hless]
      rw [hmodify, Option.bind_some]
      exact hpop
    · refine ⟨[], _, rfl, nofun, ?_, heap, ?_, hcur, .refl _ heap⟩
      · rintro node ⟨⟩
        exact not_lt.mp hless
      · rw [stackOf, List.map_cons, popLess, Heap.load_some, hnode]
        simp only [Option.bind_eq_bind, Option.bind_some, if_neg hless]

theorem HoldsSpine.frame {changed : Set ℕ} {heap' : Heap (TreeNode ℤ)}
    {spine : List ((ℕ × ℤ) × PlacedTree ℤ)} {below : Ptr} (h : HoldsSpine heap spine below)
    (hsame : SameOff changed heap heap')
    (hdisjoint : ∀ node ∈ spineOrder spine, node.1 ∉ changed) : HoldsSpine heap' spine below := by
  induction spine generalizing below with
  | nil => trivial
  | cons node spine ih =>
    obtain ⟨⟨address, val⟩, left⟩ := node
    rw [spineOrder] at hdisjoint
    refine ⟨?_, h.2.1.frame hsame fun other hother ↦ ?_, ih h.2.2 fun node hnode ↦
      hdisjoint node (List.mem_append_left _ hnode)⟩
    · rw [hsame address (hdisjoint (address, val) (by simp)), h.1]
    · obtain ⟨node, hnode, rfl⟩ := List.mem_map.mp hother
      exact hdisjoint node (List.mem_append_right _ (List.mem_append_left _ hnode))

/-- A new node behind all others. -/
theorem Built.push {heap' heap'' : Heap (TreeNode ℤ)} {seen : List ℤ} {placed placed' : PlacedTree ℤ}
    {cur : ℕ} {val : ℤ} (h : Built heap seen placed heap') (hfree : heap'.node cur = none)
    (horder : inorder placed' = inorder placed ++ [(cur, val)]) (hholds : Holds heap'' placed')
    (hold : Extends heap heap'') (hfirst : FirstMax Prod.snd placed') :
    Built heap (seen ++ [val]) placed' heap'' := by
  have haddresses : addresses placed' = addresses placed ++ [cur] := by
    rw [addresses, horder, List.map_append]
    rfl
  refine ⟨hholds, ?_, fun other hother ↦ ?_, hold, hfirst, ?_⟩
  · rw [haddresses, List.nodup_append']
    refine ⟨h.nodup, List.nodup_singleton cur, List.disjoint_singleton.mpr (h.holds.notMem hfree)⟩
  · rw [haddresses] at hother
    rcases List.mem_append.mp hother with hother | hother
    · exact h.fresh other hother
    · rw [List.mem_singleton.mp hother]
      exact h.old.free hfree
  · rw [horder, List.map_append, h.values]
    rfl

/-- One round puts the next element at the end of the right spine. -/
theorem addNode_built {heap' : Heap (TreeNode ℤ)} {seen : List ℤ}
    {spine : List ((ℕ × ℤ) × PlacedTree ℤ)} (h : Built heap seen (plug spine .nil) heap') (val : ℤ) :
    ∃ spine' heap'', addNode alloc (stackOf spine, heap') val = some (stackOf spine', heap'') ∧
      Built heap (seen ++ [val]) (plug spine' .nil) heap'' := by
  obtain ⟨cur, hcur, hfree⟩ := alloc.exists_address heap'
  have hnot : cur ∉ addresses (plug spine .nil) := h.holds.notMem hfree
  obtain ⟨popped, rest, rfl, hpopped, hrest, heap₂, hpop, hnode, hsame⟩ :=
    @popLess_spec (heap'.set cur ⟨val, none, none⟩) cur val spine .nil (h.holds.set hnot)
      Heap.set_node_self hnot
  have horder : inorder (plug rest (.node (cur, val) (plug popped .nil) .nil)) =
      inorder (plug (popped ++ rest) .nil) ++ [(cur, val)] := by
    rw [plug_append, inorder_plug, inorder_plug rest, inorder_node, inorder_nil, List.append_assoc]
  have hsame' : SameOff {cur} heap' heap₂ := (sameOff_set heap' cur _).trans hsame
  have hold : Extends heap heap₂ :=
    h.old.trans (hsame'.mono fun other hother ↦ by rwa [Set.mem_singleton_iff.mp hother])
  have hkept : Holds heap₂ (plug rest (plug popped .nil)) := by
    rw [← plug_append]
    exact h.holds.frame hsame' (forall_notMem_singleton hnot)
  have hfirst : FirstMax Prod.snd (plug rest (.node (cur, val) (plug popped .nil) .nil)) :=
    h.firstMax.push hpopped hrest
  refine ⟨((cur, val), plug popped .nil) :: rest, ?_⟩
  obtain ⟨hpoppedHolds, hspine⟩ := holds_plug.mp hkept
  cases rest with
  | nil =>
    refine ⟨heap₂, ?_, h.push hfree horder ⟨hnode, hpoppedHolds, trivial⟩ hold hfirst⟩
    rw [addNode]
    simp only [Allocator.new, hcur, Option.bind_eq_bind, Option.bind_some, hpop]
    rfl
  | cons head rest =>
    obtain ⟨⟨address, other⟩, left⟩ := head
    -- The node below which the new one goes is in no other part of the tree.
    have hnodup := h.nodup
    rw [plug_append, plug, addresses, inorder_plug, List.map_append, List.nodup_append',
      ← addresses, nodup_addresses_node] at hnodup
    obtain ⟨-, ⟨-, -, hnotLeft, hnotPopped, -⟩, hdisjoint⟩ := hnodup
    have hne : cur ≠ address := by
      rintro rfl
      refine hnot ?_
      rw [plug_append, plug, addresses, inorder_plug, List.map_append, ← addresses]
      exact List.mem_append_right _ (mem_addresses_node.mpr (Or.inl rfl))
    have hnotSpine : ∀ node ∈ spineOrder rest, node.1 ∉ ({address} : Set ℕ) := by
      rintro node hmem hsame
      refine hdisjoint (List.mem_map_of_mem hmem) ?_
      rw [Set.mem_singleton_iff.mp hsame]
      exact mem_addresses_node.mpr (Or.inl rfl)
    have hmodify := Heap.modify_some hspine.1 fun node ↦ { node with right := some cur }
    have hholds : Holds (heap₂.set address ⟨other, root left, some cur⟩)
        (plug (((address, other), left) :: rest) (.node (cur, val) (plug popped .nil) .nil)) := by
      refine holds_plug.mpr ⟨⟨?_, hpoppedHolds.set hnotPopped, trivial⟩, Heap.set_node_self,
        hspine.2.1.set hnotLeft, hspine.2.2.frame (sameOff_set _ _ _) hnotSpine⟩
      rw [Heap.set_node_of_ne hne, hnode]
      rfl
    have hold' : Extends heap (heap₂.set address ⟨other, root left, some cur⟩) := by
      refine hold.set (h.fresh address ?_) _
      rw [plug_append, plug, addresses, inorder_plug, List.map_append, ← addresses]
      exact List.mem_append_right _ (mem_addresses_node.mpr (Or.inl rfl))
    refine ⟨_, ?_, h.push hfree horder hholds hold' hfirst⟩
    rw [addNode]
    simp only [Allocator.new, hcur, Option.bind_eq_bind, Option.bind_some, hpop]
    simp only [stackOf, List.map_cons, hmodify]
    rfl

theorem foldlM_built {heap' : Heap (TreeNode ℤ)} {seen : List ℤ}
    {spine : List ((ℕ × ℤ) × PlacedTree ℤ)} (h : Built heap seen (plug spine .nil) heap')
    (nums : List ℤ) :
    ∃ last lastHeap, nums.foldlM (addNode alloc) (stackOf spine, heap') =
        some (stackOf last, lastHeap) ∧ Built heap (seen ++ nums) (plug last .nil) lastHeap := by
  induction nums generalizing seen spine heap' with
  | nil => exact ⟨spine, heap', rfl, (List.append_nil seen).symm ▸ h⟩
  | cons val nums ih =>
    obtain ⟨next, nextHeap, hround, hnext⟩ := addNode_built h val
    obtain ⟨last, lastHeap, hloop, hlast⟩ := ih hnext
    refine ⟨last, lastHeap, ?_, List.append_cons seen val nums ▸ hlast⟩
    rw [List.foldlM_cons, hround]
    exact hloop

/-- The front of the stack is the root. -/
theorem getLast?_stackOf {spine : List ((ℕ × ℤ) × PlacedTree ℤ)} (tree : PlacedTree ℤ)
    (hspine : spine ≠ []) : (stackOf spine).getLast? = some (root (plug spine tree)) := by
  induction spine generalizing tree with
  | nil => exact absurd rfl hspine
  | cons node spine ih =>
    by_cases hrest : spine = []
    · rw [hrest]
      rfl
    · rw [stackOf, List.map_cons, List.getLast?_cons, ← stackOf,
        ih (.node node.1 node.2 tree) hrest]
      rfl

/-- The loop with the stack builds the tree. -/
theorem iterative_built (alloc : Allocator (TreeNode ℤ)) (heap : Heap (TreeNode ℤ)) {nums : List ℤ}
    (hnums : nums ≠ []) :
    ∃ placed heap', constructMaximumBinaryTreeIterative alloc heap nums = some (root placed, heap') ∧
      Built heap nums placed heap' := by
  have hempty : Built heap [] (plug [] .nil) heap := built_nil heap
  obtain ⟨spine, heap', hloop, hbuilt⟩ := @foldlM_built alloc heap heap [] [] hempty nums
  have hspine : spine ≠ [] := by
    rintro rfl
    exact hnums hbuilt.values.symm
  refine ⟨plug spine .nil, heap', ?_, hbuilt⟩
  have hloop' : nums.foldlM (addNode alloc) ([], heap) = some (stackOf spine, heap') := hloop
  rw [constructMaximumBinaryTreeIterative, hloop']
  simp only [Option.bind_eq_bind, Option.bind_some, getLast?_stackOf .nil hspine]
  rfl

/-! ### Halves -/

theorem takesRight_eq {left right : PlacedTree ℤ} (hleft : Holds heap left) (hright : Holds heap right) :
    takesRight heap (root left) (root right) = some true ∧
        (∃ label left' right', right = .node label left' right' ∧
          ∀ other ∈ top left, other.2 < label.2) ∨
      takesRight heap (root left) (root right) = some false ∧
        (right = .nil ∨ ∃ label left' right', left = .node label left' right' ∧
          ∀ other ∈ top right, other.2 ≤ label.2) := by
  cases right with
  | nil => exact Or.inr ⟨rfl, Or.inl rfl⟩
  | node label left' right' =>
    obtain ⟨address, val⟩ := label
    cases left with
    | nil => exact Or.inl ⟨rfl, _, _, _, rfl, nofun⟩
    | node label' left'' right'' =>
      obtain ⟨address', val'⟩ := label'
      have htakes : takesRight heap (some address') (some address) = some (decide (val' < val)) := by
        rw [takesRight, if_neg (Option.some_ne_none _), if_neg (Option.some_ne_none _), Heap.load_some,
          hright.node_eq, Heap.load_some, hleft.node_eq]
        rfl
      by_cases hless : val' < val
      · refine Or.inl ⟨htakes.trans (by rw [decide_eq_true hless]), _, _, _, rfl, ?_⟩
        rintro other ⟨⟩
        exact hless
      · refine Or.inr ⟨htakes.trans (by rw [decide_eq_false hless]), Or.inr ⟨_, _, _, rfl, ?_⟩⟩
        rintro other ⟨⟩
        exact not_lt.mp hless

/-- When the loop goes on below a node that it has taken, the subtree of that node which is kept
stays, and so does the node above, which now points to it. -/
theorem taken_spec {heap' : Heap (TreeNode ℤ)} {cur address : ℕ} {above : TreeNode ℤ}
    {kept : PlacedTree ℤ} {rest owned : List ℕ}
    (hkept : Holds heap kept) (hperm : owned.Perm (address :: rest ++ addresses kept))
    (hnodup : (cur :: owned).Nodup)
    (hsame : SameOff {other | other ∈ address :: rest} (heap.set cur above) heap') :
    Holds heap' kept ∧ heap'.node cur = some above ∧
      SameOff {other | other ∈ cur :: owned} heap heap' := by
  obtain ⟨hnotCur, hnodup⟩ := List.nodup_cons.mp hnodup
  rw [hperm.nodup_iff, List.nodup_append'] at hnodup
  rw [hperm.mem_iff, List.mem_append, not_or] at hnotCur
  refine ⟨(hkept.set hnotCur.2).frame hsame fun other hother hmem ↦ hnodup.2.2 hmem hother,
    (hsame cur hnotCur.1).trans Heap.set_node_self,
    (sameOff_set_of_mem List.mem_cons_self heap above).trans (hsame.mono fun other hother ↦ ?_)⟩
  exact List.mem_cons_of_mem cur (hperm.mem_iff.mpr (List.mem_append_left _ hother))

/-- The trees are merged below the node at which the loop is. -/
theorem mergeLoop_spec {fuel cur : ℕ} {isRightSpine : Bool} {node : TreeNode ℤ}
    {left right : PlacedTree ℤ} (hleft : Holds heap left) (hright : Holds heap right)
    (hnodup : (cur :: (addresses left ++ addresses right)).Nodup) (hcur : heap.node cur = some node)
    (hend : left = .nil → right = .nil → attach isRightSpine node none = node)
    (hfuel : left.numNodes + right.numNodes < fuel) :
    ∃ heap', mergeLoop fuel heap (some cur) isRightSpine (root left) (root right) = some heap' ∧
      Holds heap' (merge Prod.snd left right) ∧
      heap'.node cur = some (attach isRightSpine node (root (merge Prod.snd left right))) ∧
      SameOff {address | address ∈ cur :: (addresses left ++ addresses right)} heap heap' := by
  induction fuel generalizing heap cur isRightSpine node left right with
  | zero => omega
  | succ fuel ih =>
    by_cases hnil : left = .nil ∧ right = .nil
    · obtain ⟨rfl, rfl⟩ := hnil
      refine ⟨heap, rfl, ?_, ?_, .refl _ heap⟩
      · rw [merge]
        trivial
      · rw [merge, root_nil, hend rfl rfl, hcur]
    have hloop : root left ≠ none ∨ root right ≠ none := by
      rwa [Ne, Ne, root_eq_none, root_eq_none, ← not_and_or]
    obtain ⟨hnotCur, hnodupBoth⟩ := List.nodup_cons.mp hnodup
    rcases takesRight_eq hleft hright with
      ⟨htakes, ⟨address, val⟩, left', right', rfl, hless⟩ | ⟨htakes, hcases⟩
    · -- What is left of the trees, the node that is taken, and its subtree that stays have nothing in
      -- common.
      have hperm : (addresses left ++ addresses (.node (address, val) left' right')).Perm
          (address :: (addresses left ++ addresses left') ++ addresses right') := by
        rw [addresses_node, ← List.append_assoc, List.cons_append]
        exact List.perm_middle
      rw [hperm.nodup_iff, List.nodup_append'] at hnodupBoth
      obtain ⟨hnodupRest, -, -⟩ := hnodupBoth
      rw [hperm.mem_iff] at hnotCur
      have hne : address ≠ cur := fun heq ↦ hnotCur (by simp [heq])
      have hnode : (heap.set cur (attach isRightSpine node (some address))).node address =
          some ⟨val, root left', root right'⟩ := (Heap.set_node_of_ne hne).trans hright.node_eq
      obtain ⟨heap', hrun, hmerged, hcell, hsame⟩ :=
        @ih (heap.set cur (attach isRightSpine node (some address))) address true _ left left'
          (hleft.set fun hmem ↦ hnotCur (by simp [hmem]))
          (hright.leftTree.set fun hmem ↦ hnotCur (by simp [hmem])) hnodupRest hnode
          (by rintro rfl rfl; rfl) (by rw [BinaryTree.numNodes] at hfuel; omega)
      obtain ⟨hkept, habove, hrest⟩ := taken_spec hright.rightTree hperm hnodup hsame
      rw [merge_of_lt hless]
      refine ⟨heap', ?_, ⟨hcell, hmerged, hkept⟩, habove, hrest⟩
      rw [mergeLoop, if_pos hloop, htakes]
      simp only [Option.bind_eq_bind, Option.bind_some, if_true, Heap.modify_some hcur, root_node,
        Heap.load_some, hnode]
      exact hrun
    · obtain ⟨⟨address, val⟩, left', right', rfl, hle⟩ : ∃ label left' right',
          left = .node label left' right' ∧ ∀ other ∈ top right, other.2 ≤ label.2 := by
        rcases hcases with rfl | hcases
        · cases left with
          | nil => exact absurd ⟨rfl, rfl⟩ hnil
          | node label left' right' =>
            refine ⟨label, left', right', rfl, fun _ hother ↦ ?_⟩
            cases hother
        · exact hcases
      have hperm : (addresses (.node (address, val) left' right') ++ addresses right).Perm
          (address :: (addresses right' ++ addresses right) ++ addresses left') := by
        rw [addresses_node, List.append_assoc, List.cons_append]
        exact List.perm_append_comm
      rw [hperm.nodup_iff, List.nodup_append'] at hnodupBoth
      obtain ⟨hnodupRest, -, -⟩ := hnodupBoth
      rw [hperm.mem_iff] at hnotCur
      have hne : address ≠ cur := fun heq ↦ hnotCur (by simp [heq])
      have hnode : (heap.set cur (attach isRightSpine node (some address))).node address =
          some ⟨val, root left', root right'⟩ := (Heap.set_node_of_ne hne).trans hleft.node_eq
      obtain ⟨heap', hrun, hmerged, hcell, hsame⟩ :=
        @ih (heap.set cur (attach isRightSpine node (some address))) address false _ right' right
          (hleft.rightTree.set fun hmem ↦ hnotCur (by simp [hmem]))
          (hright.set fun hmem ↦ hnotCur (by simp [hmem])) hnodupRest hnode
          (by rintro rfl rfl; rfl) (by rw [BinaryTree.numNodes] at hfuel; omega)
      obtain ⟨hkept, habove, hrest⟩ := taken_spec hleft.leftTree hperm hnodup hsame
      rw [merge_of_le hle]
      refine ⟨heap', ?_, ⟨hcell, hkept, hmerged⟩, habove, hrest⟩
      rw [mergeLoop, if_pos hloop, htakes]
      simp only [Option.bind_eq_bind, Option.bind_some, Heap.modify_some hcur, root_node,
        Heap.load_some, hnode]
      exact hrun

/-- The node of its own is gone again when the merge returns. -/
theorem mergeCartesianTree_spec (alloc : Allocator (TreeNode ℤ)) {fuel : ℕ}
    {left right : PlacedTree ℤ} (hleft : Holds heap left) (hright : Holds heap right)
    (hleftNil : left ≠ .nil) (hrightNil : right ≠ .nil)
    (hnodup : (addresses left ++ addresses right).Nodup)
    (hfuel : left.numNodes + right.numNodes < fuel) :
    ∃ heap', mergeCartesianTree alloc fuel heap (root left) (root right) =
        some (root (merge Prod.snd left right), heap') ∧ Holds heap' (merge Prod.snd left right) ∧
      SameOff {address | address ∈ addresses left ++ addresses right} heap heap' := by
  obtain ⟨cur, hcur, hfree⟩ := alloc.exists_address heap
  have hnot : cur ∉ addresses left ++ addresses right := fun hmem ↦ by
    rcases List.mem_append.mp hmem with hmem | hmem
    · exact hleft.notMem hfree hmem
    · exact hright.notMem hfree hmem
  have hnew (tree : PlacedTree ℤ) (hholds : Holds heap tree) :
      Holds (heap.set cur ⟨0, none, none⟩) tree := hholds.extends (extends_set hfree _)
  obtain ⟨merged, hloop, hmerged, hcell, hsame⟩ :=
    @mergeLoop_spec (heap.set cur ⟨0, none, none⟩) fuel cur true ⟨0, none, none⟩ left right
      (hnew left hleft) (hnew right hright) (List.nodup_cons.mpr ⟨hnot, hnodup⟩) Heap.set_node_self
      (fun hnil ↦ absurd hnil hleftNil) hfuel
  obtain ⟨heap', hdelete, hgone, hsame'⟩ := Heap.delete_some hcell
  refine ⟨heap', ?_, hmerged.frame hsame' fun other hother hmem ↦ hnot ?_, fun other hother ↦ ?_⟩
  · have hne : ¬ (root left = none ∨ root right = none) := by
      rw [root_eq_none, root_eq_none, not_or]
      exact ⟨hleftNil, hrightNil⟩
    rw [mergeCartesianTree, if_neg hne]
    simp only [Allocator.new, hcur, Option.bind_eq_bind, Option.bind_some, hloop, Heap.load_some,
      hcell, hdelete]
    rfl
  · obtain rfl : other = cur := hmem
    rwa [addresses, inorder_merge, List.map_append] at hother
  · by_cases heq : other = cur
    · rw [heq, hgone, hfree]
    · rw [hsame' other heq, hsame other fun hmem ↦ ?_, Heap.set_node_of_ne heq]
      rcases List.mem_cons.mp hmem with hmem | hmem
      · exact heq hmem
      · exact hother hmem

/-- The trees of two halves, merged. -/
theorem Built.merge {before after : List ℤ} {left right : PlacedTree ℤ}
    {leftHeap rightHeap heap' : Heap (TreeNode ℤ)} (hleft : Built heap before left leftHeap)
    (hright : Built leftHeap after right rightHeap)
    (hholds : Holds heap' (Foundation.CartesianTree.merge Prod.snd left right))
    (hnodup : (addresses left ++ addresses right).Nodup)
    (hsame : SameOff {address | address ∈ addresses left ++ addresses right} rightHeap heap') :
    Built heap (before ++ after) (Foundation.CartesianTree.merge Prod.snd left right) heap' := by
  have haddresses : addresses (Foundation.CartesianTree.merge Prod.snd left right) =
      addresses left ++ addresses right := by
    rw [addresses, inorder_merge, List.map_append, addresses, addresses]
  have hfresh : ∀ address ∈ addresses left ++ addresses right, heap.node address = none :=
    List.forall_mem_append.mpr ⟨hleft.fresh, fun address hmem ↦
      hleft.old.free (hright.fresh address hmem)⟩
  refine ⟨hholds, haddresses ▸ hnodup, haddresses ▸ hfresh, ?_, hleft.firstMax.merge hright.firstMax, ?_⟩
  · exact SameOff.trans (hleft.old.trans hright.old) (hsame.mono hfresh)
  · rw [inorder_merge, List.map_append, hleft.values, hright.values]

/-- The recursion on halves builds the tree. -/
theorem constructDACImpl_built (alloc : Allocator (TreeNode ℤ)) {fuel : ℕ}
    (heap : Heap (TreeNode ℤ)) {nums : List ℤ} (hfuel : nums.length < fuel) :
    ∃ placed heap', constructDACImpl alloc fuel heap nums = some (root placed, heap') ∧
      Built heap nums placed heap' := by
  induction hsize : nums.length using Nat.strong_induction_on generalizing heap nums with
  | _ size ih =>
    match nums with
    | [] =>
      refine ⟨.nil, heap, ?_, built_nil heap⟩
      rw [constructDACImpl]
      rfl
    | [val] =>
      obtain ⟨address, haddress, hfree⟩ := alloc.exists_address heap
      refine ⟨.node (address, val) .nil .nil, heap.set address ⟨val, none, none⟩, ?_,
        (built_nil heap).push hfree rfl ⟨Heap.set_node_self, trivial, trivial⟩ (extends_set hfree _)
          ⟨nofun, nofun, trivial, trivial⟩⟩
      rw [constructDACImpl, Allocator.new, haddress]
      rfl
    | first :: second :: rest =>
      set nums := first :: second :: rest with hnums
      have hcount : nums.length = rest.length + 2 := rfl
      have htake : (nums.take (nums.length / 2)).length = nums.length / 2 :=
        List.length_take_of_le (Nat.div_le_self ..)
      have hdrop : (nums.drop (nums.length / 2)).length = nums.length - nums.length / 2 :=
        List.length_drop
      obtain ⟨left, leftHeap, hleft, hbuiltLeft⟩ := ih _ (by omega) heap (by omega) htake
      obtain ⟨right, rightHeap, hright, hbuiltRight⟩ := ih _ (by omega) leftHeap (by omega) hdrop
      have hleftNodes : left.numNodes = nums.length / 2 := by
        rw [← htake, ← hbuiltLeft.values, List.length_map, length_inorder]
      have hrightNodes : right.numNodes = nums.length - nums.length / 2 := by
        rw [← hdrop, ← hbuiltRight.values, List.length_map, length_inorder]
      have hnodup : (addresses left ++ addresses right).Nodup :=
        List.nodup_append'.mpr ⟨hbuiltLeft.nodup, hbuiltRight.nodup, fun other hmem hmem' ↦
          hbuiltLeft.holds.node_ne_none hmem (hbuiltRight.fresh other hmem')⟩
      obtain ⟨heap', hmerge, hholds, hsame⟩ := mergeCartesianTree_spec alloc
        (hbuiltLeft.holds.extends hbuiltRight.old) hbuiltRight.holds
        (by rintro rfl; rw [BinaryTree.numNodes] at hleftNodes; omega)
        (by rintro rfl; rw [BinaryTree.numNodes] at hrightNodes; omega) hnodup
        (by omega : left.numNodes + right.numNodes < fuel)
      refine ⟨_, heap', ?_, List.take_append_drop (nums.length / 2) nums ▸
        hbuiltLeft.merge hbuiltRight hholds hnodup hsame⟩
      rw [hnums, constructDACImpl, ← hnums]
      simp only [Option.bind_eq_bind, Option.bind_some, hleft, hright, hmerge]

/-! ### Agreement -/

/-- A pointer to a tree of these contents is returned. -/
def Constructs (result : Option (Ptr × Heap (TreeNode ℤ))) (tree : BinaryTree ℤ) : Prop :=
  ∃ ptr heap', result = some (ptr, heap') ∧ Stores heap' ptr tree

/-- What is built has the contents that the array determines. -/
theorem Built.constructs {nums : List ℤ} {placed : PlacedTree ℤ} {heap' : Heap (TreeNode ℤ)}
    {result : Option (Ptr × Heap (TreeNode ℤ))} {tree : BinaryTree ℤ} (h : Built heap nums placed heap')
    (hresult : result = some (root placed, heap')) (htree : FirstMax id tree)
    (horder : inorder tree = nums) : Constructs result tree := by
  refine ⟨root placed, heap', hresult, placed, rfl, h.holds, h.nodup, ?_⟩
  refine h.firstMax.map.unique htree ?_
  rw [inorder_map, h.values, horder]

/-- All three constructions build the same tree, whose values in order are the array and in which no
child is greater than its parent. The limit on the rounds of the merge is never reached. -/
theorem constructions_agree {nums : List ℤ} (hnums : nums ≠ []) :
    ∃ tree : BinaryTree ℤ, inorder tree = nums ∧ ChildrenLe tree ∧
      ∀ (alloc : Allocator (TreeNode ℤ)) (heap : Heap (TreeNode ℤ)),
        Constructs (constructMaximumBinaryTree alloc heap nums) tree ∧
        Constructs (constructMaximumBinaryTreeIterative alloc heap nums) tree ∧
        ∀ fuel, nums.length < fuel →
          Constructs (constructMaximumBinaryTreeDAC alloc fuel heap nums) tree := by
  obtain ⟨placed, _, _, hbuilt⟩ := constructImpl_built .next .empty nums
  have htree : FirstMax id (contents placed) := hbuilt.firstMax.map
  have horder : inorder (contents placed) = nums := by rw [contents, inorder_map, hbuilt.values]
  refine ⟨contents placed, horder, htree.childrenLe, fun alloc heap ↦ ⟨?_, ?_, fun fuel hfuel ↦ ?_⟩⟩
  · obtain ⟨placed', heap', hresult, hbuilt'⟩ := constructImpl_built alloc heap nums
    exact hbuilt'.constructs hresult htree horder
  · obtain ⟨placed', heap', hresult, hbuilt'⟩ := iterative_built alloc heap hnums
    exact hbuilt'.constructs hresult htree horder
  · obtain ⟨placed', heap', hresult, hbuilt'⟩ := constructDACImpl_built alloc heap hfuel
    exact hbuilt'.constructs hresult htree horder

/-- An array whose greatest element occurs twice. -/
theorem constructions_agree_four :
    ∃ tree : BinaryTree ℤ, inorder tree = [3, 2, 3, 1] ∧ ChildrenLe tree ∧
      ∀ (alloc : Allocator (TreeNode ℤ)) (heap : Heap (TreeNode ℤ)),
        Constructs (constructMaximumBinaryTree alloc heap [3, 2, 3, 1]) tree ∧
        Constructs (constructMaximumBinaryTreeIterative alloc heap [3, 2, 3, 1]) tree ∧
        ∀ fuel, [3, 2, 3, 1].length < fuel →
          Constructs (constructMaximumBinaryTreeDAC alloc fuel heap [3, 2, 3, 1]) tree :=
  constructions_agree (List.cons_ne_nil 3 [2, 3, 1])

end CppLearn.Leetcode.MaximumBinaryTree
