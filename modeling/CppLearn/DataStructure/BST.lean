import CppLearn.Foundation.SearchTree
import CppLearn.Foundation.ValueObjects
import Mathlib.Data.BitVec

/-!
# Binary search trees

`BST` has a tree of nodes that it owns, and counts them in 32 bits. `insert`, `remove` and `find` go down
from the root with the same loop, which keeps the node above as `parent`. Nodes are made with `new` by an
allocator, which may place them anywhere that is free. Undefined is what reads or writes through a
pointer without a node. The loops have a limit on their rounds, more than there are addresses: a loop
that takes more of them has come to a node again, and does not end.
-/

set_option autoImplicit false
set_option relaxedAutoImplicit false

namespace CppLearn.DataStructure

open Foundation.HeapTree Foundation.NodeHeap Foundation.SearchTree Foundation.TreeContext
open Foundation.ValueObjects (copyAndSwap)

/-- The members of a `BST`. -/
structure BST where
  mRoot : Ptr
  mSize : BitVec 32
  deriving DecidableEq

namespace BST

variable {α : Type} [LinearOrder α]

/-! ### The program -/

/-- The constructor without arguments. -/
def construct : BST := ⟨none, 0⟩

def size (bst : BST) : BitVec 32 := bst.mSize

/-- The loop of `insert`, `remove` and `find` up to the node of the element: `parent` and `pos`, null
where there is no such node. -/
def descend (heap : Heap (TreeNode α)) (elem : α) : ℕ → Ptr → Ptr → Option (Ptr × Ptr)
  | 0, _, _ => none
  | fuel + 1, parent, pos =>
    if pos = none then some (parent, pos)
    else do
      let node ← heap.load pos
      if node.val = elem then some (parent, pos)
      else descend heap elem fuel pos (if node.val < elem then node.right else node.left)

def find (elem : α) (heap : Heap (TreeNode α)) (bst : BST) : Option Bool := do
  let (_, pos) ← descend heap elem (heap.bound + 1) bst.mRoot bst.mRoot
  return pos ≠ none

def insert (alloc : Allocator (TreeNode α)) (elem : α) (heap : Heap (TreeNode α)) (bst : BST) :
    Option (Bool × BST × Heap (TreeNode α)) := do
  let (parent, pos) ← descend heap elem (heap.bound + 1) bst.mRoot bst.mRoot
  if pos ≠ none then some (false, bst, heap)
  else do
    let (pos, heap) := alloc.new heap ⟨elem, none, none⟩
    if parent = none then some (true, ⟨some pos, bst.mSize + 1⟩, heap)
    else do
      let heap ← heap.modify parent fun node ↦
        if node.val < elem then { node with right := some pos } else { node with left := some pos }
      return (true, ⟨bst.mRoot, bst.mSize + 1⟩, heap)

/-- The loop of `remove_min`. -/
def leftmost (heap : Heap (TreeNode α)) : ℕ → Ptr → Ptr → Option (Ptr × Ptr)
  | 0, _, _ => none
  | fuel + 1, parent, pos => do
    let node ← heap.load pos
    if node.left ≠ none then leftmost heap fuel pos node.left else some (parent, pos)

def removeMin (heap : Heap (TreeNode α)) (root : Ptr) : Option (Ptr × Heap (TreeNode α)) :=
  if root = none then some (root, heap)
  else do
    let (parent, pos) ← leftmost heap (heap.bound + 1) root root
    let node ← heap.load pos
    let heap ← heap.modify parent fun above ↦ { above with left := node.right }
    let heap ← heap.modify pos fun node ↦ { node with right := none }
    return (pos, heap)

/-- The first branch of `remove`: `tmp`, which takes the place of `pos`. -/
def replacement (heap : Heap (TreeNode α)) (pos : Ptr) : Option (Ptr × Heap (TreeNode α)) := do
  let node ← heap.load pos
  if node.left = none then some (node.right, heap)
  else if node.right = none then some (node.left, heap)
  else do
    let (tmp, heap) ← removeMin heap node.right
    let node ← heap.load pos
    let heap ← heap.modify tmp fun least ↦ { least with left := node.left }
    let node ← heap.load pos
    let heap ← heap.modify tmp fun least ↦ { least with right := node.right }
    return (tmp, heap)

/-- The second branch of `remove`: `parent` points to `tmp`, or `m_root` does. -/
def relink (elem : α) (heap : Heap (TreeNode α)) (root parent tmp : Ptr) :
    Option (Ptr × Heap (TreeNode α)) := do
  let above ← heap.load parent
  if above.val < elem then do
    let heap ← heap.modify parent fun above ↦ { above with right := tmp }
    return (root, heap)
  else if elem < above.val then do
    let heap ← heap.modify parent fun above ↦ { above with left := tmp }
    return (root, heap)
  else some (tmp, heap)

def remove (elem : α) (heap : Heap (TreeNode α)) (bst : BST) :
    Option (Bool × BST × Heap (TreeNode α)) := do
  let (parent, pos) ← descend heap elem (heap.bound + 1) bst.mRoot bst.mRoot
  if pos = none then some (false, bst, heap)
  else do
    let (tmp, heap) ← replacement heap pos
    let (root, heap) ← relink elem heap bst.mRoot parent tmp
    let heap ← heap.delete pos
    return (true, ⟨root, bst.mSize - 1⟩, heap)

/-- The inner loop of `traverse`: the node and what is to its left go onto the stack. -/
def pushLeft (heap : Heap (TreeNode α)) : ℕ → Ptr → List Ptr → Option (List Ptr)
  | 0, _, _ => none
  | fuel + 1, node, unvisited =>
    if node = none then some unvisited
    else do
      let cell ← heap.load node
      pushLeft heap fuel cell.left (node :: unvisited)

/-- The outer loop, with the data that it has written to `out`. -/
def visitLoop (heap : Heap (TreeNode α)) : ℕ → Ptr → List Ptr → List α → Option (List α)
  | 0, _, _, _ => none
  | fuel + 1, node, unvisited, out =>
    if node = none ∧ unvisited = [] then some out
    else do
      let unvisited ← pushLeft heap (heap.bound + 1) node unvisited
      let (node, unvisited) ← match unvisited with
        | [] => none
        | top :: unvisited => some (top, unvisited)
      let cell ← heap.load node
      visitLoop heap fuel cell.right unvisited (out ++ [cell.val])

/-- The data that `traverse` visits. -/
def visits (heap : Heap (TreeNode α)) (bst : BST) : Option (List α) :=
  if size bst ≠ 0 then visitLoop heap (heap.bound + 1) bst.mRoot [] [] else some []

/-- What `traverse` writes, where `out << elem` writes `write elem`. -/
def traverse (write : α → String) (heap : Heap (TreeNode α)) (bst : BST) : Option String := do
  let visited ← visits heap bst
  return "\x7b [lxy::BST] " ++ String.join (visited.map fun elem ↦ write elem ++ " ") ++ "\x7d"

/-- `copy`, with a limit on its depth. -/
def copy (alloc : Allocator (TreeNode α)) :
    ℕ → Heap (TreeNode α) → Ptr → Option (Ptr × Heap (TreeNode α))
  | 0, _, _ => none
  | fuel + 1, heap, root =>
    if root = none then some (none, heap)
    else do
      let original ← heap.load root
      let (node, heap) := alloc.new heap ⟨original.val, none, none⟩
      let original ← heap.load root
      let (left, heap) ← copy alloc fuel heap original.left
      let heap ← heap.modify (some node) fun node ↦ { node with left := left }
      let original ← heap.load root
      let (right, heap) ← copy alloc fuel heap original.right
      let heap ← heap.modify (some node) fun node ↦ { node with right := right }
      return (some node, heap)

/-- The copy constructor. -/
def copyConstruct (alloc : Allocator (TreeNode α)) (heap : Heap (TreeNode α)) (original : BST) :
    Option (BST × Heap (TreeNode α)) :=
  if size original ≠ 0 then do
    let (root, heap) ← copy alloc (heap.bound + 1) heap original.mRoot
    return (⟨root, original.mSize⟩, heap)
  else some (⟨none, original.mSize⟩, heap)

/-- `clear`, with a limit on its depth. -/
def clear : ℕ → Heap (TreeNode α) → Ptr → Option (Heap (TreeNode α))
  | 0, _, _ => none
  | fuel + 1, heap, root =>
    if root = none then some heap
    else do
      let node ← heap.load root
      let heap ← clear fuel heap node.left
      let node ← heap.load root
      let heap ← clear fuel heap node.right
      heap.delete root

/-- The destructor. -/
def destruct (heap : Heap (TreeNode α)) (bst : BST) : Option (Heap (TreeNode α)) :=
  if size bst ≠ 0 then clear (heap.bound + 1) heap bst.mRoot else some heap

/-- `swap`: the two objects afterwards. -/
def swap (bst rightHandSide : BST) : BST × BST :=
  (⟨rightHandSide.mRoot, rightHandSide.mSize⟩, ⟨bst.mRoot, bst.mSize⟩)

/-- `operator=`. -/
def assign (alloc : Allocator (TreeNode α)) :
    Heap (TreeNode α) → BST → BST → Option (BST × Heap (TreeNode α)) :=
  copyAndSwap (copyConstruct alloc) swap destruct

/-! ### The tree of an object -/

/-- The elements of a tree, from the left to the right. -/
def keys (placed : PlacedTree α) : List α := (inorder placed).map Prod.snd

/-- The nodes from a pointer on form a search tree, without cycles or sharing. -/
structure Reaches (heap : Heap (TreeNode α)) (ptr : Ptr) (placed : PlacedTree α) : Prop where
  root_eq : root placed = ptr
  holds : Holds heap placed
  nodup : (addresses placed).Nodup
  ascending : Ascending Prod.snd placed

/-- The object has the search tree, and counts its nodes. -/
structure Represents (heap : Heap (TreeNode α)) (bst : BST) (placed : PlacedTree α) : Prop
    extends Reaches heap bst.mRoot placed where
  size_eq : bst.mSize.toNat = placed.numNodes

variable {alloc : Allocator (TreeNode α)} {heap : Heap (TreeNode α)} {bst : BST}
  {placed : PlacedTree α} {elem : α}

theorem ascending_iff : Ascending Prod.snd placed ↔ (keys placed).Pairwise (· < ·) :=
  List.pairwise_map.symm

theorem represents_construct (heap : Heap (TreeNode α)) : Represents heap construct .nil :=
  ⟨⟨rfl, trivial, .nil, ascending_nil _⟩, rfl⟩

/-- The loop goes on to the node of the element, or to the hole where it would be. -/
theorem descend_spec {fuel : ℕ} {start : Ptr} {context : Context (ℕ × α)} {tree : PlacedTree α}
    (hholds : Holds heap tree) (hleads : Leads Prod.snd elem context) (hfuel : tree.numNodes < fuel) :
    ∃ context' tree', fill context tree = fill context' tree' ∧ Leads Prod.snd elem context' ∧
      descend heap elem fuel (holeParent context start) (root tree) =
        some (holeParent context' start, root tree') ∧
      (tree' = .nil ∨ ∃ address left right, tree' = .node (address, elem) left right) := by
  induction tree generalizing fuel context with
  | nil =>
    obtain ⟨fuel, rfl⟩ := Nat.exists_eq_succ_of_ne_zero (Nat.ne_of_gt hfuel)
    exact ⟨context, .nil, rfl, hleads, by rw [descend, root_nil, if_pos rfl], Or.inl rfl⟩
  | node label left right ihLeft ihRight =>
    obtain ⟨address, val⟩ := label
    obtain ⟨fuel, rfl⟩ := Nat.exists_eq_succ_of_ne_zero (Nat.ne_of_gt (Nat.zero_lt_of_lt hfuel))
    rw [BinaryTree.numNodes] at hfuel
    by_cases heq : val = elem
    · subst heq
      refine ⟨context, _, rfl, hleads, ?_, Or.inr ⟨address, left, right, rfl⟩⟩
      rw [descend, root_node, if_neg (Option.some_ne_none address), Heap.load_some, hholds.node_eq]
      simp only [Option.bind_eq_bind, Option.bind_some, if_true]
    have hstep (next : Ptr) (hnext : (if val < elem then root right else root left) = next) :
        descend heap elem (fuel + 1) (holeParent context start) (some address) =
          descend heap elem fuel (some address) next := by
      rw [descend, if_neg (Option.some_ne_none address), Heap.load_some, hholds.node_eq]
      simp only [Option.bind_eq_bind, Option.bind_some, if_neg heq, hnext]
    rcases lt_or_gt_of_ne heq with hless | hgreater
    · obtain ⟨context', tree', hfill, hleads', hdescend, hend⟩ :=
        @ihRight fuel (.goRight (address, val) left :: context) hholds.rightTree
          (List.forall_mem_cons.mpr ⟨hless, hleads⟩) (by omega)
      exact ⟨context', tree', hfill, hleads', (hstep _ (if_pos hless)).trans hdescend, hend⟩
    · obtain ⟨context', tree', hfill, hleads', hdescend, hend⟩ :=
        @ihLeft fuel (.goLeft (address, val) right :: context) hholds.leftTree
          (List.forall_mem_cons.mpr ⟨hgreater, hleads⟩) (by omega)
      exact ⟨context', tree', hfill, hleads', (hstep _ (if_neg hgreater.not_gt)).trans hdescend, hend⟩

/-- From the root of an object it ends at the element, if that is in the tree. -/
theorem Reaches.descend_eq (h : Reaches heap bst.mRoot placed) (elem : α) :
    ∃ context tree, placed = fill context tree ∧ Leads Prod.snd elem context ∧
      descend heap elem (heap.bound + 1) bst.mRoot bst.mRoot =
        some (holeParent context bst.mRoot, root tree) ∧
      (elem ∉ keys placed ∧ tree = .nil ∨
        elem ∈ keys placed ∧ ∃ address left right, tree = .node (address, elem) left right) := by
  obtain ⟨context, tree, hfill, hleads, hdescend, hend⟩ := @descend_spec α _ heap elem
    (heap.bound + 1) bst.mRoot [] placed h.holds nofun (Nat.lt_succ_of_le (h.holds.numNodes_le h.nodup))
  obtain rfl : placed = fill context tree := hfill
  rw [holeParent, h.root_eq] at hdescend
  refine ⟨context, tree, rfl, hleads, hdescend, ?_⟩
  rw [keys, hleads.mem_iff h.ascending]
  rcases hend with rfl | ⟨address, left, right, rfl⟩
  · exact Or.inl ⟨List.not_mem_nil, rfl⟩
  · exact Or.inr ⟨by simp, address, left, right, rfl⟩

theorem Reaches.find_eq (h : Reaches heap bst.mRoot placed) (elem : α) :
    find elem heap bst = some (decide (elem ∈ keys placed)) := by
  obtain ⟨context, tree, -, -, hdescend, ⟨hnot, rfl⟩ | ⟨hmem, address, left, right, rfl⟩⟩ :=
    h.descend_eq elem
  · rw [find, hdescend, decide_eq_false hnot]
    rfl
  · rw [find, hdescend, decide_eq_true hmem]
    rfl

/-- What is in the tree is not inserted again. -/
theorem Reaches.insert_of_mem (h : Reaches heap bst.mRoot placed) (hmem : elem ∈ keys placed) :
    insert alloc elem heap bst = some (false, bst, heap) := by
  obtain ⟨context, tree, -, -, hdescend, ⟨hnot, -⟩ | ⟨-, address, left, right, rfl⟩⟩ :=
    h.descend_eq elem
  · exact absurd hmem hnot
  · rw [insert, hdescend]
    rfl

/-- The pointer that is written is the one on the side of the element. -/
theorem link_nodeOver {step : Step (ℕ × α)} (hstep : Toward Prod.snd elem step) (below ptr : Ptr) :
    (if (nodeOver step below).val < elem then { nodeOver step below with right := ptr }
      else { nodeOver step below with left := ptr }) = nodeOver step ptr := by
  cases step with
  | goLeft label right => exact if_neg (LT.lt.not_gt hstep)
  | goRight label left => exact if_pos hstep

/-- What is not in the tree gets a new node. -/
theorem Reaches.insert_of_notMem (h : Reaches heap bst.mRoot placed) (hnot : elem ∉ keys placed) :
    ∃ placed' address bst' heap', insert alloc elem heap bst = some (true, bst', heap') ∧
      Reaches heap' bst'.mRoot placed' ∧ bst'.mSize = bst.mSize + 1 ∧ heap.node address = none ∧
      (inorder placed').Perm ((address, elem) :: inorder placed) ∧
      SameOff {other | other = address ∨ other ∈ addresses placed} heap heap' := by
  obtain ⟨context, tree, rfl, hleads, hdescend, ⟨-, rfl⟩ | ⟨hmem, -⟩⟩ := h.descend_eq elem
  rotate_left
  · exact absurd hmem hnot
  obtain ⟨address, haddress, hfree⟩ := alloc.exists_address heap
  have hnew := h.holds.notMem hfree
  have hnodup := h.nodup
  rw [(perm_addresses_fill context .nil).nodup_iff, addresses_nil, List.nil_append] at hnodup
  rw [(perm_addresses_fill context .nil).mem_iff, addresses_nil, List.nil_append] at hnew
  have hperm : (inorder (fill context (.node (address, elem) .nil .nil))).Perm
      ((address, elem) :: inorder (fill context .nil)) := by
    rw [inorder_fill, inorder_fill]
    exact List.perm_middle
  have hascending : Ascending Prod.snd (fill context (.node (address, elem) .nil .nil)) := by
    refine h.ascending.replace hleads (List.pairwise_singleton _ _) fun other hother ↦ Or.inr ?_
    rw [List.mem_singleton.mp hother]
  have hnodup' : (addresses (fill context (.node (address, elem) .nil .nil))).Nodup := by
    rw [(perm_addresses_fill context _).nodup_iff]
    exact List.nodup_cons.mpr ⟨hnew, hnodup⟩
  have hleaf : Holds (heap.set address ⟨elem, none, none⟩) (.node (address, elem) .nil .nil) :=
    ⟨Heap.set_node_self, trivial, trivial⟩
  have hkept : Holds (heap.set address ⟨elem, none, none⟩) (fill context .nil) :=
    h.holds.set (h.holds.notMem hfree)
  have hcontext := (holds_fill.mp hkept).2
  cases context with
  | nil =>
    refine ⟨_, address, ⟨some address, bst.mSize + 1⟩, _, ?_, ⟨rfl, hleaf, hnodup', hascending⟩, rfl,
      hfree, hperm, ?_⟩
    · have hroot : bst.mRoot = none := h.root_eq.symm
      rw [insert, hdescend]
      simp only [Option.bind_eq_bind, Option.bind_some, root_nil, holeParent, hroot, Allocator.new,
        haddress, ne_eq, not_true_eq_false, if_false, if_true]
    · exact (sameOff_set heap address _).mono fun other hother ↦ Or.inl hother
  | cons step context =>
    have hnode : (heap.set address ⟨elem, none, none⟩).node step.val.1 = some (nodeOver step none) :=
      hcontext.1
    refine ⟨_, address, ⟨bst.mRoot, bst.mSize + 1⟩, _, ?_,
      ⟨?_, hcontext.replace hnodup hleaf (List.singleton_disjoint.mpr hnew), hnodup', hascending⟩, rfl,
      hfree, hperm, ?_⟩
    · rw [insert, hdescend]
      simp only [Option.bind_eq_bind, Option.bind_some, root_nil, holeParent, Allocator.new, haddress,
        ne_eq, not_true_eq_false, if_false, reduceCtorEq, Heap.modify_some hnode]
      rw [link_nodeOver (hleads step List.mem_cons_self)]
      rfl
    · rw [← h.root_eq, root_fill, root_fill, contextRoot, contextRoot]
    · refine ((sameOff_set heap address _).mono ?_).trans ((sameOff_set _ step.val.1 _).mono ?_)
      · exact fun other hother ↦ Or.inl hother
      · rintro other rfl
        refine Or.inr ((perm_addresses_fill (step :: context) .nil).mem_iff.mpr ?_)
        exact List.mem_append_right _ (address_mem_contextAddresses step context)

/-- `insert` keeps the tree a search tree that is counted, as long as its nodes can be counted. -/
theorem Represents.insert_represents (h : Represents heap bst placed)
    (hroom : placed.numNodes + 1 < 2 ^ 32) (alloc : Allocator (TreeNode α)) (elem : α) :
    ∃ inserted bst' heap' placed', insert alloc elem heap bst = some (inserted, bst', heap') ∧
      Represents heap' bst' placed' ∧ placed'.numNodes ≤ placed.numNodes + 1 := by
  by_cases hmem : elem ∈ keys placed
  · exact ⟨false, bst, heap, placed, h.insert_of_mem hmem, h, Nat.le_succ _⟩
  · obtain ⟨placed', address, bst', heap', hinsert, hreaches, hsize, -, hperm, -⟩ :=
      @Reaches.insert_of_notMem _ _ alloc _ _ _ _ h.toReaches hmem
    have hcount := hperm.length_eq
    rw [List.length_cons, length_inorder, length_inorder] at hcount
    refine ⟨true, bst', heap', placed', hinsert, ⟨hreaches, ?_⟩, hcount.le⟩
    have hold := h.size_eq
    rw [hsize]
    bv_omega

/-- One `insert` after another. -/
def inserts (alloc : Allocator (TreeNode α)) :
    List α → Heap (TreeNode α) → BST → Option (BST × Heap (TreeNode α))
  | [], heap, bst => some (bst, heap)
  | elem :: elems, heap, bst => do
    let (_, bst, heap) ← insert alloc elem heap bst
    inserts alloc elems heap bst

/-- The trees that `insert` makes are such search trees. -/
theorem Represents.inserts_represents (h : Represents heap bst placed) (alloc : Allocator (TreeNode α))
    {elems : List α} (hroom : placed.numNodes + elems.length < 2 ^ 32) :
    ∃ bst' heap' placed', inserts alloc elems heap bst = some (bst', heap') ∧
      Represents heap' bst' placed' := by
  induction elems generalizing heap bst placed with
  | nil => exact ⟨bst, heap, placed, rfl, h⟩
  | cons elem elems ih =>
    rw [List.length_cons] at hroom
    obtain ⟨inserted, next, nextHeap, nextPlaced, hinsert, hnext, hle⟩ :=
      h.insert_represents (by omega) alloc elem
    obtain ⟨bst', heap', placed', hinserts, hrepresents⟩ := ih hnext (by omega)
    refine ⟨bst', heap', placed', ?_, hrepresents⟩
    rw [inserts, hinsert]
    exact hinserts

end BST

end CppLearn.DataStructure
