import CppLearn.Foundation.HeapList
import CppLearn.Foundation.HeapTree

/-!
# Flattening a binary tree

`flatten` links the nodes of a tree in preorder by their right pointers, and writes null to the left
ones. The right subtree of a node is flattened before the left one, and the last node of the latter
then points to it.
-/

set_option autoImplicit false
set_option relaxedAutoImplicit false

namespace CppLearn.Leetcode.BinaryTreeToList

open Foundation
open Foundation.NodeHeap
open Foundation.HeapList (Cells headOf headOf_append headOf_eq_none addresses_append addresses_cons)
open Foundation.HeapTree hiding addresses_nil

/-! ### The program -/

def setLeft (heap : Heap (TreeNode ℤ)) (ptr left : Ptr) : Option (Heap (TreeNode ℤ)) :=
  heap.modify ptr fun node ↦ { node with left }

def setRight (heap : Heap (TreeNode ℤ)) (ptr right : Ptr) : Option (Heap (TreeNode ℤ)) :=
  heap.modify ptr fun node ↦ { node with right }

/-- `endpoint.second->right = right`, or another tail where nothing is to the right. -/
def linkSecond (heap : Heap (TreeNode ℤ)) (right tail second : Ptr) :
    Option (Ptr × Heap (TreeNode ℤ)) :=
  if right ≠ none then do
    let heap ← setRight heap second right
    some (tail, heap)
  else some (second, heap)

/-- What `flattenImpl` does with the end points of the flattened left subtree. -/
def splice (heap : Heap (TreeNode ℤ)) (root tail first second : Ptr) :
    Option (Ptr × Heap (TreeNode ℤ)) := do
  let heap ← setLeft heap root none
  let node ← heap.load root
  let (tail, heap) ← linkSecond heap node.right tail second
  let heap ← setRight heap root first
  some (tail, heap)

/-- What it does about the right subtree around its call: the tail is then the last node of the
chain. -/
def flattenRight (call : Heap (TreeNode ℤ) → Ptr → Option (Ptr × Ptr × Heap (TreeNode ℤ)))
    (heap : Heap (TreeNode ℤ)) (root right : Ptr) : Option (Ptr × Heap (TreeNode ℤ)) :=
  if right ≠ none then do
    let (_, second, heap) ← call heap right
    some (second, heap)
  else some (root, heap)

/-- And about the left one. -/
def flattenLeft (call : Heap (TreeNode ℤ) → Ptr → Option (Ptr × Ptr × Heap (TreeNode ℤ)))
    (heap : Heap (TreeNode ℤ)) (root left tail : Ptr) : Option (Ptr × Heap (TreeNode ℤ)) :=
  if left ≠ none then do
    let (first, second, heap) ← call heap left
    splice heap root tail first second
  else some (tail, heap)

/-- `flattenImpl`, with a limit on the depth of its recursion. -/
def flattenImpl : ℕ → Heap (TreeNode ℤ) → Ptr → Option (Ptr × Ptr × Heap (TreeNode ℤ))
  | 0, _, _ => none
  | fuel + 1, heap, root => do
    let node ← heap.load root
    let (tail, heap) ← flattenRight (flattenImpl fuel) heap root node.right
    let node ← heap.load root
    let (tail, heap) ← flattenLeft (flattenImpl fuel) heap root node.left tail
    some (root, tail, heap)

def flatten (fuel : ℕ) (heap : Heap (TreeNode ℤ)) (root : Ptr) : Option (Heap (TreeNode ℤ)) :=
  if root ≠ none then do
    let (_, _, heap) ← flattenImpl fuel heap root
    some heap
  else some heap

/-! ### Chains -/

/-- The nodes of a tree, each before those of its left subtree, and these before those of its right
one. -/
def preorder : PlacedTree ℤ → Cells ℤ
  | .nil => []
  | .node cell left right => cell :: (preorder left ++ preorder right)

/-- The heap has the nodes with null to the left, each with the next one to the right, and the last
one with `stop`. -/
def Chain (heap : Heap (TreeNode ℤ)) : Cells ℤ → Ptr → Prop
  | [], _ => True
  | (address, val) :: cells, stop =>
    heap.node address = some ⟨val, none, headOf cells stop⟩ ∧ Chain heap cells stop

/-- The pointer to the last of the nodes. -/
def lastOf (cells : Cells ℤ) : Ptr := cells.getLast?.map Prod.fst

variable {heap heap' : Heap (TreeNode ℤ)} {tree left right : PlacedTree ℤ}
    {cells cells' : Cells ℤ} {stop stop' : Ptr} {address : ℕ} {val : ℤ}

theorem perm_preorder (tree : PlacedTree ℤ) : (preorder tree).Perm (inorder tree) := by
  induction tree with
  | nil => exact .refl _
  | node cell left right ihLeft ihRight =>
    exact ((ihLeft.append ihRight).cons cell).trans List.perm_middle.symm

theorem mem_preorder : address ∈ HeapList.addresses (preorder tree) ↔ address ∈ addresses tree :=
  ((perm_preorder tree).map Prod.fst).mem_iff

theorem preorder_ne_nil (hne : tree ≠ .nil) : preorder tree ≠ [] := by
  cases tree with
  | nil => exact absurd rfl hne
  | node cell left right => exact List.cons_ne_nil cell _

theorem headOf_preorder (tree : PlacedTree ℤ) : headOf (preorder tree) none = root tree := by
  cases tree with
  | nil => rfl
  | node cell left right => rfl

theorem chain_append : Chain heap (cells ++ cells') stop ↔
    Chain heap cells (headOf cells' stop) ∧ Chain heap cells' stop := by
  induction cells with
  | nil => exact (and_iff_right trivial).symm
  | cons cell cells ih =>
    obtain ⟨address, val⟩ := cell
    rw [List.cons_append, Chain, Chain, ih, headOf_append, and_assoc]

/-- A chain stays while the heap changes elsewhere. -/
theorem Chain.frame {changed : Set ℕ} (h : Chain heap cells stop)
    (hsame : SameOff changed heap heap')
    (hdisjoint : ∀ address ∈ HeapList.addresses cells, address ∉ changed) :
    Chain heap' cells stop := by
  induction cells with
  | nil => trivial
  | cons cell cells ih =>
    obtain ⟨hhead, hrest⟩ := List.forall_mem_cons.mp hdisjoint
    exact ⟨(hsame cell.1 hhead).trans h.1, ih h.2 hrest⟩

theorem Chain.set {node : TreeNode ℤ} (h : Chain heap cells stop)
    (hnot : address ∉ HeapList.addresses cells) : Chain (heap.set address node) cells stop :=
  h.frame (sameOff_set heap address node) (forall_notMem_singleton hnot)

/-- The right pointer of the last node is written. -/
theorem Chain.redirect (h : Chain heap (cells ++ [(address, val)]) stop)
    (hnot : address ∉ HeapList.addresses cells) (stop' : Ptr) :
    Chain (heap.set address ⟨val, none, stop'⟩) (cells ++ [(address, val)]) stop' :=
  chain_append.mpr ⟨(chain_append.mp h).1.set hnot, Heap.set_node_self, trivial⟩

theorem lastOf_cons {cell : ℕ × ℤ} (hcells : cells ≠ []) :
    lastOf (cell :: cells) = lastOf cells := by
  rw [lastOf, List.getLast?_cons_of_ne_nil hcells, lastOf]

theorem lastOf_append (hcells : cells' ≠ []) : lastOf (cells ++ cells') = lastOf cells' := by
  rw [lastOf, List.getLast?_append_of_ne_nil cells hcells, lastOf]

/-! ### Flattening -/

/-- The last node of one chain is linked to the first of another one. -/
theorem linkSecond_spec {front rights : Cells ℤ} {cell : ℕ × ℤ}
    (hlefts : Chain heap (front ++ [(address, val)]) none) (hrights : Chain heap rights none)
    (hnotFront : address ∉ HeapList.addresses front)
    (hnotRights : address ∉ HeapList.addresses rights) :
    ∃ heap', linkSecond heap (headOf rights none) (lastOf (cell :: rights)) (some address) =
        some (lastOf (front ++ (address, val) :: rights), heap') ∧
      Chain heap' (front ++ (address, val) :: rights) none ∧ SameOff {address} heap heap' := by
  have hlast : lastOf (front ++ (address, val) :: rights) = lastOf ((address, val) :: rights) :=
    lastOf_append (List.cons_ne_nil (address, val) rights)
  have hsplit : front ++ (address, val) :: rights = (front ++ [(address, val)]) ++ rights := by
    rw [List.append_assoc, List.singleton_append]
  by_cases hnil : rights = []
  · subst hnil
    exact ⟨heap, by rw [hlast]; rfl, hlefts, .refl _ heap⟩
  · have hnode : heap.node address = some ⟨val, none, none⟩ := (chain_append.mp hlefts).2.1
    refine ⟨heap.set address ⟨val, none, headOf rights none⟩, ?_, ?_, sameOff_set heap address _⟩
    · rw [linkSecond, if_pos (mt headOf_eq_none.mp hnil), setRight, Heap.modify_some hnode, hlast,
        lastOf_cons hnil, lastOf_cons hnil]
      rfl
    · rw [hsplit]
      exact chain_append.mpr ⟨hlefts.redirect hnotFront _, hrights.set hnotRights⟩

/-- The chain of the left subtree is put between the root and that of the right one. -/
theorem splice_spec {lefts rights : Cells ℤ} {leftPtr : Ptr}
    (hnode : heap.node address = some ⟨val, leftPtr, headOf rights none⟩)
    (hlefts : Chain heap lefts none) (hrights : Chain heap rights none) (hne : lefts ≠ [])
    (hnodup : (HeapList.addresses ((address, val) :: (lefts ++ rights))).Nodup) :
    ∃ heap', splice heap (some address) (lastOf ((address, val) :: rights)) (headOf lefts none)
        (lastOf lefts) = some (lastOf ((address, val) :: (lefts ++ rights)), heap') ∧
      Chain heap' ((address, val) :: (lefts ++ rights)) none ∧
      SameOff {other | other ∈ HeapList.addresses ((address, val) :: lefts)} heap heap' := by
  obtain ⟨front, ⟨last, lastVal⟩, rfl⟩ := (List.eq_nil_or_concat' lefts).resolve_left hne
  rw [List.append_assoc, List.singleton_append] at hnodup ⊢
  rw [addresses_cons, List.nodup_cons, addresses_append, addresses_cons, List.nodup_middle,
    List.nodup_cons, List.mem_append, List.mem_cons, List.mem_append, not_or, not_or, not_or]
    at hnodup
  obtain ⟨⟨hnotFront, hneLast, hnotRights⟩, ⟨hlastFront, hlastRights⟩, -⟩ := hnodup
  have hnotLefts : address ∉ HeapList.addresses (front ++ [(last, lastVal)]) := by
    rw [addresses_append, addresses_cons, List.mem_append, List.mem_cons]
    tauto
  obtain ⟨heap', hlink, hchain, hsame⟩ := @linkSecond_spec
    (heap.set address ⟨val, none, headOf rights none⟩) last lastVal front rights (address, val)
    (hlefts.set hnotLefts) (hrights.set hnotRights) hlastFront hlastRights
  have hnode' : heap'.node address = some ⟨val, none, headOf rights none⟩ :=
    (hsame address hneLast).trans Heap.set_node_self
  have hnot : address ∉ HeapList.addresses (front ++ (last, lastVal) :: rights) := by
    rw [addresses_append, addresses_cons, List.mem_append, List.mem_cons]
    tauto
  have hfirst : headOf (front ++ [(last, lastVal)]) none =
      headOf (front ++ (last, lastVal) :: rights) none := by
    rw [headOf_append, headOf_append]
    rfl
  have hlastOf : lastOf (front ++ [(last, lastVal)]) = some last :=
    lastOf_append (List.cons_ne_nil (last, lastVal) [])
  refine ⟨heap'.set address ⟨val, none, headOf (front ++ (last, lastVal) :: rights) none⟩, ?_,
    ⟨Heap.set_node_self, hchain.set hnot⟩, ?_⟩
  · rw [lastOf_cons (List.append_ne_nil_of_right_ne_nil front (List.cons_ne_nil _ rights)), hlastOf,
      hfirst]
    simp only [splice, setLeft, setRight, Heap.modify_some hnode, Heap.load_some,
      Heap.set_node_self, Option.bind_eq_bind, Option.bind_some, hlink, Heap.modify_some hnode']
  · have hmem : last ∈ HeapList.addresses ((address, val) :: (front ++ [(last, lastVal)])) := by
      simp
    exact ((sameOff_set_of_mem List.mem_cons_self heap _).trans
      (hsame.mono (Set.singleton_subset_iff.mpr hmem))).trans
        (sameOff_set_of_mem List.mem_cons_self heap' _)

/-- A call links the nodes of a tree in preorder, and returns the first and the last one. -/
def Flattens (call : Heap (TreeNode ℤ) → Ptr → Option (Ptr × Ptr × Heap (TreeNode ℤ)))
    (tree : PlacedTree ℤ) : Prop :=
  ∀ heap : Heap (TreeNode ℤ), Holds heap tree → ∃ heap',
    call heap (root tree) = some (root tree, lastOf (preorder tree), heap') ∧
      Chain heap' (preorder tree) none ∧ SameOff {address | address ∈ addresses tree} heap heap'

variable {call : Heap (TreeNode ℤ) → Ptr → Option (Ptr × Ptr × Heap (TreeNode ℤ))}

theorem flattenRight_spec (hcall : right ≠ .nil → Flattens call right) (hholds : Holds heap right) :
    ∃ heap', flattenRight call heap (some address) (root right) =
        some (lastOf ((address, val) :: preorder right), heap') ∧
      Chain heap' (preorder right) none ∧
      SameOff {other | other ∈ addresses right} heap heap' := by
  by_cases hnil : right = .nil
  · subst hnil
    exact ⟨heap, rfl, trivial, .refl _ heap⟩
  · obtain ⟨heap', hrun, hchain, hsame⟩ := hcall hnil heap hholds
    refine ⟨heap', ?_, hchain, hsame⟩
    rw [flattenRight, if_pos (mt root_eq_none.mp hnil), hrun, lastOf_cons (preorder_ne_nil hnil)]
    rfl

theorem flattenLeft_spec (hcall : left ≠ .nil → Flattens call left) (hholds : Holds heap left)
    (hnode : heap.node address = some ⟨val, root left, root right⟩)
    (hrights : Chain heap (preorder right) none)
    (hnodup : (addresses (.node (address, val) left right)).Nodup) :
    ∃ heap', flattenLeft call heap (some address) (root left)
        (lastOf ((address, val) :: preorder right)) =
          some (lastOf (preorder (.node (address, val) left right)), heap') ∧
      Chain heap' (preorder (.node (address, val) left right)) none ∧
      SameOff {other | other ∈ addresses (.node (address, val) left right)} heap heap' := by
  by_cases hnil : left = .nil
  · subst hnil
    refine ⟨heap, rfl, ⟨?_, hrights⟩, .refl _ heap⟩
    rw [hnode, preorder, List.nil_append, headOf_preorder]
    rfl
  · obtain ⟨-, -, hnotLeft, -, hdisjoint⟩ := nodup_addresses_node.mp hnodup
    obtain ⟨leftHeap, hrun, hlefts, hsameLeft⟩ := hcall hnil heap hholds
    have hnode' : leftHeap.node address =
        some ⟨val, root left, headOf (preorder right) none⟩ := by
      rw [hsameLeft address hnotLeft, hnode, headOf_preorder]
    have hrights' : Chain leftHeap (preorder right) none :=
      hrights.frame hsameLeft fun other hother hmem ↦ hdisjoint hmem (mem_preorder.mp hother)
    have hperm := (perm_preorder (.node (address, val) left right)).map Prod.fst
    obtain ⟨heap', hsplice, hchain, hsame⟩ := splice_spec hnode' hlefts hrights'
      (preorder_ne_nil hnil) (hperm.nodup_iff.mpr hnodup)
    rw [headOf_preorder] at hsplice
    refine ⟨heap', ?_, hchain, ?_⟩
    · rw [flattenLeft, if_pos (mt root_eq_none.mp hnil), hrun]
      exact hsplice
    · refine (hsameLeft.mono fun other hother ↦ ?_).trans (hsame.mono fun other hother ↦ ?_)
      · exact mem_addresses_node.mpr (Or.inr (Or.inl hother))
      · rcases List.mem_cons.mp hother with rfl | hother
        · exact mem_addresses_node.mpr (Or.inl rfl)
        · exact mem_addresses_node.mpr (Or.inr (Or.inl (mem_preorder.mp hother)))

theorem flattenImpl_flattens {fuel : ℕ} (hnodup : (addresses tree).Nodup) (hne : tree ≠ .nil)
    (hfuel : tree.numNodes < fuel) : Flattens (flattenImpl fuel) tree := by
  induction tree generalizing fuel with
  | nil => exact absurd rfl hne
  | node cell left right ihLeft ihRight =>
    intro heap hholds
    obtain ⟨address, val⟩ := cell
    obtain ⟨fuel, rfl⟩ := Nat.exists_eq_succ_of_ne_zero (Nat.ne_zero_of_lt hfuel)
    rw [BinaryTree.numNodes] at hfuel
    obtain ⟨hnodupLeft, hnodupRight, hnotLeft, hnotRight, hdisjoint⟩ :=
      nodup_addresses_node.mp hnodup
    obtain ⟨rightHeap, hright, hrights, hsameRight⟩ := @flattenRight_spec heap right address val _
      (fun hnil ↦ ihRight hnodupRight hnil (by omega : right.numNodes < fuel)) hholds.rightTree
    have hleft : Holds rightHeap left :=
      hholds.leftTree.frame hsameRight fun other hother hmem ↦ hdisjoint hother hmem
    have hnode : rightHeap.node address = some ⟨val, root left, root right⟩ :=
      (hsameRight address hnotRight).trans hholds.node_eq
    obtain ⟨heap', hrun, hchain, hsame⟩ := flattenLeft_spec
      (fun hnil ↦ ihLeft hnodupLeft hnil (by omega : left.numNodes < fuel)) hleft hnode hrights
      hnodup
    refine ⟨heap', ?_, hchain, (hsameRight.mono fun other hother ↦ ?_).trans hsame⟩
    · rw [flattenImpl, root_node, Heap.load_some, hholds.node_eq]
      simp only [Option.bind_eq_bind, Option.bind_some, hright, Heap.load_some, hnode, hrun]
    · exact mem_addresses_node.mpr (Or.inr (Or.inr hother))

/-- The nodes of a tree become a chain in preorder, whose end points are returned, and all other
nodes stay as they are. -/
theorem flatten_chain {fuel : ℕ} (hholds : Holds heap tree) (hnodup : (addresses tree).Nodup)
    (hne : tree ≠ .nil) (hfuel : tree.numNodes < fuel) :
    ∃ heap', flattenImpl fuel heap (root tree) =
        some (headOf (preorder tree) none, lastOf (preorder tree), heap') ∧
      flatten fuel heap (root tree) = some heap' ∧ Chain heap' (preorder tree) none ∧
      SameOff {address | address ∈ addresses tree} heap heap' := by
  obtain ⟨heap', hrun, hchain, hsame⟩ := flattenImpl_flattens hnodup hne hfuel heap hholds
  refine ⟨heap', by rw [headOf_preorder, hrun], ?_, hchain, hsame⟩
  rw [flatten, if_pos (mt root_eq_none.mp hne), hrun]
  rfl

/-- A root with both children. -/
def threeNodes : Heap (TreeNode ℤ) :=
  ((Heap.empty.set 0 ⟨1, some 1, some 2⟩).set 1 ⟨2, none, none⟩).set 2 ⟨3, none, none⟩

theorem flatten_chain_three : ∃ heap', flattenImpl 4 threeNodes (some 0) =
      some (headOf [(0, 1), (1, 2), (2, 3)] none, lastOf [(0, 1), (1, 2), (2, 3)], heap') ∧
    flatten 4 threeNodes (some 0) = some heap' ∧ Chain heap' [(0, 1), (1, 2), (2, 3)] none ∧
    SameOff {address | address ∈ [1, 0, 2]} threeNodes heap' := by
  have hholds : Holds threeNodes
      (.node (0, 1) (.node (1, 2) .nil .nil) (.node (2, 3) .nil .nil)) :=
    ⟨rfl, ⟨rfl, trivial, trivial⟩, rfl, trivial, trivial⟩
  exact flatten_chain hholds (by decide) nofun (by decide)

end CppLearn.Leetcode.BinaryTreeToList
