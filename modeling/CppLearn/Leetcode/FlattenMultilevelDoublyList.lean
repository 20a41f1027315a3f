import CppLearn.Foundation.HeapList
import CppLearn.Foundation.HeapTree

/-!
# Flattening a multilevel doubly linked list

A node of a multilevel list has the list behind it and one below it, its child. Flattening puts the
list below a node between the node and what is behind it. The first solution asks for the last node
of the flattened child. The concise one walks over the flattened child, and links what it has put
aside when it is at the end.
-/

set_option autoImplicit false
set_option relaxedAutoImplicit false

namespace CppLearn.Leetcode.FlattenMultilevelDoublyList

open Foundation.NodeHeap
open Foundation.HeapList (Cells headOf headOf_append headOf_of_ne_nil addresses addresses_append
  addresses_cons)
open Foundation.HeapTree (PlacedTree root root_node root_nil root_eq_none)

/-! ### The program -/

structure Node where
  val : ℤ
  prev : Ptr
  next : Ptr
  child : Ptr
  deriving DecidableEq

def setPrev (heap : Heap Node) (ptr prev : Ptr) : Option (Heap Node) :=
  heap.modify ptr fun node ↦ { node with prev }

def setNext (heap : Heap Node) (ptr next : Ptr) : Option (Heap Node) :=
  heap.modify ptr fun node ↦ { node with next }

def setChild (heap : Heap Node) (ptr child : Ptr) : Option (Heap Node) :=
  heap.modify ptr fun node ↦ { node with child }

/-- `ptr->prev = prev`, where `ptr` is not null. -/
def linkBack (heap : Heap Node) (ptr prev : Ptr) : Option (Heap Node) :=
  if ptr ≠ none then setPrev heap ptr prev else some heap

/-- What the first solution does with a flattened child. -/
def splice (heap : Heap Node) (cur chead ctail : Ptr) : Option (Heap Node) := do
  let heap ← setChild heap cur none
  let heap ← setPrev heap chead cur
  let node ← heap.load cur
  let heap ← setNext heap ctail node.next
  let node ← heap.load cur
  let heap ← linkBack heap node.next ctail
  setNext heap cur chead

mutual

/-- `flattenImpl`, with a limit on its rounds. The tail is none as long as nothing has been written
to it. -/
def flattenImpl : ℕ → Heap Node → Ptr → Option Ptr → Option (Ptr × Option Ptr × Heap Node)
  | 0, _, _, _ => none
  | fuel + 1, heap, head, tail => do
    let (tail, heap) ← flattenImplLoop fuel heap head tail
    some (head, tail, heap)

/-- The loop of `flattenImpl`. -/
def flattenImplLoop : ℕ → Heap Node → Ptr → Option Ptr → Option (Option Ptr × Heap Node)
  | 0, _, _, _ => none
  | fuel + 1, heap, cur, tail =>
    if cur ≠ none then do
      let node ← heap.load cur
      let (cur, heap) ←
        if node.child ≠ none then do
          let (chead, ctail, heap) ← flattenImpl fuel heap node.child none
          let ctail ← ctail
          let heap ← splice heap cur chead ctail
          some (ctail, heap)
        else some (cur, heap)
      let node ← heap.load cur
      flattenImplLoop fuel heap node.next (some cur)
    else some (tail, heap)

end

/-- `flatten`. -/
def flatten (heap : Heap Node) (head : Ptr) : Option (Ptr × Heap Node) := do
  let (head, _, heap) ← flattenImpl (2 * heap.bound + 2) heap head none
  some (head, heap)

/-- What the concise solution does at the end, where something has been put aside. -/
def relink (heap : Heap Node) (cur store : Ptr) : Option (Ptr × Heap Node) := do
  let node ← heap.load cur
  if node.next = none ∧ store ≠ none then do
    let heap ← setNext heap cur store
    let heap ← setPrev heap store cur
    some (none, heap)
  else some (store, heap)

mutual

/-- The concise `flatten`, with a limit on its rounds. -/
def flattenConcisely : ℕ → Heap Node → Ptr → Option (Ptr × Heap Node)
  | 0, _, _ => none
  | fuel + 1, heap, head => do
    let heap ← conciseLoop fuel heap head none
    some (head, heap)

/-- The loop of the concise `flatten`. -/
def conciseLoop : ℕ → Heap Node → Ptr → Ptr → Option (Heap Node)
  | 0, _, _, _ => none
  | fuel + 1, heap, cur, store =>
    if cur ≠ none then do
      let node ← heap.load cur
      let (store, heap) ←
        if node.child ≠ none then do
          let heap ← setPrev heap node.child cur
          let (chead, heap) ← flattenConcisely fuel heap node.child
          let heap ← setNext heap cur chead
          let heap ← setChild heap cur none
          some (node.next, heap)
        else some (store, heap)
      let (store, heap) ← relink heap cur store
      let node ← heap.load cur
      conciseLoop fuel heap node.next store
    else some heap

end

/-- The concise `flatten`. -/
def conciseFlatten (heap : Heap Node) (head : Ptr) : Option (Ptr × Heap Node) :=
  flattenConcisely (2 * heap.bound + 2) heap head

/-! ### Multilevel lists -/

/-- The list and those below its nodes: a tree, where the left subtree of a node is its child, and
the right one is what is behind it. The first node points back to `before`. -/
def Levels (heap : Heap Node) : Ptr → PlacedTree ℤ → Prop
  | _, .nil => True
  | before, .node (address, val) child next =>
    heap.node address = some ⟨val, before, root next, root child⟩ ∧ Levels heap none child ∧
      Levels heap (some address) next

/-- A pointer to a multilevel list, all of whose nodes are different. -/
structure IsMultilevel (heap : Heap Node) (head : Ptr) (tree : PlacedTree ℤ) : Prop where
  head_eq : root tree = head
  levels : Levels heap none tree
  nodup : (Foundation.HeapTree.addresses tree).Nodup

/-- A node, then the list below it, then what is behind it. -/
def depthFirst : PlacedTree ℤ → Cells ℤ
  | .nil => []
  | .node cell child next => cell :: (depthFirst child ++ depthFirst next)

/-- The heap has the nodes, without children, each of which points to the next one and back to the
one before it. -/
def Chain (heap : Heap Node) : Ptr → Cells ℤ → Ptr → Prop
  | _, [], _ => True
  | before, (address, val) :: cells, stop =>
    heap.node address = some ⟨val, before, headOf cells stop, none⟩ ∧
      Chain heap (some address) cells stop

/-- The pointer to the last of the nodes, or to what is before where there are none. -/
def backOf : Ptr → Cells ℤ → Ptr
  | before, [] => before
  | _, (address, _) :: cells => backOf (some address) cells

variable {heap heap' : Heap Node} {before stop : Ptr} {cells cells' : Cells ℤ}
    {tree child next : PlacedTree ℤ} {address : ℕ} {val : ℤ} {changed : Set ℕ}

theorem headOf_depthFirst : headOf (depthFirst tree) none = root tree := by
  cases tree with
  | nil => rfl
  | node cell child next => rfl

theorem depthFirst_ne_nil (htree : root tree ≠ none) : depthFirst tree ≠ [] := by
  cases tree with
  | nil => exact absurd rfl htree
  | node cell child next => exact List.cons_ne_nil _ _

theorem length_depthFirst : (depthFirst tree).length = tree.numNodes := by
  induction tree with
  | nil => rfl
  | node cell child next ihChild ihNext =>
    rw [depthFirst, List.length_cons, List.length_append, ihChild, ihNext, BinaryTree.numNodes]

theorem mem_depthFirst_node {other : ℕ} :
    other ∈ addresses (depthFirst (.node (address, val) child next)) ↔ other = address ∨
      other ∈ addresses (depthFirst child) ∨ other ∈ addresses (depthFirst next) := by
  rw [depthFirst, addresses_cons, addresses_append, List.mem_cons, List.mem_append]

/-- The nodes are different where the first one is in neither list and these have none in common. -/
theorem nodup_depthFirst_node :
    (addresses (depthFirst (.node (address, val) child next))).Nodup ↔
      (address ∉ addresses (depthFirst child) ∧ address ∉ addresses (depthFirst next)) ∧
        (addresses (depthFirst child)).Nodup ∧ (addresses (depthFirst next)).Nodup ∧
        (addresses (depthFirst child)).Disjoint (addresses (depthFirst next)) := by
  rw [depthFirst, addresses_cons, addresses_append, List.nodup_cons, List.nodup_append',
    List.mem_append, not_or]

/-- The depth-first order has every node once. -/
theorem depthFirst_perm (tree : PlacedTree ℤ) :
    (addresses (depthFirst tree)).Perm (Foundation.HeapTree.addresses tree) := by
  induction tree with
  | nil => exact .refl _
  | node cell child next ihChild ihNext =>
    obtain ⟨address, val⟩ := cell
    rw [depthFirst, addresses_cons, addresses_append, Foundation.HeapTree.addresses_node]
    exact ((ihChild.append ihNext).cons address).trans List.perm_middle.symm

theorem backOf_of_ne_nil (hcells : cells ≠ []) (before before' : Ptr) :
    backOf before cells = backOf before' cells := by
  cases cells with
  | nil => exact absurd rfl hcells
  | cons cell cells => rfl

theorem backOf_append : backOf before (cells ++ cells') = backOf (backOf before cells) cells' := by
  induction cells generalizing before with
  | nil => rfl
  | cons cell cells ih => exact ih

theorem chain_append : Chain heap before (cells ++ cells') stop ↔
      Chain heap before cells (headOf cells' stop) ∧
      Chain heap (backOf before cells) cells' stop := by
  induction cells generalizing before with
  | nil => exact (and_iff_right trivial).symm
  | cons cell cells ih =>
    obtain ⟨address, val⟩ := cell
    rw [List.cons_append, Chain, Chain, ih, headOf_append, backOf, and_assoc]

/-- The last node points to what follows. -/
theorem Chain.load_backOf (h : Chain heap before cells stop) (hcells : cells ≠ []) :
    ∃ node, heap.load (backOf before cells) = some node ∧ node.next = stop := by
  obtain ⟨front, ⟨address, val⟩, rfl⟩ := (List.eq_nil_or_concat cells).resolve_left hcells
  rw [List.concat_eq_append] at h ⊢
  rw [backOf_append]
  exact ⟨_, (chain_append.mp h).2.1, rfl⟩

/-- A chain stays while the heap changes elsewhere. -/
theorem Chain.frame (h : Chain heap before cells stop) (hsame : SameOff changed heap heap')
    (hdisjoint : ∀ address ∈ addresses cells, address ∉ changed) :
    Chain heap' before cells stop := by
  induction cells generalizing before with
  | nil => trivial
  | cons cell cells ih =>
    obtain ⟨address, val⟩ := cell
    obtain ⟨hhead, hrest⟩ := List.forall_mem_cons.mp hdisjoint
    exact ⟨(hsame address hhead).trans h.1, ih h.2 hrest⟩

/-- A multilevel list stays while the heap changes elsewhere. -/
theorem Levels.frame (h : Levels heap before tree) (hsame : SameOff changed heap heap')
    (hdisjoint : ∀ address ∈ addresses (depthFirst tree), address ∉ changed) :
    Levels heap' before tree := by
  induction tree generalizing before with
  | nil => trivial
  | node cell child next ihChild ihNext =>
    obtain ⟨address, val⟩ := cell
    refine ⟨(hsame address (hdisjoint address (mem_depthFirst_node.mpr (.inl rfl)))).trans h.1,
      ihChild h.2.1 fun other hother ↦ ?_, ihNext h.2.2 fun other hother ↦ ?_⟩
    · exact hdisjoint other (mem_depthFirst_node.mpr (.inr (.inl hother)))
    · exact hdisjoint other (mem_depthFirst_node.mpr (.inr (.inr hother)))

/-- A chain stays while a node is written that is not one of its own. -/
theorem Chain.set {node : Node} (h : Chain heap before cells stop)
    (hnot : address ∉ addresses cells) : Chain (heap.set address node) before cells stop :=
  h.frame (sameOff_set heap address node) (forall_notMem_singleton hnot)

theorem Levels.set {node : Node}
    (h : Levels heap before tree) (hnot : address ∉ addresses (depthFirst tree)) :
    Levels (heap.set address node) before tree :=
  h.frame (sameOff_set heap address node) (forall_notMem_singleton hnot)

theorem Levels.node_ne_none (h : Levels heap before tree)
    (hmem : address ∈ addresses (depthFirst tree)) : heap.node address ≠ none := by
  induction tree generalizing before with
  | nil => cases hmem
  | node cell child next ihChild ihNext =>
    obtain ⟨other, val⟩ := cell
    rcases mem_depthFirst_node.mp hmem with rfl | hmem | hmem
    · rw [h.1]
      exact Option.some_ne_none _
    · exact ihChild h.2.1 hmem
    · exact ihNext h.2.2 hmem

/-! ### Writes to the first and the last node -/

/-- The pointer of the first node to what is before it is written. -/
theorem Levels.setPrev (h : Levels heap before tree) (hnodup : (addresses (depthFirst tree)).Nodup)
    (htree : root tree ≠ none) (prev : Ptr) :
    ∃ heap', FlattenMultilevelDoublyList.setPrev heap (root tree) prev = some heap' ∧
      Levels heap' prev tree ∧
      SameOff {address | address ∈ addresses (depthFirst tree)} heap heap' := by
  cases tree with
  | nil => exact absurd rfl htree
  | node cell child next =>
    obtain ⟨address, val⟩ := cell
    obtain ⟨⟨hnotChild, hnotNext⟩, -⟩ := nodup_depthFirst_node.mp hnodup
    exact ⟨_, Heap.modify_some h.1 _,
      ⟨Heap.set_node_self, h.2.1.set hnotChild, h.2.2.set hnotNext⟩,
      sameOff_set_of_mem (mem_depthFirst_node.mpr (.inl rfl)) _ _⟩

theorem Chain.setPrev (h : Chain heap before cells stop)
    (hnodup : (addresses cells).Nodup) (hcells : cells ≠ []) (prev : Ptr) :
    ∃ heap', FlattenMultilevelDoublyList.setPrev heap (headOf cells none) prev = some heap' ∧
      Chain heap' prev cells stop ∧ SameOff {address | address ∈ addresses cells} heap heap' := by
  obtain ⟨⟨address, val⟩, cells, rfl⟩ := List.exists_cons_of_ne_nil hcells
  exact ⟨_, Heap.modify_some h.1 _, ⟨Heap.set_node_self, h.2.set (List.nodup_cons.mp hnodup).1⟩,
    sameOff_set_of_mem List.mem_cons_self _ _⟩

/-- The pointer of the last node to what follows is written. -/
theorem Chain.setNext (h : Chain heap before cells stop)
    (hnodup : (addresses cells).Nodup) (hcells : cells ≠ []) (next : Ptr) :
    ∃ heap', FlattenMultilevelDoublyList.setNext heap (backOf none cells) next = some heap' ∧
      Chain heap' before cells next ∧ SameOff {address | address ∈ addresses cells} heap heap' := by
  obtain ⟨front, ⟨address, val⟩, rfl⟩ := (List.eq_nil_or_concat cells).resolve_left hcells
  rw [List.concat_eq_append] at h hnodup ⊢
  rw [addresses_append] at hnodup ⊢
  have hnot : address ∉ addresses front := fun hmem ↦
    (List.nodup_append'.mp hnodup).2.2 hmem List.mem_cons_self
  obtain ⟨hfront, hnode, -⟩ := chain_append.mp h
  rw [backOf_append]
  exact ⟨_, Heap.modify_some hnode _, chain_append.mpr ⟨hfront.set hnot, Heap.set_node_self,
    trivial⟩, sameOff_set_of_mem (List.mem_append_right _ List.mem_cons_self) _ _⟩

theorem Levels.linkBack (h : Levels heap before tree)
    (hnodup : (addresses (depthFirst tree)).Nodup) (prev : Ptr) :
    ∃ heap', FlattenMultilevelDoublyList.linkBack heap (root tree) prev = some heap' ∧
      Levels heap' prev tree ∧
      SameOff {address | address ∈ addresses (depthFirst tree)} heap heap' := by
  rw [FlattenMultilevelDoublyList.linkBack]
  by_cases htree : root tree = none
  · obtain rfl := root_eq_none.mp htree
    exact ⟨heap, if_neg (not_not.mpr htree), trivial, .refl _ heap⟩
  · rw [if_pos htree]
    exact h.setPrev hnodup htree prev

/-! ### Levels that have become chains -/

/-- What is left of a level has become a chain of its nodes in depth-first order. -/
structure Chained (heap : Heap Node) (before : Ptr) (tree : PlacedTree ℤ) (heap' : Heap Node) :
    Prop where
  chain : Chain heap' before (depthFirst tree) none
  same : SameOff {address | address ∈ addresses (depthFirst tree)} heap heap'

/-- A node and the list below it have become a chain, which leads to what is behind the node. -/
structure FrontChained (heap : Heap Node) (before : Ptr) (cell : ℕ × ℤ) (child next : PlacedTree ℤ)
    (heap' : Heap Node) : Prop where
  front : Chain heap' before (cell :: depthFirst child) (root next)
  rest : Levels heap' (backOf before (cell :: depthFirst child)) next
  same : SameOff {address | address ∈ addresses (depthFirst (.node cell child next))} heap heap'

theorem chained_nil (heap : Heap Node) (before : Ptr) : Chained heap before .nil heap :=
  ⟨trivial, .refl _ heap⟩

/-- A node without a child is a chain of its own. -/
theorem frontChained_nil (h : Levels heap before (.node (address, val) .nil next)) :
    FrontChained heap before (address, val) .nil next heap :=
  ⟨⟨h.1, trivial⟩, h.2.2, .refl _ heap⟩

/-- What is behind the node becomes a chain too. -/
theorem FrontChained.chained {heap1 : Heap Node}
    (h : FrontChained heap before (address, val) child next heap1)
    (hrest : Chained heap1 (backOf before ((address, val) :: depthFirst child)) next heap')
    (hnodup : (addresses (depthFirst (.node (address, val) child next))).Nodup) :
    Chained heap before (.node (address, val) child next) heap' := by
  obtain ⟨⟨-, hnotNext⟩, -, -, hdisjoint⟩ := nodup_depthFirst_node.mp hnodup
  refine ⟨?_, h.same.trans (hrest.same.mono fun other hmem ↦ ?_)⟩
  · rw [depthFirst, ← List.cons_append]
    refine chain_append.mpr ⟨?_, hrest.chain⟩
    rw [headOf_depthFirst]
    refine h.front.frame hrest.same (List.forall_mem_cons.mpr ⟨hnotNext, fun other hother ↦ ?_⟩)
    exact fun hmem ↦ hdisjoint hother hmem
  · exact mem_depthFirst_node.mpr (.inr (.inr hmem))

/-! ### The first solution -/

/-- A flattened child is put between its node and what is behind it. -/
theorem splice_spec {ptr : Ptr} (hnode : heap.node address = some ⟨val, before, root next, ptr⟩)
    (hchain : Chain heap none (depthFirst child) none) (hnext : Levels heap (some address) next)
    (hchild : root child ≠ none)
    (hnodup : (addresses (depthFirst (.node (address, val) child next))).Nodup) :
    ∃ heap', splice heap (some address) (root child) (backOf none (depthFirst child)) =
        some heap' ∧
      FrontChained heap before (address, val) child next heap' := by
  have hne := depthFirst_ne_nil hchild
  obtain ⟨⟨hnotChild, hnotNext⟩, hnodupChild, hnodupNext, hdisjoint⟩ :=
    nodup_depthFirst_node.mp hnodup
  have hsetChild : setChild heap (some address) none =
      some (heap.set address ⟨val, before, root next, none⟩) := Heap.modify_some hnode _
  have hchain1 : Chain (heap.set address ⟨val, before, root next, none⟩) none (depthFirst child)
      none := hchain.set hnotChild
  obtain ⟨heap2, hprev, hchain2, hsame2⟩ := hchain1.setPrev hnodupChild hne (some address)
  have hnode2 := (hsame2 address hnotChild).trans Heap.set_node_self
  obtain ⟨heap3, htail, hchain3, hsame3⟩ := hchain2.setNext hnodupChild hne (root next)
  have hnode3 := (hsame3 address hnotChild).trans hnode2
  have hnext3 : Levels heap3 (some address) next := (hnext.set hnotNext).frame (hsame2.trans hsame3)
    fun other hother hmem ↦ hdisjoint hmem hother
  obtain ⟨heap4, hback, hnext4, hsame4⟩ :=
    hnext3.linkBack hnodupNext (backOf none (depthFirst child))
  have hnode4 := (hsame4 address hnotNext).trans hnode3
  have hchain4 := hchain3.frame hsame4 fun other hother hmem ↦ hdisjoint hother hmem
  have hlink : setNext heap4 (some address) (root child) =
      some (heap4.set address ⟨val, before, root child, none⟩) := Heap.modify_some hnode4 _
  refine ⟨heap4.set address ⟨val, before, root child, none⟩, ?_,
    ⟨⟨?_, hchain4.set hnotChild⟩, ?_, ?_⟩⟩
  · rw [headOf_depthFirst] at hprev
    rw [splice]
    simp only [hsetChild, Option.bind_eq_bind, Option.bind_some, hprev, Heap.load_some, hnode2,
      htail, hnode3, hback, hlink]
  · rw [Heap.set_node_self, headOf_of_ne_nil hne (root next) none, headOf_depthFirst]
  · rw [backOf, backOf_of_ne_nil hne (some address) none]
    exact hnext4.set hnotNext
  · have hfirst (heap : Heap Node) (node : Node) :=
      sameOff_set_of_mem (mem_depthFirst_node.mpr (.inl rfl) :
        address ∈ addresses (depthFirst (.node (address, val) child next))) heap node
    have hmiddle := (hsame2.trans hsame3).mono fun other hmem ↦
      (mem_depthFirst_node.mpr (.inr (.inl hmem)) :
        other ∈ addresses (depthFirst (.node (address, val) child next)))
    have hlast := hsame4.mono fun other hmem ↦
      (mem_depthFirst_node.mpr (.inr (.inr hmem)) :
        other ∈ addresses (depthFirst (.node (address, val) child next)))
    exact (((hfirst heap _).trans hmiddle).trans hlast).trans (hfirst heap4 _)

/-- One round flattens the child of a node and goes on with what is behind it. -/
theorem flattenImplLoop_round {fuel : ℕ} {tail : Option Ptr}
    (h : Levels heap before (.node (address, val) child next))
    (hchild : root child ≠ none → ∃ heap', flattenImpl fuel heap (root child) none =
        some (root child, some (backOf none (depthFirst child)), heap') ∧
      Chained heap none child heap')
    (hnodup : (addresses (depthFirst (.node (address, val) child next))).Nodup) :
    ∃ heap', flattenImplLoop (fuel + 1) heap (some address) tail = flattenImplLoop fuel heap'
        (root next) (some (backOf before ((address, val) :: depthFirst child))) ∧
      FrontChained heap before (address, val) child next heap' := by
  have hnode := h.1
  rw [flattenImplLoop, if_pos (Option.some_ne_none address), backOf]
  by_cases hnone : root child = none
  · obtain rfl := root_eq_none.mp hnone
    refine ⟨heap, ?_, frontChained_nil h⟩
    simp only [Heap.load_some, hnode, Option.bind_eq_bind, Option.bind_some, root_nil, ne_eq,
      not_true, if_false]
    rfl
  · obtain ⟨⟨hnotChild, hnotNext⟩, -, -, hdisjoint⟩ := nodup_depthFirst_node.mp hnodup
    obtain ⟨heap1, himpl, hchain, hsame⟩ := hchild hnone
    have hnode1 := (hsame address hnotChild).trans hnode
    have hnext1 := h.2.2.frame hsame fun other hother hmem ↦ hdisjoint hmem hother
    obtain ⟨heap2, hsplice, hfront⟩ := splice_spec hnode1 hchain hnext1 hnone hnodup
    obtain ⟨last, hlast, hlastNext⟩ := hfront.front.load_backOf (List.cons_ne_nil _ _)
    have hback := backOf_of_ne_nil (depthFirst_ne_nil hnone) none (some address)
    rw [backOf, ← hback] at hlast
    refine ⟨heap2, ?_, hfront.front, hfront.rest, ?_⟩
    · rw [← hback]
      simp only [Heap.load_some, hnode, Option.bind_eq_bind, Option.bind_some, hnone, ne_eq,
        not_false_eq_true, if_true, himpl, hsplice, hlast, hlastNext]
    · exact (hsame.mono fun other hmem ↦ mem_depthFirst_node.mpr (.inr (.inl hmem))).trans
        hfront.same

/-- The loop flattens what is left of a level, and its tail ends up at the last node. -/
theorem flattenImplLoop_spec {fuel : ℕ} {tail : Option Ptr} (h : Levels heap before tree)
    (hnodup : (addresses (depthFirst tree)).Nodup) (htail : tree = .nil → tail = some before)
    (hfuel : 2 * tree.numNodes < fuel) :
    ∃ heap', flattenImplLoop fuel heap (root tree) tail =
        some (some (backOf before (depthFirst tree)), heap') ∧
      Chained heap before tree heap' := by
  induction tree generalizing heap before fuel tail with
  | nil =>
    obtain ⟨fuel, rfl⟩ := Nat.exists_eq_succ_of_ne_zero (Nat.ne_of_gt hfuel)
    refine ⟨heap, ?_, chained_nil heap before⟩
    rw [htail rfl, flattenImplLoop]
    exact if_neg (not_not.mpr rfl)
  | node cell child next ihChild ihNext =>
    obtain ⟨fuel, rfl⟩ := Nat.exists_eq_succ_of_ne_zero (Nat.ne_of_gt (Nat.zero_lt_of_lt hfuel))
    obtain ⟨address, val⟩ := cell
    obtain ⟨-, hnodupChild, hnodupNext, -⟩ := nodup_depthFirst_node.mp hnodup
    rw [BinaryTree.numNodes] at hfuel
    have hchild (hroot : root child ≠ none) : ∃ heap', flattenImpl fuel heap (root child) none =
          some (root child, some (backOf none (depthFirst child)), heap') ∧
        Chained heap none child heap' := by
      obtain ⟨fuel, rfl⟩ : ∃ rest, fuel = rest + 1 := ⟨fuel - 1, by omega⟩
      obtain ⟨heap', hloop, hchained⟩ := @ihChild heap none fuel none h.2.1 hnodupChild
        (fun hnil ↦ absurd (root_eq_none.mpr hnil) hroot) (by omega)
      refine ⟨heap', ?_, hchained⟩
      rw [flattenImpl, hloop]
      rfl
    obtain ⟨heap1, hround, hfront⟩ := @flattenImplLoop_round _ _ _ _ _ _ _ tail h hchild hnodup
    obtain ⟨heap', hloop, hrest⟩ :=
      @ihNext heap1 _ fuel _ hfront.rest hnodupNext (fun _ ↦ rfl) (by omega)
    refine ⟨heap', ?_, hfront.chained hrest hnodup⟩
    rw [root_node, hround, hloop, depthFirst, ← List.cons_append, backOf_append]

/-! ### The concise solution -/

/-- At the end of a chain, what has been put aside is linked to it. -/
theorem relink_spec (hnode : heap.node address = some ⟨val, before, none, none⟩)
    (hnext : Levels heap stop next) (hnot : address ∉ addresses (depthFirst next))
    (hnodup : (addresses (depthFirst next)).Nodup) :
    ∃ heap', relink heap (some address) (root next) = some (none, heap') ∧
      heap'.node address = some ⟨val, before, root next, none⟩ ∧ Levels heap' (some address) next ∧
      SameOff {other | other ∈ address :: addresses (depthFirst next)} heap heap' := by
  by_cases hroot : root next = none
  · obtain rfl := root_eq_none.mp hroot
    refine ⟨heap, ?_, hnode, trivial, .refl _ heap⟩
    rw [relink, Heap.load_some, hnode]
    rfl
  · have hlink : setNext heap (some address) (root next) =
        some (heap.set address ⟨val, before, root next, none⟩) := Heap.modify_some hnode _
    have hnext1 : Levels (heap.set address ⟨val, before, root next, none⟩) stop next :=
      hnext.set hnot
    obtain ⟨heap2, hback, hnext2, hsame2⟩ := hnext1.setPrev hnodup hroot (some address)
    refine ⟨heap2, ?_, (hsame2 address hnot).trans Heap.set_node_self, hnext2,
      (sameOff_set_of_mem List.mem_cons_self heap _).trans
      (hsame2.mono fun _ ↦ List.mem_cons_of_mem address)⟩
    rw [relink, Heap.load_some, hnode]
    simp only [Option.bind_eq_bind, Option.bind_some, true_and, ne_eq, hroot, not_false_eq_true,
      if_true, hlink, hback]

/-- Where the list goes on, nothing is linked. -/
theorem relink_of_ne {store : Ptr} {node : Node} (hnode : heap.node address = some node)
    (hstore : node.next = none → store = none) :
    relink heap (some address) store = some (store, heap) := by
  rw [relink, Heap.load_some, hnode]
  refine if_neg ?_
  rintro ⟨hnone, hsome⟩
  exact hsome (hstore hnone)

/-- The loop walks over a chain without changing it, and goes on with what has been put aside. -/
theorem conciseLoop_walk {fuel : ℕ} (h : Chain heap before cells none) (hcells : cells ≠ [])
    (hnext : Levels heap stop next) (hnodup : (addresses (cells ++ depthFirst next)).Nodup) :
    ∃ heap', conciseLoop (cells.length + fuel) heap (headOf cells none) (root next) =
        conciseLoop fuel heap' (root next) none ∧
      Chain heap' before cells (root next) ∧ Levels heap' (backOf before cells) next ∧
      SameOff {address | address ∈ addresses (cells ++ depthFirst next)} heap heap' := by
  induction cells generalizing heap before with
  | nil => exact absurd rfl hcells
  | cons cell cells ih =>
    obtain ⟨address, val⟩ := cell
    obtain ⟨hnode, hrest⟩ := h
    obtain ⟨hnot, hnodupRest⟩ := List.nodup_cons.mp hnodup
    rw [List.length_cons, Nat.succ_add, conciseLoop, Foundation.HeapList.headOf_cons,
      if_pos (Option.some_ne_none address)]
    cases cells with
    | nil =>
      obtain ⟨heap', hrelink, hnode', hnext', hsame⟩ := relink_spec hnode hnext hnot hnodupRest
      refine ⟨heap', ?_, ⟨hnode', trivial⟩, hnext', hsame⟩
      simp only [Heap.load_some, hnode, Option.bind_eq_bind, Option.bind_some, ne_eq, not_true,
        if_false, hrelink, hnode', List.length_nil, Nat.zero_add]
    | cons other cells =>
      obtain ⟨heap', hloop, hchain, hnext', hsame⟩ :=
        ih hrest (List.cons_ne_nil _ _) hnext hnodupRest
      have hnode' := (hsame address hnot).trans hnode
      refine ⟨heap', ?_, ⟨hnode', hchain⟩, hnext', hsame.mono fun _ ↦ List.mem_cons_of_mem address⟩
      have hrelink : relink heap (some address) (root next) = some (root next, heap) :=
        relink_of_ne hnode fun hnone ↦ absurd hnone (Option.some_ne_none other.1)
      rw [← hloop]
      simp only [Heap.load_some, hnode, Option.bind_eq_bind, Option.bind_some, ne_eq,
        not_true, if_false, hrelink]


/-- A node is linked to its flattened child, which is no child any more. -/
theorem adopt_spec {next child : Ptr} (hnode : heap.node address = some ⟨val, before, next, child⟩)
    (chead : Ptr) :
    ∃ heap1 heap2, setNext heap (some address) chead = some heap1 ∧
      setChild heap1 (some address) none = some heap2 ∧
      heap2.node address = some ⟨val, before, chead, none⟩ ∧ SameOff {address} heap heap2 :=
  ⟨_, _, Heap.modify_some hnode _, Heap.modify_some Heap.set_node_self _, Heap.set_node_self,
    (sameOff_set heap address _).trans (sameOff_set _ address _)⟩

/-- What the round does with a child that is there. -/
theorem conciseLoop_child {fuel : ℕ} (h : Levels heap before (.node (address, val) child next))
    (hsome : root child ≠ none)
    (hchild : ∀ {heap : Heap Node}, Levels heap (some address) child →
      ∃ heap', flattenConcisely fuel heap (root child) = some (root child, heap') ∧
        Chained heap (some address) child heap')
    (hnodup : (addresses (depthFirst (.node (address, val) child next))).Nodup) :
    ∃ heap', conciseLoop (fuel + 1) heap (some address) none =
        conciseLoop fuel heap' (root child) (root next) ∧
      heap'.node address = some ⟨val, before, root child, none⟩ ∧
      Chain heap' (some address) (depthFirst child) none ∧ Levels heap' (some address) next ∧
      SameOff {other | other ∈ address :: addresses (depthFirst child)} heap heap' := by
  obtain ⟨hnode, hchildLevels, hnext⟩ := h
  obtain ⟨⟨hnotChild, hnotNext⟩, hnodupChild, -, hdisjoint⟩ := nodup_depthFirst_node.mp hnodup
  obtain ⟨heap1, hprev, hchild1, hsame1⟩ := hchildLevels.setPrev hnodupChild hsome (some address)
  obtain ⟨heap2, hflatten, hchain2, hsame2⟩ := hchild hchild1
  have hsame12 := hsame1.trans hsame2
  have hnode2 := (hsame12 address hnotChild).trans hnode
  obtain ⟨heap3, heap4, hsetNext, hsetChild, hnode4, hsame4⟩ := adopt_spec hnode2 (root child)
  have hnext2 := hnext.frame hsame12 fun other hother hmem ↦ hdisjoint hmem hother
  refine ⟨heap4, ?_, hnode4, hchain2.frame hsame4 (forall_notMem_singleton hnotChild),
    hnext2.frame hsame4 (forall_notMem_singleton hnotNext), ?_⟩
  · rw [conciseLoop, if_pos (Option.some_ne_none address)]
    simp only [Heap.load_some, hnode, Option.bind_eq_bind, Option.bind_some, ne_eq, hsome,
      not_false_eq_true, if_true, hprev, hflatten, hsetNext, hsetChild, hnode4,
      relink_of_ne hnode4 fun h ↦ absurd h hsome]
  · refine SameOff.trans (hsame12.mono fun other ↦ List.mem_cons_of_mem address)
      (hsame4.mono fun other hmem ↦ ?_)
    rw [Set.mem_singleton_iff.mp hmem]
    exact List.mem_cons_self

/-- From a node on, the loop flattens its child and goes on with what is behind it. -/
theorem conciseLoop_round {fuel : ℕ} (h : Levels heap before (.node (address, val) child next))
    (hchild : ∀ {heap : Heap Node}, Levels heap (some address) child →
      ∃ heap', flattenConcisely ((depthFirst child).length + fuel) heap (root child) =
          some (root child, heap') ∧
        Chained heap (some address) child heap')
    (hnodup : (addresses (depthFirst (.node (address, val) child next))).Nodup) :
    ∃ heap', conciseLoop ((depthFirst child).length + fuel + 1) heap (some address) none =
        conciseLoop fuel heap' (root next) none ∧
      FrontChained heap before (address, val) child next heap' := by
  by_cases hnone : root child = none
  · obtain rfl := root_eq_none.mp hnone
    refine ⟨heap, ?_, frontChained_nil h⟩
    rw [conciseLoop, if_pos (Option.some_ne_none address)]
    simp only [Heap.load_some, h.1, Option.bind_eq_bind, Option.bind_some, root_nil, ne_eq,
      not_true, if_false, relink_of_ne h.1 fun _ ↦ rfl, depthFirst, List.length_nil, Nat.zero_add]
  · obtain ⟨heap1, hround, hnode1, hchain1, hnext1, hsame1⟩ :=
      conciseLoop_child h hnone hchild hnodup
    obtain ⟨hnot, hnodupRest⟩ := List.nodup_cons.mp hnodup
    obtain ⟨heap', hwalk, hchain', hnext', hsame'⟩ :=
      conciseLoop_walk hchain1 (depthFirst_ne_nil hnone) hnext1 hnodupRest
    rw [headOf_depthFirst] at hwalk
    refine ⟨heap', hround.trans hwalk, ⟨?_, hchain'⟩, hnext', ?_⟩
    · rw [hsame' address hnot, hnode1, ← headOf_depthFirst,
        headOf_of_ne_nil (depthFirst_ne_nil hnone) none (root next)]
    · refine SameOff.trans (hsame1.mono fun other hmem ↦ ?_)
        (hsame'.mono fun other ↦ List.mem_cons_of_mem address)
      exact mem_depthFirst_node.mpr ((List.mem_cons.mp hmem).imp_right .inl)

/-- The loop flattens what is left of a level. -/
theorem conciseLoop_spec {fuel : ℕ} (h : Levels heap before tree)
    (hnodup : (addresses (depthFirst tree)).Nodup) (hfuel : 2 * tree.numNodes < fuel) :
    ∃ heap', conciseLoop fuel heap (root tree) none = some heap' ∧
      Chained heap before tree heap' := by
  induction tree generalizing heap before fuel with
  | nil =>
    obtain ⟨fuel, rfl⟩ := Nat.exists_eq_succ_of_ne_zero (Nat.ne_of_gt hfuel)
    refine ⟨heap, ?_, chained_nil heap before⟩
    rw [conciseLoop]
    exact if_neg (not_not.mpr rfl)
  | node cell child next ihChild ihNext =>
    obtain ⟨address, val⟩ := cell
    obtain ⟨-, hnodupChild, hnodupNext, -⟩ := nodup_depthFirst_node.mp hnodup
    rw [BinaryTree.numNodes, ← length_depthFirst] at hfuel
    -- The rounds of the walk over the flattened child are set apart.
    obtain ⟨fuel, rfl⟩ : ∃ rest, fuel = (depthFirst child).length + (rest + 1) + 1 :=
      ⟨fuel - ((depthFirst child).length + 2), by omega⟩
    have hchild {heap : Heap Node} (hlevels : Levels heap (some address) child) :
        ∃ heap', flattenConcisely ((depthFirst child).length + (fuel + 1)) heap (root child) =
            some (root child, heap') ∧
          Chained heap (some address) child heap' := by
      obtain ⟨heap', hloop, hchained⟩ := @ihChild heap (some address)
        ((depthFirst child).length + fuel) hlevels hnodupChild
        (by rw [← length_depthFirst]; omega)
      refine ⟨heap', ?_, hchained⟩
      rw [← Nat.add_assoc, flattenConcisely, hloop]
      rfl
    obtain ⟨heap1, hround, hfront⟩ := conciseLoop_round h hchild hnodup
    obtain ⟨heap', hloop, hrest⟩ :=
      @ihNext heap1 _ (fuel + 1) hfront.rest hnodupNext (by omega)
    refine ⟨heap', ?_, hfront.chained hrest hnodup⟩
    rw [root_node, hround, hloop]

/-! ### The flattened list -/

variable {node node' : Node} {first second : ℕ}

/-- Where the nodes of a chain are linked. -/
theorem Chain.next_iff_prev (h : Chain heap none cells none) (hfirst : first ∈ addresses cells)
    (hsecond : second ∈ addresses cells) (hnode : heap.node first = some node)
    (hnode' : heap.node second = some node') : node.next = some second ↔
      node'.prev = some first := by
  constructor
  · intro hnext
    obtain ⟨⟨first, val⟩, hmem, rfl⟩ := List.mem_map.mp hfirst
    obtain ⟨front, rest, rfl⟩ := List.append_of_mem hmem
    obtain ⟨hfirstNode, hrest⟩ := (chain_append.mp h).2
    obtain rfl := Option.some.inj (hnode.symm.trans hfirstNode)
    cases rest with
    | nil => cases hnext
    | cons cell rest =>
      obtain ⟨other, elem⟩ := cell
      obtain rfl : other = second := Option.some.inj hnext
      obtain rfl := Option.some.inj (hnode'.symm.trans hrest.1)
      rfl
  · intro hprev
    obtain ⟨⟨second, val⟩, hmem, rfl⟩ := List.mem_map.mp hsecond
    obtain ⟨front, rest, rfl⟩ := List.append_of_mem hmem
    obtain ⟨hfront, hsecondNode, -⟩ := chain_append.mp h
    obtain rfl := Option.some.inj (hnode'.symm.trans hsecondNode)
    rcases List.eq_nil_or_concat front with rfl | ⟨before, ⟨other, elem⟩, rfl⟩
    · cases hprev
    · rw [List.concat_eq_append] at hfront hprev
      obtain rfl : other = first := by rwa [backOf_append, backOf, backOf, Option.some_inj] at hprev
      obtain rfl := Option.some.inj (hnode.symm.trans (chain_append.mp hfront).2.1)
      rfl

theorem Chain.child_eq_none (h : Chain heap before cells stop) (hmem : address ∈ addresses cells)
    (hnode : heap.node address = some node) : node.child = none := by
  obtain ⟨⟨address, val⟩, hcell, rfl⟩ := List.mem_map.mp hmem
  obtain ⟨front, rest, rfl⟩ := List.append_of_mem hcell
  obtain rfl := Option.some.inj (hnode.symm.trans (chain_append.mp h).2.1)
  rfl

/-- The heap has one node at each address of a chain. -/
theorem Chain.node_eq (h : Chain heap before cells stop) (h' : Chain heap' before cells stop)
    (hmem : address ∈ addresses cells) : heap.node address = heap'.node address := by
  obtain ⟨⟨address, val⟩, hcell, rfl⟩ := List.mem_map.mp hmem
  obtain ⟨front, rest, rfl⟩ := List.append_of_mem hcell
  exact (chain_append.mp h).2.1.trans (chain_append.mp h').2.1.symm

/-- The list leads from the head through all nodes of the multilevel list in depth-first order and
back, the pointers are the inverse of each other, there are no children, and nothing else has
changed. -/
structure Flattened (heap : Heap Node)
    (tree : PlacedTree ℤ) (heap' : Heap Node) (head : Ptr) : Prop where
  head_eq : headOf (depthFirst tree) none = head
  chain : Chain heap' none (depthFirst tree) none
  nodup : (addresses (depthFirst tree)).Nodup
  perm : (addresses (depthFirst tree)).Perm (Foundation.HeapTree.addresses tree)
  inverse : ∀ first ∈ addresses (depthFirst tree), ∀ second ∈ addresses (depthFirst tree),
    ∀ node node',
    heap'.node first = some node → heap'.node second = some node' →
    (node.next = some second ↔ node'.prev = some first)
  childless : ∀ address ∈ addresses (depthFirst tree), ∀ node, heap'.node address = some node →
    node.child = none
  same : SameOff {address | address ∈ addresses (depthFirst tree)} heap heap'

variable {head : Ptr}

theorem IsMultilevel.nodup_depthFirst (h : IsMultilevel heap head tree) :
    (addresses (depthFirst tree)).Nodup :=
  (depthFirst_perm tree).nodup_iff.mpr h.nodup

theorem IsMultilevel.numNodes_le (h : IsMultilevel heap head tree) :
    tree.numNodes ≤ heap.bound := by
  have hle := Heap.length_le_bound h.nodup_depthFirst fun _ ↦ h.levels.node_ne_none
  rwa [addresses, List.length_map, length_depthFirst] at hle

/-- What has become a chain of the nodes in depth-first order has been flattened. -/
theorem IsMultilevel.flattened (h : IsMultilevel heap head tree)
    (hchained : Chained heap none tree heap') : Flattened heap tree heap' head where
  head_eq := headOf_depthFirst.trans h.head_eq
  chain := hchained.chain
  nodup := h.nodup_depthFirst
  perm := depthFirst_perm tree
  inverse _ hfirst _ hsecond _ _ := hchained.chain.next_iff_prev hfirst hsecond
  childless _ hmem _ := hchained.chain.child_eq_none hmem
  same := hchained.same

theorem flatten_spec (h : IsMultilevel heap head tree) :
    ∃ heap', flatten heap head = some (head, heap') ∧ Flattened heap tree heap' head := by
  have hnumNodes := h.numNodes_le
  obtain ⟨tail, heap', hloop, hchained⟩ : ∃ tail heap',
      flattenImplLoop (2 * heap.bound + 1) heap (root tree) none = some (tail, heap') ∧
      Chained heap none tree heap' := by
    cases tree with
    | nil =>
      refine ⟨none, heap, ?_, chained_nil heap none⟩
      rw [flattenImplLoop]
      exact if_neg (not_not.mpr rfl)
    | node cell child next =>
      exact ⟨_, flattenImplLoop_spec h.levels h.nodup_depthFirst nofun (by omega)⟩
  refine ⟨heap', ?_, h.flattened hchained⟩
  rw [h.head_eq] at hloop
  rw [flatten, flattenImpl, hloop]
  rfl

theorem conciseFlatten_spec (h : IsMultilevel heap head tree) :
    ∃ heap', conciseFlatten heap head = some (head, heap') ∧ Flattened heap tree heap' head := by
  have hnumNodes := h.numNodes_le
  obtain ⟨heap', hloop, hchained⟩ :=
    @conciseLoop_spec heap none tree (2 * heap.bound + 1) h.levels h.nodup_depthFirst (by omega)
  refine ⟨heap', ?_, h.flattened hchained⟩
  rw [h.head_eq] at hloop
  rw [conciseFlatten, flattenConcisely, hloop]
  rfl

/-- Both solutions flatten every multilevel list, and to the same one. -/
theorem flatten_flattened (h : IsMultilevel heap head tree) :
    ∃ heap' heap'', flatten heap head = some (head, heap') ∧
      conciseFlatten heap head = some (head, heap'') ∧
      Flattened heap tree heap' head ∧ Flattened heap tree heap'' head ∧
      ∀ address, heap'.node address = heap''.node address := by
  obtain ⟨heap', hflatten, hflattened⟩ := flatten_spec h
  obtain ⟨heap'', hconcise, hflattened'⟩ := conciseFlatten_spec h
  refine ⟨heap', heap'', hflatten, hconcise, hflattened, hflattened', fun address ↦ ?_⟩
  by_cases hmem : address ∈ addresses (depthFirst tree)
  · exact hflattened.chain.node_eq hflattened'.chain hmem
  · rw [hflattened.same address hmem, hflattened'.same address hmem]

/-- Two nodes, the first of which has a child. -/
theorem flatten_flattened_three :
    let heap := ((Heap.empty.set 0 ⟨1, none, some 1, some 2⟩).set 1 ⟨2, some 0, none, none⟩).set 2
      (⟨3, none, none, none⟩ : Node)
    ∃ heap' heap'', flatten heap (some 0) = some (some 0, heap') ∧
      conciseFlatten heap (some 0) = some (some 0, heap'') ∧
      Flattened heap (.node (0, 1) (.node (2, 3) .nil .nil) (.node (1, 2) .nil .nil)) heap'
        (some 0) ∧
      Flattened heap (.node (0, 1) (.node (2, 3) .nil .nil) (.node (1, 2) .nil .nil)) heap''
        (some 0) ∧
      ∀ address, heap'.node address = heap''.node address := by
  intro heap
  have h :
      IsMultilevel heap (some 0) (.node (0, 1) (.node (2, 3) .nil .nil) (.node (1, 2) .nil .nil)) :=
    ⟨rfl, ⟨rfl, ⟨rfl, trivial, trivial⟩, rfl, trivial, trivial⟩, by decide⟩
  exact flatten_flattened h

end CppLearn.Leetcode.FlattenMultilevelDoublyList
