import Mathlib.Data.List.Nodup
import Mathlib.Data.List.Perm.Subperm
import Mathlib.Data.Set.Insert
import Mathlib.Logic.Function.Basic
import Mathlib.Order.Basic
import Mathlib.Tactic.Common

/-!
# Heaps of nodes

Linked structures are made of nodes at addresses, which point to each other. A pointer is null or an
address. A heap has a node at finitely many addresses; reading or writing through a pointer is
undefined unless there is one. An allocator places a new node at an address that is free, any one of
them.

`SameOff` says that two heaps differ at some addresses at most: what an operation does not own it
leaves as it was.
-/

set_option autoImplicit false
set_option relaxedAutoImplicit false

namespace CppLearn.Foundation.NodeHeap

variable {Node : Type*}

/-- A pointer, null or an address. -/
abbrev Ptr := Option ℕ

/-- The nodes by their addresses, all of which lie below a bound. -/
structure Heap (Node : Type*) where
  node : ℕ → Option Node
  bound : ℕ
  node_eq_none : ∀ address, bound ≤ address → node address = none

namespace Heap

/-- No nodes. -/
def empty : Heap Node := ⟨fun _ ↦ none, 0, fun _ _ ↦ rfl⟩

/-- The node that a pointer points to. -/
def load (heap : Heap Node) (ptr : Ptr) : Option Node := ptr.bind heap.node

/-- A node placed at an address. -/
def set (heap : Heap Node) (address : ℕ) (node : Node) : Heap Node where
  node := Function.update heap.node address (some node)
  bound := max heap.bound (address + 1)
  node_eq_none other hother := by
    have hlt : address < other := (le_max_right ..).trans hother
    rw [Function.update_of_ne hlt.ne']
    exact heap.node_eq_none other ((le_max_left ..).trans hother)

/-- The node that a pointer points to, changed. -/
def modify (heap : Heap Node) (ptr : Ptr) (change : Node → Node) : Option (Heap Node) :=
  ptr.bind fun address ↦ (heap.node address).map fun node ↦ heap.set address (change node)

/-- `delete` of a node. -/
def delete (heap : Heap Node) (ptr : Ptr) : Option (Heap Node) :=
  ptr.bind fun address ↦ (heap.node address).map fun _ ↦
    { heap with
      node := Function.update heap.node address none
      node_eq_none := fun other hother ↦ by
        by_cases heq : other = address
        · rw [heq, Function.update_self]
        · rw [Function.update_of_ne heq]
          exact heap.node_eq_none other hother }

variable {heap : Heap Node} {address other : ℕ} {node : Node}

@[simp] theorem load_some : heap.load (some address) = heap.node address := rfl

@[simp] theorem load_none : heap.load none = none := rfl

@[simp] theorem set_node_self : (heap.set address node).node address = some node :=
  Function.update_self ..

theorem set_node_of_ne (hne : other ≠ address) :
    (heap.set address node).node other = heap.node other := Function.update_of_ne hne ..

/-- Of two nodes at one address the last one counts. -/
theorem set_set (heap : Heap Node) (address : ℕ) (node node' : Node) :
    (heap.set address node).set address node' = heap.set address node' := by
  simp only [set, Function.update_idem, max_assoc, max_self]

theorem lt_bound (hnode : heap.node address ≠ none) : address < heap.bound :=
  lt_of_not_ge fun hle ↦ hnode (heap.node_eq_none address hle)

/-- Different nodes are no more than there are addresses. -/
theorem length_le_bound {owned : List ℕ} (hnodup : owned.Nodup)
    (howned : ∀ address ∈ owned, heap.node address ≠ none) : owned.length ≤ heap.bound := by
  have hsubset : owned ⊆ List.range heap.bound := fun address hmem ↦
    List.mem_range.mpr (lt_bound (howned address hmem))
  have hle := (hnodup.subperm hsubset).length_le
  rwa [List.length_range] at hle

theorem modify_some (hnode : heap.node address = some node) (change : Node → Node) :
    heap.modify (some address) change = some (heap.set address (change node)) := by
  rw [modify, Option.bind_some, hnode]
  rfl

end Heap

/-- A way to choose addresses for new nodes. -/
structure Allocator (Node : Type*) where
  address : Heap Node → ℕ
  free : ∀ heap : Heap Node, heap.node (address heap) = none

/-- `new`: the address of the new node, and the heap with it. -/
def Allocator.new (alloc : Allocator Node) (heap : Heap Node) (node : Node) : ℕ × Heap Node :=
  (alloc.address heap, heap.set (alloc.address heap) node)

/-- The address of the next node, which is free. -/
theorem Allocator.exists_address (alloc : Allocator Node) (heap : Heap Node) :
    ∃ address, alloc.address heap = address ∧ heap.node address = none :=
  ⟨_, rfl, alloc.free heap⟩

/-- The allocator that uses no address again. -/
def Allocator.next : Allocator Node where
  address := Heap.bound
  free heap := heap.node_eq_none _ le_rfl

/-! ### What an operation leaves -/

/-- The heaps have the same nodes at all other addresses. -/
def SameOff (addresses : Set ℕ) (heap heap' : Heap Node) : Prop :=
  ∀ address ∉ addresses, heap'.node address = heap.node address

variable {addresses more : Set ℕ} {heap heap' heap'' : Heap Node}

theorem SameOff.refl (addresses : Set ℕ) (heap : Heap Node) : SameOff addresses heap heap :=
  fun _ _ ↦ rfl

theorem SameOff.trans (first : SameOff addresses heap heap')
    (second : SameOff addresses heap' heap'') : SameOff addresses heap heap'' :=
  fun address haddress ↦ (second address haddress).trans (first address haddress)

theorem SameOff.mono (h : SameOff addresses heap heap') (hsubset : addresses ⊆ more) :
    SameOff more heap heap' := fun address haddress ↦ h address fun hmem ↦ haddress (hsubset hmem)

theorem sameOff_set (heap : Heap Node) (address : ℕ) (node : Node) :
    SameOff {address} heap (heap.set address node) := fun _ hother ↦ Heap.set_node_of_ne hother

/-- What is owned does not change with an address that is not. -/
theorem forall_notMem_singleton {address : ℕ} {owned : List ℕ} (hnot : address ∉ owned) :
    ∀ other ∈ owned, other ∉ ({address} : Set ℕ) :=
  fun _ hother heq ↦ hnot (Set.mem_singleton_iff.mp heq ▸ hother)

theorem sameOff_set_of_mem {address : ℕ}
    {owned : List ℕ} (hmem : address ∈ owned) (heap : Heap Node)
    (node : Node) : SameOff {other | other ∈ owned} heap (heap.set address node) :=
  (sameOff_set heap address node).mono (Set.singleton_subset_iff.mpr hmem)

/-- A node that is what it was before can be left out. -/
theorem SameOff.of_cons {address : ℕ} {owned : List ℕ}
    (h : SameOff {other | other ∈ address :: owned} heap heap')
    (heq : heap'.node address = heap.node address) :
    SameOff {other | other ∈ owned} heap heap' := by
  intro other hother
  by_cases hsame : other = address
  · rw [hsame, heq]
  · exact h other fun hmem ↦ hother (List.mem_of_ne_of_mem hsame hmem)

theorem Heap.delete_some {address : ℕ} {node : Node} (hnode : heap.node address = some node) :
    ∃ heap', heap.delete (some address) = some heap' ∧ heap'.node address = none ∧
      SameOff {address} heap heap' := by
  rw [Heap.delete, Option.bind_some, hnode]
  exact ⟨_, rfl, Function.update_self .., fun other hne ↦ Function.update_of_ne hne ..⟩

/-- The second heap has all nodes of the first one. -/
def Extends (heap heap' : Heap Node) : Prop :=
  SameOff {address | heap.node address = none} heap heap'

theorem Extends.refl (heap : Heap Node) : Extends heap heap := SameOff.refl _ heap

theorem Extends.ne_none {address : ℕ} (h : Extends heap heap') (hnode : heap.node address ≠ none) :
    heap'.node address ≠ none := by
  rwa [h address hnode]

theorem Extends.node_eq {address : ℕ} {node : Node} (h : Extends heap heap')
    (hnode : heap.node address = some node) : heap'.node address = some node := by
  have hne : heap.node address ≠ none := hnode ▸ Option.some_ne_none node
  rw [h address hne, hnode]

/-- What is free has always been. -/
theorem Extends.free {address : ℕ} (h : Extends heap heap') (hfree : heap'.node address = none) :
    heap.node address = none := not_not.mp fun hnode ↦ h.ne_none hnode hfree

theorem Extends.trans (first : Extends heap heap') (second : Extends heap' heap'') :
    Extends heap heap'' := fun address hnode ↦
  (second address (first.ne_none hnode)).trans (first address hnode)

/-- A node at a free address takes no other one's place. -/
theorem extends_set {address : ℕ} (hfree : heap.node address = none) (node : Node) :
    Extends heap (heap.set address node) := by
  refine (sameOff_set heap address node).mono fun other hother ↦ ?_
  rwa [Set.mem_singleton_iff.mp hother]

/-- Nor does one at an address that was free before. -/
theorem Extends.set {address : ℕ} (h : Extends heap heap') (hfree : heap.node address = none)
    (node : Node) : Extends heap (heap'.set address node) := by
  refine SameOff.trans h ((sameOff_set heap' address node).mono fun other hother ↦ ?_)
  rwa [Set.mem_singleton_iff.mp hother]

end CppLearn.Foundation.NodeHeap
