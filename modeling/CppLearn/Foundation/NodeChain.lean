import CppLearn.Foundation.NodeHeap
import Mathlib.Logic.Function.Iterate

/-!
# Chains of nodes

Nodes with a pointer to the next one. `follow` goes on from a pointer, and stays at null.
-/

set_option autoImplicit false
set_option relaxedAutoImplicit false

namespace CppLearn.Foundation.NodeChain

open NodeHeap

/-- Nodes with a pointer to the next. -/
class Linked (Node : Type*) where
  next : Node → Ptr

variable {Node : Type*} [Linked Node]

/-- `ptr->next`. -/
def next (heap : Heap Node) (ptr : Ptr) : Option Ptr := (heap.load ptr).map Linked.next

/-- The pointer behind one, null behind null. -/
def follow (heap : Heap Node) (ptr : Ptr) : Ptr := (heap.load ptr).bind Linked.next

variable {heap : Heap Node}

@[simp] theorem follow_none : follow heap none = none := rfl

theorem next_eq {ptr : Ptr} (hload : (heap.load ptr).isSome = true) :
    next heap ptr = some (follow heap ptr) := by
  obtain ⟨node, hnode⟩ := Option.isSome_iff_exists.mp hload
  rw [next, follow, hnode]
  rfl

theorem iterate_follow_none (count : ℕ) : (follow heap)^[count] none = none :=
  Function.iterate_fixed follow_none count

/-- A chain stays among pointers that lead to each other. -/
theorem iterate_follow_mem {pointers : Set Ptr} {start : Ptr} (hstart : start ∈ pointers)
    (hfollow : ∀ ptr ∈ pointers, follow heap ptr ∈ pointers) (count : ℕ) :
    (follow heap)^[count] start ∈ pointers := by
  induction count with
  | zero => exact hstart
  | succ count ih =>
    rw [Function.iterate_succ_apply']
    exact hfollow _ ih

/-- A chain that has ended does not begin again. -/
theorem iterate_follow_of_le {start : Ptr} {count more : ℕ} (hend : (follow heap)^[count] start = none)
    (hle : count ≤ more) : (follow heap)^[more] start = none := by
  obtain ⟨rest, rfl⟩ := Nat.exists_eq_add_of_le hle
  rw [Nat.add_comm, Function.iterate_add_apply, hend, iterate_follow_none]

end CppLearn.Foundation.NodeChain
