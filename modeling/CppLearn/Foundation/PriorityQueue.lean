import Mathlib.Data.List.Perm.Basic
import Mathlib.Order.Defs.Unbundled

/-!
# Draining a priority queue

A priority queue gives up what it holds one element at a time, each time one that is less than no
other. Of several such elements it may choose any, so `Drains` is a relation between what a queue
holds and an order in which it can be emptied. Every such order is a permutation in which no element
is less than a later one (`Drains.perm`, `Drains.pairwise`), and under a strict order there is one
(`exists_drains`).
-/

set_option autoImplicit false
set_option relaxedAutoImplicit false

namespace CppLearn.Foundation.PriorityQueue

variable {α : Type*} {less : α → α → Prop}

/-- The queue can be emptied in the order. -/
inductive Drains (less : α → α → Prop) : List α → List α → Prop
  | nil : Drains less [] []
  | pop {queue rest order : List α} (top : α) (hqueue : queue.Perm (top :: rest))
      (htop : ∀ other ∈ rest, ¬ less top other) (hrest : Drains less rest order) :
      Drains less queue (top :: order)

/-- Everything comes out once. -/
theorem Drains.perm {queue order : List α} (drains : Drains less queue order) :
    order.Perm queue := by
  induction drains with
  | nil => exact .nil
  | pop top hqueue _ _ ih => exact (ih.cons top).trans hqueue.symm

/-- What comes out is not less than anything that comes later. -/
theorem Drains.pairwise {queue order : List α} (drains : Drains less queue order) :
    order.Pairwise fun first later ↦ ¬ less first later := by
  induction drains with
  | nil => exact .nil
  | pop top hqueue htop hrest ih =>
    refine List.pairwise_cons.mpr ⟨fun other hother ↦ ?_, ih⟩
    exact htop other (hrest.perm.mem_iff.mp hother)

/-- A queue that is not empty has an element that is less than no other. -/
theorem exists_top [IsStrictOrder α less] {queue : List α} (hqueue : queue ≠ []) :
    ∃ top rest, queue.Perm (top :: rest) ∧ ∀ other ∈ rest, ¬ less top other := by
  induction queue with
  | nil => exact absurd rfl hqueue
  | cons first queue ih =>
    by_cases hempty : queue = []
    · refine ⟨first, [], by rw [hempty], fun other hother ↦ ?_⟩
      cases hother
    · obtain ⟨top, rest, hperm, htop⟩ := ih hempty
      by_cases hless : less top first
      · refine ⟨first, queue, .refl _, fun other hother hafter ↦ ?_⟩
        rcases List.mem_cons.mp (hperm.mem_iff.mp hother) with rfl | hrest
        · exact irrefl_of less other (trans_of less hless hafter)
        · exact htop other hrest (trans_of less hless hafter)
      · refine ⟨top, first :: rest, (hperm.cons first).trans (.swap top first rest), ?_⟩
        intro other hother
        rcases List.mem_cons.mp hother with rfl | hrest
        · exact hless
        · exact htop other hrest

/-- Under a strict order every queue can be emptied. -/
theorem exists_drains [IsStrictOrder α less] (queue : List α) : ∃ order, Drains less queue order := by
  induction hlength : queue.length generalizing queue with
  | zero =>
    rw [List.length_eq_zero_iff.mp hlength]
    exact ⟨[], .nil⟩
  | succ length ih =>
    obtain ⟨top, rest, hperm, htop⟩ :=
      @exists_top _ less _ _ (List.ne_nil_of_length_eq_add_one hlength)
    have hrest : rest.length = length := by
      have := hperm.length_eq
      rw [hlength, List.length_cons] at this
      omega
    obtain ⟨order, hdrains⟩ := ih rest hrest
    exact ⟨top :: order, .pop top hperm htop hdrains⟩

end CppLearn.Foundation.PriorityQueue
