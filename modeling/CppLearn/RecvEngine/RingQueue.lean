import CppLearn.Foundation.CallSequence
import CppLearn.RecvEngine.WorkRing

/-!
# Rings as queues

Used one operation at a time, a work ring is a bounded queue: `Holds` reads its contents off the two
indices and the slots between them, an enqueue appends to them unless they fill the ring, and a
dequeue takes the first (`Queue.enqueue`, `Queue.dequeue`). So it answers every sequence of calls as
the bounded queue of its size does, however often its indices wrap (`answers_ring`). What two threads
do to each other inside the operations is the subject of `WorkRing`.

The resource rings are queues of a library for any number of threads, which document the same two
operations.
-/

set_option autoImplicit false
set_option relaxedAutoImplicit false

namespace CppLearn.RecvEngine.RingQueue

open Foundation.CallSequence Foundation.WrappingIndex WorkRing

variable {Object : Type*}

/-! ### Work rings -/

/-- The contents of a ring, oldest first. -/
def ringContents (r : RwRing Object) : List Object :=
  (List.range (rwRingEntries r).toNat).filterMap fun indx ↦
    r.objs (slot r (r.consIndx + BitVec.ofNat 32 indx))

theorem filterMap_getElem?_range (contents : List Object) :
    (List.range contents.length).filterMap (fun indx ↦ contents[indx]?) = contents := by
  induction contents using List.reverseRecOn with
  | nil => rfl
  | append_singleton contents last ih =>
    have hfront : ∀ indx ∈ List.range contents.length,
        (contents ++ [last])[indx]? = contents[indx]? := fun indx hindx ↦
      List.getElem?_append_left (List.mem_range.mp hindx)
    rw [List.length_append, List.length_singleton, List.range_succ, List.filterMap_append,
      List.filterMap_congr hfront, ih, List.filterMap_cons, List.getElem?_concat_length,
      List.filterMap_nil]

/-- A ring of `2 ^ exponent` slots from which `consumed` objects have been taken and that holds the
listed ones. -/
structure Holds (r : RwRing Object) (exponent consumed : ℕ) (contents : List Object) : Prop where
  exponent_le : exponent ≤ 27
  size_eq : r.size = BitVec.ofNat 32 (2 ^ exponent)
  mask_eq : r.mask.toNat = 2 ^ exponent - 1
  cons_eq : r.consIndx = BitVec.ofNat 32 consumed
  prod_eq : r.prodIndx = BitVec.ofNat 32 (consumed + contents.length)
  length_le : contents.length ≤ 2 ^ exponent
  slots : ∀ indx, indx < contents.length →
    r.objs ((consumed + indx) % 2 ^ exponent) = contents[indx]?

section Holds

variable {r : RwRing Object} {exponent consumed : ℕ} {contents : List Object}

theorem Holds.size_lt (h : Holds r exponent consumed contents) : 2 ^ exponent < 2 ^ 32 :=
  Nat.pow_lt_pow_right (by decide) (by have := h.exponent_le; omega)

/-- The slot of a wrapped counter is the counter modulo the size. -/
theorem Holds.slot_ofNat (h : Holds r exponent consumed contents) (counter : ℕ) :
    slot r (BitVec.ofNat 32 counter) = counter % 2 ^ exponent := by
  have := h.exponent_le
  exact and_mask_toNat (by omega) h.mask_eq counter

theorem Holds.entries_eq (h : Holds r exponent consumed contents) :
    (rwRingEntries r).toNat = contents.length := by
  have hsize := h.size_lt
  have hlength := h.length_le
  rw [rwRingEntries, h.prod_eq, h.cons_eq, sub_toNat_of_counters (by omega) (by omega)]
  omega

/-- What a ring holds is its contents. -/
theorem Holds.ringContents_eq (h : Holds r exponent consumed contents) :
    ringContents r = contents := by
  have hslot : ∀ indx ∈ List.range contents.length,
      r.objs (slot r (r.consIndx + BitVec.ofNat 32 indx)) = contents[indx]? := by
    intro indx hindx
    rw [h.cons_eq, ← BitVec.ofNat_add, h.slot_ofNat, h.slots indx (List.mem_range.mp hindx)]
  rw [ringContents, h.entries_eq, List.filterMap_congr hslot, filterMap_getElem?_range]

/-- An enqueue fails on a full ring and leaves it as it was; otherwise it appends the object. -/
theorem Holds.enqueue (h : Holds r exponent consumed contents) (obj : Object) :
    if contents.length = 2 ^ exponent then rwRingSpEnqueue r obj = (false, r)
    else ∃ ring, rwRingSpEnqueue r obj = (true, ring) ∧
      Holds ring exponent consumed (contents ++ [obj]) := by
  have hsize := h.size_lt
  have hlength := h.length_le
  have hfull : rwRingFreeEntries r = 0 ↔ contents.length = 2 ^ exponent := by
    rw [rwRingFreeEntries, h.size_eq, h.cons_eq, h.prod_eq,
      free_eq_zero_iff hsize (by omega) (by omega)]
    omega
  split_ifs with heq
  · rw [rwRingSpEnqueue, if_pos (hfull.mpr heq)]
  · refine ⟨_, by rw [rwRingSpEnqueue, if_neg (fun hzero ↦ heq (hfull.mp hzero))], ?_⟩
    have hslot : slot { r with prodIndx := r.prodIndx + 1 } r.prodIndx =
        (consumed + contents.length) % 2 ^ exponent := by
      rw [h.prod_eq]
      exact h.slot_ofNat _
    refine
      { exponent_le := h.exponent_le, size_eq := h.size_eq, mask_eq := h.mask_eq
        cons_eq := h.cons_eq, prod_eq := ?_, length_le := ?_, slots := ?_ }
    · simp only [store, h.prod_eq, List.length_append, List.length_singleton, ← Nat.add_assoc,
        BitVec.ofNat_add]
      rfl
    · rw [List.length_append, List.length_singleton]
      omega
    · intro indx hindx
      rw [List.length_append, List.length_singleton] at hindx
      simp only [store, hslot]
      by_cases hlast : indx = contents.length
      · subst hlast
        rw [Function.update_self, List.getElem?_concat_length]
      · rw [Function.update_of_ne (slot_ne_of_lt (by omega) (by omega)),
          h.slots indx (by omega), List.getElem?_append_left (by omega)]

/-- A dequeue finds nothing in an empty ring. -/
theorem Holds.dequeue_nil (h : Holds r exponent consumed []) :
    rwRingScDequeue r = (none, r) := by
  have hempty : rwRingEntries r = 0 := BitVec.eq_of_toNat_eq h.entries_eq
  rw [rwRingScDequeue, if_pos hempty]

/-- A dequeue takes the oldest object. -/
theorem Holds.dequeue_cons {obj : Object} (h : Holds r exponent consumed (obj :: contents)) :
    ∃ ring, rwRingScDequeue r = (some obj, ring) ∧
      Holds ring exponent (consumed + 1) contents := by
  have hnonempty : rwRingEntries r ≠ 0 := by
    intro hempty
    have hlength := h.entries_eq
    rw [hempty] at hlength
    cases hlength
  have hfirst : r.objs (slot r r.consIndx) = some obj := by
    rw [h.cons_eq, h.slot_ofNat]
    exact h.slots 0 (Nat.succ_pos _)
  have hlength := h.length_le
  rw [List.length_cons] at hlength
  refine ⟨{ r with consIndx := r.consIndx + 1 }, ?_, ?_⟩
  · rw [rwRingScDequeue, if_neg hnonempty, hfirst]
  · refine
      { exponent_le := h.exponent_le, size_eq := h.size_eq, mask_eq := h.mask_eq
        cons_eq := ?_, prod_eq := ?_, length_le := by omega, slots := ?_ }
    · simp only [h.cons_eq, BitVec.ofNat_add]
      rfl
    · rw [h.prod_eq, List.length_cons, Nat.add_assoc, Nat.add_comm 1]
    · intro indx hindx
      have hslot := h.slots (indx + 1) (by rw [List.length_cons]; omega)
      rw [List.getElem?_cons_succ] at hslot
      rw [← hslot, Nat.add_assoc, Nat.add_comm 1]

end Holds

/-- A ring that holds the listed objects, whatever its size and its indices. -/
def Queue (r : RwRing Object) (contents : List Object) : Prop :=
  ∃ exponent consumed, Holds r exponent consumed contents

variable {r ring : RwRing Object} {contents : List Object}

theorem Queue.ringContents_eq (h : Queue r contents) : ringContents r = contents := by
  obtain ⟨exponent, consumed, h⟩ := h
  exact h.ringContents_eq

/-- The ring counts no entries exactly when it holds nothing. -/
theorem Queue.entries_eq_zero_iff (h : Queue r contents) : rwRingEntries r = 0 ↔ contents = [] := by
  obtain ⟨exponent, consumed, h⟩ := h
  have hentries : (rwRingEntries r).toNat = contents.length := h.entries_eq
  rw [← BitVec.toNat_inj, hentries]
  exact List.length_eq_zero_iff

/-- An enqueue that returns true has appended the object. -/
theorem Queue.enqueue (h : Queue r contents) {obj : Object}
    (henqueue : rwRingSpEnqueue r obj = (true, ring)) : Queue ring (contents ++ [obj]) := by
  obtain ⟨exponent, consumed, h⟩ := h
  have hcases := h.enqueue obj
  split_ifs at hcases
  · rw [hcases] at henqueue
    cases henqueue
  · obtain ⟨ring', henqueue', hring'⟩ := hcases
    rw [henqueue'] at henqueue
    cases henqueue
    exact ⟨exponent, consumed, hring'⟩

/-- A dequeue that returns an object has taken the oldest one. -/
theorem Queue.dequeue (h : Queue r contents) {obj : Object}
    (hdequeue : rwRingScDequeue r = (some obj, ring)) :
    ∃ rest, contents = obj :: rest ∧ Queue ring rest := by
  obtain ⟨exponent, consumed, h⟩ := h
  rcases contents with _ | ⟨first, rest⟩
  · rw [h.dequeue_nil] at hdequeue
    cases hdequeue
  · obtain ⟨ring', hdequeue', hring'⟩ := h.dequeue_cons
    rw [hdequeue'] at hdequeue
    cases hdequeue
    exact ⟨rest, rfl, exponent, consumed + 1, hring'⟩

/-- A dequeue that returns nothing leaves the ring as it was. -/
theorem Queue.dequeue_none (h : Queue r contents)
    (hdequeue : rwRingScDequeue r = (none, ring)) : ring = r := by
  obtain ⟨exponent, consumed, h⟩ := h
  rcases contents with _ | ⟨first, rest⟩
  · rw [h.dequeue_nil] at hdequeue
    exact (Prod.mk.inj hdequeue).2.symm
  · obtain ⟨ring', hdequeue', -⟩ := h.dequeue_cons
    rw [hdequeue'] at hdequeue
    cases hdequeue

/-- A new ring of a power of two holds nothing. -/
theorem holds_create {objs : ℕ → Option Object} {exponent : ℕ} (hle : exponent ≤ 27)
    (hring : createRwRing (some objs) (2 ^ exponent) = some ring) : Holds ring exponent 0 [] := by
  have htracks := tracks_start hle hring
  exact
    { exponent_le := hle, size_eq := htracks.size_eq, mask_eq := htracks.mask_eq
      cons_eq := htracks.cons_eq, prod_eq := htracks.prod_eq, length_le := Nat.zero_le _
      slots := fun _ hindx ↦ (Nat.not_lt_zero _ hindx).elim }

/-- A new ring is an empty queue. -/
theorem queue_create {data : Option (ℕ → Option Object)} {exponent : ℕ} (hle : exponent ≤ 27)
    (hring : createRwRing data (2 ^ exponent) = some ring) : Queue ring [] := by
  obtain ⟨objs, rfl, -⟩ := sizes_of_createRwRing hring
  exact ⟨exponent, 0, holds_create hle hring⟩

/-! ### Sequences of calls -/

/-- One call on a ring, from start to end. -/
def ringCall (r : RwRing Object) : QueueCall Object → QueueResult Object × RwRing Object
  | .enqueue obj => (.enqueued (rwRingSpEnqueue r obj).1, (rwRingSpEnqueue r obj).2)
  | .dequeue => (.dequeued (rwRingScDequeue r).1, (rwRingScDequeue r).2)

/-- What a ring of a size holds. A ring of size zero holds nothing, and both its tests fail. -/
def HoldsUpTo (count : ℕ) (r : RwRing Object) (contents : List Object) : Prop :=
  (count = 0 ∧ contents = [] ∧ rwRingFreeEntries r = 0 ∧ rwRingEntries r = 0) ∨
    ∃ exponent consumed, count = 2 ^ exponent ∧ Holds r exponent consumed contents

/-- A new ring holds nothing. -/
theorem holdsUpTo_create {data : Option (ℕ → Option Object)} {count : ℕ}
    (hring : createRwRing data count = some ring) : HoldsUpTo count ring [] := by
  obtain ⟨objs, rfl, rfl | ⟨exponent, hle, rfl⟩⟩ := sizes_of_createRwRing hring
  · cases hring
    exact .inl ⟨rfl, rfl, by simp [rwRingFreeEntries], by simp [rwRingEntries]⟩
  · exact .inr ⟨exponent, 0, rfl, holds_create hle hring⟩

/-- A call on a ring and the same call on a queue of its size. -/
theorem HoldsUpTo.ringCall {count : ℕ} (h : HoldsUpTo count r contents) (call : QueueCall Object) :
    (ringCall r call).1 = (queueCall count contents call).1 ∧
      HoldsUpTo count (ringCall r call).2 (queueCall count contents call).2 := by
  rcases h with ⟨rfl, rfl, hfull, hempty⟩ | ⟨exponent, consumed, rfl, h⟩
  · have hclosed : HoldsUpTo 0 r [] := .inl ⟨rfl, rfl, hfull, hempty⟩
    cases call with
    | enqueue obj =>
      have henqueue : rwRingSpEnqueue r obj = (false, r) := by rw [rwRingSpEnqueue, if_pos hfull]
      rw [RingQueue.ringCall, henqueue]
      exact ⟨rfl, hclosed⟩
    | dequeue =>
      have hdequeue : rwRingScDequeue r = (none, r) := by rw [rwRingScDequeue, if_pos hempty]
      rw [RingQueue.ringCall, hdequeue]
      exact ⟨rfl, hclosed⟩
  · cases call with
    | enqueue obj =>
      have hcases := h.enqueue obj
      rw [RingQueue.ringCall, queueCall]
      split_ifs at hcases ⊢ with hfull
      · rw [hcases]
        exact ⟨rfl, .inr ⟨exponent, consumed, rfl, h⟩⟩
      · obtain ⟨ring, henqueue, hring⟩ := hcases
        rw [henqueue]
        exact ⟨rfl, .inr ⟨exponent, consumed, rfl, hring⟩⟩
    | dequeue =>
      rw [RingQueue.ringCall, queueCall]
      cases contents with
      | nil =>
        rw [h.dequeue_nil]
        exact ⟨rfl, .inr ⟨exponent, consumed, rfl, h⟩⟩
      | cons first rest =>
        obtain ⟨ring, hdequeue, hring⟩ := h.dequeue_cons
        rw [hdequeue]
        exact ⟨rfl, .inr ⟨exponent, consumed + 1, rfl, hring⟩⟩

/-- Every sequence of calls on a new ring has the results that it has on an empty queue of its size.
Assumes: a ring made by `createRwRing`. -/
theorem answers_ring {data : Option (ℕ → Option Object)} {count : ℕ}
    (hring : createRwRing data count = some ring) (calls : List (QueueCall Object)) :
    answers ringCall ring calls = answers (queueCall count) [] calls :=
  answers_eq_of_related (fun _ _ h call ↦ HoldsUpTo.ringCall h call) (holdsUpTo_create hring) calls

/-- A ring of two slots that is filled, emptied and filled again. -/
theorem answers_ring_workRing :
    answers ringCall workRing [.dequeue, .enqueue 1, .enqueue 2, .enqueue 3, .dequeue, .enqueue 4,
        .dequeue, .dequeue, .dequeue] =
      [.dequeued none, .enqueued true, .enqueued true, .enqueued false, .dequeued (some 1),
        .enqueued true, .dequeued (some 2), .dequeued (some 4), .dequeued none] := by
  have hring : createRwRing (some fun _ ↦ none) 2 = some workRing := rfl
  exact answers_ring hring _

/-! ### Resource rings -/

/-- `mrmw_ring_sp_enqueue`, on a queue of a fixed capacity. -/
def mrmwRingSpEnqueue (capacity : ℕ) (ring : List Object) (obj : Object) : Bool × List Object :=
  if ring.length < capacity then (true, ring ++ [obj]) else (false, ring)

/-- An object that a resource ring accepts is its last. -/
theorem eq_append_of_mrmwRingSpEnqueue {capacity : ℕ} {ring next : List Object} {obj : Object}
    (henqueue : mrmwRingSpEnqueue capacity ring obj = (true, next)) : next = ring ++ [obj] := by
  rw [mrmwRingSpEnqueue] at henqueue
  split_ifs at henqueue
  · exact (Prod.mk.inj henqueue).2.symm
  · exact (Bool.false_ne_true (Prod.mk.inj henqueue).1).elim

theorem eq_of_mrmwRingSpEnqueue_false {capacity : ℕ} {ring next : List Object} {obj : Object}
    (henqueue : mrmwRingSpEnqueue capacity ring obj = (false, next)) : next = ring := by
  rw [mrmwRingSpEnqueue] at henqueue
  split_ifs at henqueue
  · exact (Bool.false_ne_true (Prod.mk.inj henqueue).1.symm).elim
  · exact (Prod.mk.inj henqueue).2.symm

/-- `mrmw_ring_sc_dequeue`. -/
def mrmwRingScDequeue (ring : List Object) : Option Object × List Object :=
  (ring.head?, ring.tail)

end CppLearn.RecvEngine.RingQueue
