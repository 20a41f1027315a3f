import Mathlib.Data.List.Infix
import CppLearn.Foundation.GuardedRun
import CppLearn.Foundation.WrappingIndex

/-!
# The work ring between one producer and one consumer

`rw_ring` hands packet groups and parquet chunks from one thread to another through an array of
slots and two atomic indices. `rwRingSpEnqueue` and `rwRingScDequeue` are the two operations as one
thread sees them. Run by two threads they are three steps each, in the order the code performs
them: the index test, the post-increment of the atomic index, and the access to the slot. `ringStep`
interleaves these steps, and the two logs of a `RingRun` record the objects whose enqueue passed its
test and the non-null objects the consumer obtained.

The index moves before the slot is accessed, so a slot is visible to the other side while its owner
has still to write or read it. `Tracks` is the invariant of the runs in which the two threads never
meet on one slot in that window (`slotsExclusive`): the counters behind the two words, the objects
in the occupied slots, and where each thread stands.
-/

set_option autoImplicit false
set_option relaxedAutoImplicit false

namespace CppLearn.RecvEngine.WorkRing

open Foundation.GuardedRun Foundation.WrappingIndex

variable {Object : Type*}

/-! ### The ring and its operations -/

/-- `RTE_RING_SZ_MASK`, the largest size of a ring. -/
def rteRingSzMask : ℕ := 0x0fffffff

/-- `rw_ring`. A slot holds a pointer, null or not; slots are unbounded here and only those below
`size` are ever touched. -/
structure RwRing (Object : Type*) where
  size : BitVec 32
  mask : BitVec 32
  consIndx : BitVec 32
  prodIndx : BitVec 32
  objs : ℕ → Option Object

/-- `POWEROF2`, which zero passes as well. -/
def powerOf2 (count : ℕ) : Bool := (count - 1) &&& count == 0

/-- `create_rw_ring`. `data` is what `malloc` returns, with whatever the memory of the slots holds:
only the header of the ring is cleared. -/
def createRwRing (data : Option (ℕ → Option Object)) (count : ℕ) : Option (RwRing Object) :=
  if !powerOf2 count || decide (rteRingSzMask < count) then none
  else data.map fun objs ↦
    { size := BitVec.ofNat 32 count
      mask := BitVec.ofNat 32 count - 1
      consIndx := 0
      prodIndx := 0
      objs := objs }

/-- `rw_ring_entries`. -/
def rwRingEntries (r : RwRing Object) : BitVec 32 := r.prodIndx - r.consIndx

/-- `rw_ring_free_entries`. -/
def rwRingFreeEntries (r : RwRing Object) : BitVec 32 := r.size + r.consIndx - r.prodIndx

/-- The slot of an index, `indx & r->mask`. -/
def slot (r : RwRing Object) (indx : BitVec 32) : ℕ := (indx &&& r.mask).toNat

/-- The write `r->objs[indx & r->mask] = obj`. -/
def store (r : RwRing Object) (indx : BitVec 32) (obj : Object) : RwRing Object :=
  { r with objs := Function.update r.objs (slot r indx) (some obj) }

/-- `rw_ring_sp_enqueue`. -/
def rwRingSpEnqueue (r : RwRing Object) (obj : Object) : Bool × RwRing Object :=
  if rwRingFreeEntries r = 0 then (false, r)
  else (true, store { r with prodIndx := r.prodIndx + 1 } r.prodIndx obj)

/-- `rw_ring_sc_dequeue`. -/
def rwRingScDequeue (r : RwRing Object) : Option Object × RwRing Object :=
  if rwRingEntries r = 0 then (none, r)
  else (r.objs (slot r r.consIndx), { r with consIndx := r.consIndx + 1 })

/-! ### Two threads on one ring -/

/-- Where the producer stands: outside `rw_ring_sp_enqueue`, past the index test, or past the
post-increment with the index it returned. -/
inductive Producer (Object : Type*)
  | idle
  | tested (obj : Object)
  | claimed (obj : Object) (indx : BitVec 32)
  deriving DecidableEq

/-- Where the consumer stands in `rw_ring_sc_dequeue`. -/
inductive Consumer
  | idle
  | tested
  | claimed (indx : BitVec 32)
  deriving DecidableEq

/-- The ring, its two threads, the objects for which enqueue returned or will return true, and the
non-null objects dequeue returned. -/
structure RingRun (Object : Type*) where
  ring : RwRing Object
  producer : Producer Object
  consumer : Consumer
  accepted : List Object
  obtained : List Object

/-- Both threads outside the ring operations, nothing enqueued yet. -/
def RingRun.start (ring : RwRing Object) : RingRun Object :=
  { ring := ring, producer := .idle, consumer := .idle, accepted := [], obtained := [] }

/-- The atomic steps: the producer's call of enqueue on an object up to its index test, its
post-increment and its write, and the same three of the consumer. -/
inductive RingEvent (Object : Type*)
  | enqueueTest (obj : Object)
  | enqueueClaim
  | enqueueStore
  | dequeueTest
  | dequeueClaim
  | dequeueLoad

/-- One atomic step. A call whose index test fails returns at once and leaves no trace. -/
def ringStep (s : RingRun Object) : RingEvent Object → Option (RingRun Object)
  | .enqueueTest obj =>
    match s.producer with
    | .idle =>
      if rwRingFreeEntries s.ring = 0 then some s
      else some { s with producer := .tested obj, accepted := s.accepted ++ [obj] }
    | _ => none
  | .enqueueClaim =>
    match s.producer with
    | .tested obj =>
      some { s with
        producer := .claimed obj s.ring.prodIndx
        ring := { s.ring with prodIndx := s.ring.prodIndx + 1 } }
    | _ => none
  | .enqueueStore =>
    match s.producer with
    | .claimed obj indx => some { s with producer := .idle, ring := store s.ring indx obj }
    | _ => none
  | .dequeueTest =>
    match s.consumer with
    | .idle => if rwRingEntries s.ring = 0 then some s else some { s with consumer := .tested }
    | _ => none
  | .dequeueClaim =>
    match s.consumer with
    | .tested =>
      some { s with
        consumer := .claimed s.ring.consIndx
        ring := { s.ring with consIndx := s.ring.consIndx + 1 } }
    | _ => none
  | .dequeueLoad =>
    match s.consumer with
    | .claimed indx =>
      some { s with
        consumer := .idle
        obtained := s.obtained ++ (s.ring.objs (slot s.ring indx)).toList }
    | _ => none

/-- Run without interruption from outside both operations, the three steps of the producer are
`rwRingSpEnqueue`. -/
theorem execute_enqueue (s : RingRun Object) (hidle : s.producer = .idle) (obj : Object)
    (hroom : rwRingFreeEntries s.ring ≠ 0) :
    execute ringStep anyEvent s [.enqueueTest obj, .enqueueClaim, .enqueueStore] =
      some { s with
        ring := (rwRingSpEnqueue s.ring obj).2
        accepted := s.accepted ++ [obj] } := by
  obtain ⟨ring, producer, consumer, accepted, obtained⟩ := s
  cases hidle
  have hfree : ¬ rwRingFreeEntries ring = 0#32 := hroom
  simp [execute, anyEvent, ringStep, rwRingSpEnqueue, hfree]

/-- Run without interruption, the three steps of the consumer are `rwRingScDequeue`. -/
theorem execute_dequeue (s : RingRun Object) (hidle : s.consumer = .idle)
    (hentries : rwRingEntries s.ring ≠ 0) :
    execute ringStep anyEvent s [.dequeueTest, .dequeueClaim, .dequeueLoad] =
      some { s with
        ring := (rwRingScDequeue s.ring).2
        obtained := s.obtained ++ (rwRingScDequeue s.ring).1.toList } := by
  obtain ⟨ring, producer, consumer, accepted, obtained⟩ := s
  cases hidle
  have hheld : ¬ rwRingEntries ring = 0#32 := hentries
  simp [execute, anyEvent, ringStep, rwRingScDequeue, hheld, slot]

/-- The guard of the runs in which the threads never meet on one slot: the producer does not write
a slot that the consumer has claimed for an earlier index and not yet read, and the consumer does
not read a slot that the producer has claimed for the same index and not yet written. -/
def slotsExclusive (s : RingRun Object) : RingEvent Object → Prop
  | .enqueueStore =>
    match s.producer, s.consumer with
    | .claimed _ indx, .claimed pending => indx = pending ∨ slot s.ring indx ≠ slot s.ring pending
    | _, _ => True
  | .dequeueLoad =>
    match s.producer, s.consumer with
    | .claimed _ pending, .claimed indx => indx ≠ pending
    | _, _ => True
  | _ => True

instance (s : RingRun Object) (event : RingEvent Object) : Decidable (slotsExclusive s event) := by
  unfold slotsExclusive
  split <;> try split
  all_goals infer_instance

/-! ### The invariant of exclusive runs -/

/-- Where the producer stands, in terms of the number of indices it has claimed. -/
def ProducerTracks (size produced consumed : ℕ) (accepted : List Object) :
    Producer Object → Prop
  | .idle => accepted.length = produced
  | .tested obj => accepted.length = produced + 1 ∧ accepted[produced]? = some obj ∧
      produced < consumed + size
  | .claimed obj indx => accepted.length = produced ∧ 0 < produced ∧
      indx = BitVec.ofNat 32 (produced - 1) ∧ accepted[produced - 1]? = some obj

/-- Where the consumer stands, in terms of the number of indices it has claimed. -/
def ConsumerTracks (produced consumed obtained : ℕ) : Consumer → Prop
  | .idle => obtained = consumed
  | .tested => obtained = consumed ∧ consumed < produced
  | .claimed indx => obtained + 1 = consumed ∧ indx = BitVec.ofNat 32 obtained

/-- The number of slots written: one less than the number claimed while the write is pending. -/
def written (produced : ℕ) : Producer Object → ℕ
  | .claimed _ _ => produced - 1
  | _ => produced

/-- The invariant of exclusive runs: the two words carry the counters `produced` and `consumed`,
which are at most one lap apart, every slot written and not yet read holds the object accepted at
its index, and the consumer has obtained the accepted objects in order. -/
structure Tracks (s : RingRun Object) (exponent produced consumed : ℕ) : Prop where
  exponent_le : exponent ≤ 27
  size_eq : s.ring.size = BitVec.ofNat 32 (2 ^ exponent)
  mask_eq : s.ring.mask.toNat = 2 ^ exponent - 1
  prod_eq : s.ring.prodIndx = BitVec.ofNat 32 produced
  cons_eq : s.ring.consIndx = BitVec.ofNat 32 consumed
  consumed_le : consumed ≤ produced
  produced_le : produced ≤ consumed + 2 ^ exponent
  producer : ProducerTracks (2 ^ exponent) produced consumed s.accepted s.producer
  consumer : ConsumerTracks produced consumed s.obtained.length s.consumer
  obtained_eq : s.obtained = s.accepted.take s.obtained.length
  slots : ∀ indx, s.obtained.length ≤ indx → indx < written produced s.producer →
    s.ring.objs (indx % 2 ^ exponent) = s.accepted[indx]?

/-- A ring of `2 ^ exponent` slots has fewer slots than a word has values. -/
theorem Tracks.size_lt {s : RingRun Object} {exponent produced consumed : ℕ}
    (h : Tracks s exponent produced consumed) : 2 ^ exponent < 2 ^ 32 :=
  Nat.pow_lt_pow_right (by decide) (by have := h.exponent_le; omega)

/-- The slot of a wrapped counter is the counter modulo the size. -/
theorem Tracks.slot_ofNat {s : RingRun Object} {exponent produced consumed : ℕ}
    (h : Tracks s exponent produced consumed) (counter : ℕ) :
    slot s.ring (BitVec.ofNat 32 counter) = counter % 2 ^ exponent :=
  and_mask_toNat (by have := h.exponent_le; omega) h.mask_eq counter

/-- The fullness test of the code, on the counters. -/
theorem Tracks.freeEntries_eq_zero_iff {s : RingRun Object} {exponent produced consumed : ℕ}
    (h : Tracks s exponent produced consumed) :
    rwRingFreeEntries s.ring = 0 ↔ produced = consumed + 2 ^ exponent := by
  rw [rwRingFreeEntries, h.size_eq, h.cons_eq, h.prod_eq]
  exact free_eq_zero_iff h.size_lt h.consumed_le h.produced_le

/-- The emptiness test of the code, on the counters. -/
theorem Tracks.entries_eq_zero_iff {s : RingRun Object} {exponent produced consumed : ℕ}
    (h : Tracks s exponent produced consumed) :
    rwRingEntries s.ring = 0 ↔ consumed = produced := by
  rw [rwRingEntries, h.cons_eq, h.prod_eq]
  exact Foundation.WrappingIndex.entries_eq_zero_iff h.consumed_le
    (by have := h.size_lt; have := h.produced_le; omega)

section Steps

variable {s next : RingRun Object} {exponent produced consumed : ℕ}

/-- Consuming moves the counters within the bounds the producer relies on. -/
theorem ProducerTracks.consume {size : ℕ} {accepted : List Object} {producer : Producer Object}
    (h : ProducerTracks size produced consumed accepted producer) :
    ProducerTracks size produced (consumed + 1) accepted producer := by
  cases producer with
  | idle => exact h
  | tested obj => exact ⟨h.1, h.2.1, by have := h.2.2; omega⟩
  | claimed obj indx => exact h

/-- Producing moves the counters within the bounds the consumer relies on. -/
theorem ConsumerTracks.produce {obtained : ℕ} {consumer : Consumer}
    (h : ConsumerTracks produced consumed obtained consumer) :
    ConsumerTracks (produced + 1) consumed obtained consumer := by
  cases consumer with
  | idle => exact h
  | tested => exact ⟨h.1, by have := h.2; omega⟩
  | claimed indx => exact h

/-- The consumer has obtained at most as many objects as it has claimed indices. -/
theorem ConsumerTracks.obtained_le {obtained : ℕ} {consumer : Consumer}
    (h : ConsumerTracks produced consumed obtained consumer) : obtained ≤ consumed := by
  cases consumer with
  | idle => exact h.le
  | tested => exact h.1.le
  | claimed indx => have := h.1; omega

/-- No more slots are written than objects accepted. -/
theorem ProducerTracks.written_le {size : ℕ} {accepted : List Object} {producer : Producer Object}
    (h : ProducerTracks size produced consumed accepted producer) :
    written produced producer ≤ accepted.length := by
  cases producer with
  | idle => exact h.ge
  | tested obj => have := h.1; simp only [written]; omega
  | claimed obj indx => have := h.1; simp only [written]; omega

theorem Tracks.enqueueTest (h : Tracks s exponent produced consumed) {obj : Object}
    (htaken : ringStep s (.enqueueTest obj) = some next) :
    Tracks next exponent produced consumed := by
  simp only [ringStep] at htaken
  split at htaken
  · next hidle =>
    have hlength : s.accepted.length = produced := by simpa [ProducerTracks, hidle] using h.producer
    have hwritten : written produced s.producer = produced := by rw [hidle]; rfl
    split_ifs at htaken with hfull <;> cases htaken
    · exact h
    · have hroom : produced < consumed + 2 ^ exponent :=
        lt_of_le_of_ne h.produced_le fun heq ↦ hfull (h.freeEntries_eq_zero_iff.mpr heq)
      have hobtained : s.obtained.length ≤ s.accepted.length := by
        rw [hlength]
        exact h.consumer.obtained_le.trans h.consumed_le
      refine { h with producer := ⟨?_, ?_, hroom⟩, obtained_eq := ?_, slots := ?_ }
      · simp [hlength]
      · simp [← hlength]
      · rw [List.take_append_of_le_length hobtained]
        exact h.obtained_eq
      · intro indx hle hlt
        have hlt' : indx < produced := hlt
        rw [List.getElem?_append_left (by omega)]
        exact h.slots indx hle (by rw [hwritten]; exact hlt')
  · cases htaken

theorem Tracks.enqueueClaim (h : Tracks s exponent produced consumed)
    (htaken : ringStep s .enqueueClaim = some next) :
    Tracks next exponent (produced + 1) consumed := by
  simp only [ringStep] at htaken
  split at htaken
  · next obj htested =>
    have hproducer : s.accepted.length = produced + 1 ∧ s.accepted[produced]? = some obj ∧
        produced < consumed + 2 ^ exponent := by
      simpa [ProducerTracks, htested] using h.producer
    obtain ⟨hlength, hobj, hroom⟩ := hproducer
    cases htaken
    refine { h with
      prod_eq := ?_, consumed_le := ?_, produced_le := by omega
      producer := ⟨hlength, by omega, h.prod_eq, hobj⟩
      consumer := h.consumer.produce, slots := ?_ }
    · simp only [h.prod_eq, BitVec.ofNat_add]
      rfl
    · have := h.consumed_le; omega
    · intro indx hle hlt
      have hlt' : indx < produced := hlt
      exact h.slots indx hle (by rw [htested]; exact hlt')
  · cases htaken

theorem Tracks.dequeueTest (h : Tracks s exponent produced consumed)
    (htaken : ringStep s .dequeueTest = some next) : Tracks next exponent produced consumed := by
  simp only [ringStep] at htaken
  split at htaken
  · next hidle =>
    have hobtained : s.obtained.length = consumed := by
      simpa [ConsumerTracks, hidle] using h.consumer
    split_ifs at htaken with hempty <;> cases htaken
    · exact h
    · have hlt : consumed < produced :=
        lt_of_le_of_ne h.consumed_le fun heq ↦ hempty (h.entries_eq_zero_iff.mpr heq)
      exact { h with consumer := ⟨hobtained, hlt⟩ }
  · cases htaken

theorem Tracks.dequeueClaim (h : Tracks s exponent produced consumed)
    (htaken : ringStep s .dequeueClaim = some next) :
    Tracks next exponent produced (consumed + 1) := by
  simp only [ringStep] at htaken
  split at htaken
  · next htested =>
    have hconsumer : s.obtained.length = consumed ∧ consumed < produced := by
      simpa [ConsumerTracks, htested] using h.consumer
    obtain ⟨hobtained, hlt⟩ := hconsumer
    cases htaken
    refine { h with
      cons_eq := ?_, consumed_le := hlt, produced_le := ?_
      producer := h.producer.consume
      consumer := ⟨by rw [hobtained], by rw [h.cons_eq, hobtained]⟩ }
    · simp only [h.cons_eq, BitVec.ofNat_add]
      rfl
    · have := h.produced_le; omega
  · cases htaken

/-- The write of an enqueue fills the slot of its own index and no slot still to be read: the only
occupied slot it could hit is the one a full lap behind, which the guard excludes. -/
theorem Tracks.enqueueStore (h : Tracks s exponent produced consumed)
    (hexclusive : slotsExclusive s .enqueueStore)
    (htaken : ringStep s .enqueueStore = some next) : Tracks next exponent produced consumed := by
  simp only [ringStep] at htaken
  split at htaken
  · next obj indx hclaimed =>
    have hproducer : s.accepted.length = produced ∧ 0 < produced ∧
        indx = BitVec.ofNat 32 (produced - 1) ∧ s.accepted[produced - 1]? = some obj := by
      simpa [ProducerTracks, hclaimed] using h.producer
    obtain ⟨hlength, hpos, rfl, hobj⟩ := hproducer
    cases htaken
    have hold : ∀ counter, s.obtained.length ≤ counter → counter < produced - 1 →
        counter % 2 ^ exponent ≠ (produced - 1) % 2 ^ exponent := by
      intro counter hle hlt
      have hbound := h.produced_le
      cases hconsumer : s.consumer with
      | idle =>
        have hobtained : s.obtained.length = consumed := by
          simpa [ConsumerTracks, hconsumer] using h.consumer
        exact slot_ne_of_lt hlt (by omega)
      | tested =>
        have hobtained : s.obtained.length = consumed ∧ consumed < produced := by
          simpa [ConsumerTracks, hconsumer] using h.consumer
        exact slot_ne_of_lt hlt (by omega)
      | claimed pending =>
        have htracks : s.obtained.length + 1 = consumed ∧
            pending = BitVec.ofNat 32 s.obtained.length := by
          simpa [ConsumerTracks, hconsumer] using h.consumer
        obtain ⟨hobtained, rfl⟩ := htracks
        by_cases hlap : produced - 1 < counter + 2 ^ exponent
        · exact slot_ne_of_lt hlt hlap
        -- the producer is a full lap ahead, so the slot is the one the consumer has claimed
        · have hcounter : counter = s.obtained.length := by omega
          subst hcounter
          have hsize := h.size_lt
          have hne : BitVec.ofNat 32 (produced - 1) ≠ BitVec.ofNat 32 s.obtained.length := by
            intro heq
            have := (ofNat_eq_ofNat_iff hlt.le (by omega)).mp heq.symm
            omega
          simp only [slotsExclusive, hclaimed, hconsumer] at hexclusive
          have hslots := hexclusive.resolve_left hne
          rw [h.slot_ofNat, h.slot_ofNat] at hslots
          exact hslots.symm
    refine { h with producer := hlength, slots := ?_ }
    intro counter hle hlt
    have hlt' : counter < produced := hlt
    simp only [store, h.slot_ofNat]
    by_cases hlast : counter = produced - 1
    · subst hlast
      rw [Function.update_self, hobj]
    · rw [Function.update_of_ne (hold counter hle (by omega))]
      exact h.slots counter hle (by rw [hclaimed]; simp only [written]; omega)
  · cases htaken

/-- The read of a dequeue obtains the object accepted at its index: the guard says that the
producer is not still to write it. -/
theorem Tracks.dequeueLoad (h : Tracks s exponent produced consumed)
    (hexclusive : slotsExclusive s .dequeueLoad)
    (htaken : ringStep s .dequeueLoad = some next) : Tracks next exponent produced consumed := by
  simp only [ringStep] at htaken
  split at htaken
  · next indx hclaimed =>
    have hconsumer : s.obtained.length + 1 = consumed ∧
        indx = BitVec.ofNat 32 s.obtained.length := by
      simpa [ConsumerTracks, hclaimed] using h.consumer
    obtain ⟨hobtained, rfl⟩ := hconsumer
    cases htaken
    have hle := h.consumed_le
    have hwritten : s.obtained.length < written produced s.producer := by
      cases hproducer : s.producer with
      | idle => simp only [written]; omega
      | tested obj => simp only [written]; omega
      | claimed obj pending =>
        have htracks : s.accepted.length = produced ∧ 0 < produced ∧
            pending = BitVec.ofNat 32 (produced - 1) ∧ s.accepted[produced - 1]? = some obj := by
          simpa [ProducerTracks, hproducer] using h.producer
        obtain ⟨-, hpos, rfl, -⟩ := htracks
        simp only [slotsExclusive, hclaimed, hproducer] at hexclusive
        have hne : s.obtained.length ≠ produced - 1 := fun heq ↦ hexclusive (by rw [heq])
        simp only [written]
        omega
    have hlt : s.obtained.length < s.accepted.length :=
      lt_of_lt_of_le hwritten h.producer.written_le
    have hread : s.ring.objs (slot s.ring (BitVec.ofNat 32 s.obtained.length)) =
        some s.accepted[s.obtained.length] := by
      rw [h.slot_ofNat, h.slots _ le_rfl hwritten, List.getElem?_eq_getElem hlt]
    simp only [hread, Option.toList_some]
    refine { h with consumer := ?_, obtained_eq := ?_, slots := ?_ }
    · simpa [ConsumerTracks] using hobtained
    · rw [List.length_append, List.length_singleton, ← List.take_append_getElem hlt,
        ← h.obtained_eq]
    · intro counter hcounter hbound
      exact h.slots counter (by simp at hcounter; omega) hbound
  · cases htaken

/-- The invariant holds for some counters. -/
def Tracked (exponent : ℕ) (s : RingRun Object) : Prop :=
  ∃ produced consumed, Tracks s exponent produced consumed

/-- A permitted step keeps the invariant. -/
theorem Tracked.step (h : Tracked exponent s) {event : RingEvent Object}
    (hexclusive : slotsExclusive s event) (htaken : ringStep s event = some next) :
    Tracked exponent next := by
  obtain ⟨produced, consumed, h⟩ := h
  cases event with
  | enqueueTest obj => exact ⟨_, _, h.enqueueTest htaken⟩
  | enqueueClaim => exact ⟨_, _, h.enqueueClaim htaken⟩
  | enqueueStore => exact ⟨_, _, h.enqueueStore hexclusive htaken⟩
  | dequeueTest => exact ⟨_, _, h.dequeueTest htaken⟩
  | dequeueClaim => exact ⟨_, _, h.dequeueClaim htaken⟩
  | dequeueLoad => exact ⟨_, _, h.dequeueLoad hexclusive htaken⟩

end Steps

/-! ### What the consumer obtains -/

/-- The sizes `create_rw_ring` accepts: the powers of two up to the limit, and zero. -/
theorem powerOf2_cases {count : ℕ} (hpower : powerOf2 count = true)
    (hlimit : count ≤ rteRingSzMask) :
    count = 0 ∨ ∃ exponent ≤ 27, count = 2 ^ exponent := by
  by_cases hzero : count = 0
  · exact Or.inl hzero
  · have hand : count &&& (count - 1) = 0 := by
      rw [Nat.and_comm]
      simpa [powerOf2] using hpower
    obtain ⟨exponent, rfl⟩ := (Nat.and_sub_one_eq_zero_iff_isPowerOfTwo hzero).mp hand
    refine Or.inr ⟨exponent, ?_, rfl⟩
    by_contra hlarge
    have hpow := Nat.pow_le_pow_right (show 0 < 2 by decide) (show 28 ≤ exponent by omega)
    simp only [rteRingSzMask] at hlimit
    omega

/-- A ring is made in memory that has been allocated, and its size is zero or a power of two. -/
theorem sizes_of_createRwRing {data : Option (ℕ → Option Object)} {count : ℕ}
    {ring : RwRing Object} (hring : createRwRing data count = some ring) :
    ∃ objs, data = some objs ∧ (count = 0 ∨ ∃ exponent ≤ 27, count = 2 ^ exponent) := by
  obtain ⟨objs, rfl⟩ : ∃ objs, data = some objs := by
    cases data with
    | none => simp [createRwRing] at hring
    | some objs => exact ⟨objs, rfl⟩
  have hcount : powerOf2 count = true ∧ count ≤ rteRingSzMask := by
    simp only [createRwRing] at hring
    split_ifs at hring with hinvalid
    simpa using hinvalid
  exact ⟨objs, rfl, powerOf2_cases hcount.1 hcount.2⟩

/-- A new ring of positive size satisfies the invariant with both counters at zero. -/
theorem tracks_start {objs : ℕ → Option Object} {exponent : ℕ} (hle : exponent ≤ 27)
    {ring : RwRing Object} (hring : createRwRing (some objs) (2 ^ exponent) = some ring) :
    Tracks (RingRun.start ring) exponent 0 0 := by
  have hsize : 2 ^ exponent < 2 ^ 32 := Nat.pow_lt_pow_right (by decide) (by omega)
  have hpos := Nat.two_pow_pos exponent
  simp only [createRwRing] at hring
  split_ifs at hring
  cases hring
  refine
    { exponent_le := hle, size_eq := rfl, mask_eq := ?_, prod_eq := rfl, cons_eq := rfl
      consumed_le := le_rfl, produced_le := by omega, producer := rfl, consumer := rfl
      obtained_eq := rfl, slots := fun indx _ hlt ↦ by simp [written, RingRun.start] at hlt }
  simp only [RingRun.start]
  rw [BitVec.toNat_sub_of_le, BitVec.toNat_ofNat, Nat.mod_eq_of_lt hsize]
  · rfl
  · rw [BitVec.le_def, BitVec.toNat_ofNat, Nat.mod_eq_of_lt hsize]
    exact hpos

/-- A ring of size zero is full and empty at once, so no thread ever gets past its index test. -/
structure Closed (s : RingRun Object) : Prop where
  full : rwRingFreeEntries s.ring = 0
  empty : rwRingEntries s.ring = 0
  producer : s.producer = .idle
  consumer : s.consumer = .idle
  obtained : s.obtained = []

/-- No step changes a run on a ring of size zero. -/
theorem Closed.step {s next : RingRun Object} (h : Closed s) {event : RingEvent Object}
    (htaken : ringStep s event = some next) : Closed next := by
  cases event <;> simp [ringStep, h.producer, h.consumer, h.full, h.empty] at htaken <;>
    exact htaken ▸ h

/-- Along every run in which the threads never meet on one slot, the objects the consumer obtains
are a prefix of the objects for which enqueue returned or will return true. Assumes: a ring made
by `createRwRing`, and the guard `slotsExclusive` at every step. -/
theorem obtained_prefix_accepted {data : Option (ℕ → Option Object)} {count : ℕ}
    {ring : RwRing Object} (hring : createRwRing data count = some ring) {s : RingRun Object}
    (hrun : Run ringStep slotsExclusive (RingRun.start ring) s) : s.obtained <+: s.accepted := by
  obtain ⟨objs, rfl, rfl | ⟨exponent, hle, rfl⟩⟩ := sizes_of_createRwRing hring
  · have hclosed : Closed s := by
      refine hrun.invariant ?_ fun _ _ _ h _ htaken ↦ h.step htaken
      cases hring
      constructor <;> simp [rwRingFreeEntries, rwRingEntries, RingRun.start]
    rw [hclosed.obtained]
    exact List.nil_prefix
  · have hstart : Tracked exponent (RingRun.start ring) := ⟨0, 0, tracks_start hle hring⟩
    obtain ⟨produced, consumed, h⟩ : Tracked exponent s :=
      hrun.invariant hstart fun _ _ _ h hexclusive htaken ↦ h.step hexclusive htaken
    rw [h.obtained_eq]
    exact List.take_prefix _ _

/-- A work ring of the size `Configs::init` gives those of the packet groups, its slots null. -/
def workRing : RwRing ℕ :=
  { size := 2, mask := 1, consIndx := 0, prodIndx := 0, objs := fun _ ↦ none }

/-- Three enqueues and three dequeues, each dequeue run right after its enqueue. -/
def alternation : List (RingEvent ℕ) :=
  [1, 2, 3].flatMap fun obj ↦
    [.enqueueTest obj, .enqueueClaim, .enqueueStore, .dequeueTest, .dequeueClaim, .dequeueLoad]

/-- The alternation keeps the threads apart and delivers its three objects across the wrap of a
ring of two slots. -/
theorem obtained_prefix_accepted_alternation :
    ∃ s, Run ringStep slotsExclusive (RingRun.start workRing) s ∧ s.obtained = [1, 2, 3] ∧
      s.obtained <+: s.accepted := by
  obtain ⟨s, hexecute, hobtained⟩ : ∃ s, execute ringStep slotsExclusive (RingRun.start workRing)
      alternation = some s ∧ s.obtained = [1, 2, 3] := ⟨_, rfl, rfl⟩
  have hrun := run_of_execute hexecute
  have hring : createRwRing (some fun _ ↦ none) 2 = some workRing := rfl
  exact ⟨s, hrun, hobtained, obtained_prefix_accepted hring hrun⟩

/-- The third dequeue runs between the post-increment and the write of the third enqueue. -/
def overtaking : List (RingEvent ℕ) :=
  ([1, 2].flatMap fun obj ↦
    [.enqueueTest obj, .enqueueClaim, .enqueueStore, .dequeueTest, .dequeueClaim, .dequeueLoad]) ++
  [.enqueueTest 3, .enqueueClaim, .dequeueTest, .dequeueClaim, .dequeueLoad]

/-- Without the guard the consumer obtains the first object a second time, from the slot that the
third enqueue has claimed and not yet written. -/
theorem not_obtained_prefix_accepted :
    ¬ ∀ s, Reachable ringStep (RingRun.start workRing) s → s.obtained <+: s.accepted := by
  intro hclaim
  obtain ⟨s, hexecute, hobtained, haccepted⟩ : ∃ s, execute ringStep anyEvent
      (RingRun.start workRing) overtaking = some s ∧ s.obtained = [1, 2, 1] ∧
      s.accepted = [1, 2, 3] := ⟨_, rfl, rfl, rfl⟩
  have hstarts := hclaim s (run_of_execute hexecute)
  rw [hobtained, haccepted] at hstarts
  exact absurd hstarts (by decide)

end CppLearn.RecvEngine.WorkRing
