import CppLearn.RecvEngine.BucketOwnership

/-!
# Chunks handed over

`parquet_mem_flush_to_dfs` puts a chunk into the work ring and reads its length afterwards, while the
store writer may already have taken, written and deleted it. Here chunks are objects with an
address, the ring passes addresses, and the last statement of the function is a step of its own.
Every read is logged with what it found.

The reads find their chunks exactly in the runs in which the store writer never empties the ring and
deletes what it took while that statement is still to come (`readsExist_iff`). In those runs the
mem writer is the one of `memStep` (`reachable_writer`).
-/

set_option autoImplicit false
set_option relaxedAutoImplicit false

namespace CppLearn.RecvEngine.ChunkHandover

open Foundation.GuardedRun
open BucketOwnership MemParquetWriter PacketDefine PacketReceiver RingQueue WorkRing

/-! ### The two threads -/

/-- Where the store writer stands in its loop: at `read_parquet_mem_work`, with a chunk it has read,
or with one it is about to delete. -/
inductive StoreThread
  | reading
  | holding (address : ℕ)
  | consumed (address : ℕ)

/-- The chunk that the store writer has. -/
def StoreThread.address : StoreThread → Option ℕ
  | .reading => none
  | .holding address => some address
  | .consumed address => some address

variable {Group : Type*}

/-- The mem writer with its variable `parquet_chunk` and whether `write_parquet_mem_work` has
returned true for it, the work ring, the chunks that exist and the number of those made, the store
writer, and what the reads of chunks handed over have found. -/
structure ChunkRun (Group : Type*) where
  writer : MemWriter Group
  parquetChunk : ℕ
  accepted : Bool
  ring : RwRing ℕ
  chunks : ℕ → Option ParquetMemChunk
  allocated : ℕ
  storeWriter : StoreThread
  reads : List (Option ParquetMemChunk)

/-- Both threads before their first statement. -/
def ChunkRun.start (ring : RwRing ℕ) : ChunkRun Group :=
  { writer := .start
    parquetChunk := 0
    accepted := false
    ring := ring
    chunks := fun _ ↦ none
    allocated := 0
    storeWriter := .reading
    reads := [] }

/-- A step of the mem writer up to the enqueue, an attempt to enqueue, the statement after it with
what the memory of a deleted chunk holds, and the steps of the store writer. -/
inductive ChunkEvent (Group : Type*)
  | mem (event : MemEvent Group)
  | enqueue
  | addLength (stale : ℤ)
  | dequeue
  | consume
  | delete

/-- Whether a step is an attempt to enqueue a chunk. -/
def isEnqueue : MemEvent Group → Bool
  | .enqueue _ => true
  | _ => false

/-- A step of the mem writer; where it builds a chunk, `new` gives it the next address. -/
def memPart (s : ChunkRun Group) (w : MemWriter Group) : ChunkRun Group :=
  match builtChunk s.writer.pc, builtChunk w.pc with
  | none, some chunk =>
    { s with
      writer := w
      parquetChunk := s.allocated
      chunks := Function.update s.chunks s.allocated (some chunk)
      allocated := s.allocated + 1 }
  | _, _ => { s with writer := w }

/-- `already_flushed_size += parquet_chunk->length`, and the return. -/
def addLength (s : ChunkRun Group) (stale : ℤ) (chunk : ParquetMemChunk) (back : Back Group) :
    ChunkRun Group :=
  let found := s.chunks s.parquetChunk
  let length := (found.map ParquetMemChunk.length).getD stale
  { s with
    writer := { logChunk s.writer chunk with
      pc := back.pc
      alreadyFlushedSize := s.writer.alreadyFlushedSize + length }
    accepted := false
    reads := s.reads ++ [found] }

/-- One step of one thread. -/
def chunkStep (env : RecvEnv) (view : Group → PacketGroup) (s : ChunkRun Group) :
    ChunkEvent Group → Option (ChunkRun Group)
  | .mem event =>
    if isEnqueue event then none else (memStep env view s.writer event).map (memPart s)
  | .enqueue =>
    match s.writer.pc, s.accepted with
    | .enqueuing _ _, false =>
      match rwRingSpEnqueue s.ring s.parquetChunk with
      | (true, ring) => some { s with accepted := true, ring := ring }
      | (false, _) => some s
    | _, _ => none
  | .addLength stale =>
    match s.writer.pc, s.accepted with
    | .enqueuing chunk back, true => some (addLength s stale chunk back)
    | _, _ => none
  | .dequeue =>
    match s.storeWriter with
    | .reading =>
      match rwRingScDequeue s.ring with
      | (some address, ring) => some { s with storeWriter := .holding address, ring := ring }
      | (none, _) => some s
    | _ => none
  | .consume =>
    match s.storeWriter with
    | .holding address => some { s with storeWriter := .consumed address }
    | _ => none
  | .delete =>
    match s.storeWriter with
    | .consumed address =>
      some { s with
        chunks := Function.update s.chunks address none
        storeWriter := .reading }
    | _ => none

/-! ### What a step can do -/

/-- The steps of `chunkStep`, one constructor a branch. -/
inductive ChunkMove (env : RecvEnv) (view : Group → PacketGroup) (s : ChunkRun Group) :
    ChunkEvent Group → ChunkRun Group → Prop
  | mem (event : MemEvent Group) (w : MemWriter Group)
      (htaken : memStep env view s.writer event = some w)
      (hbuilt : builtChunk w.pc = builtChunk s.writer.pc) :
      ChunkMove env view s (.mem event) { s with writer := w }
  | build (event : MemEvent Group) (w : MemWriter Group) (chunk : ParquetMemChunk)
      (htaken : memStep env view s.writer event = some w)
      (hnone : builtChunk s.writer.pc = none) (hbuilt : builtChunk w.pc = some chunk) :
      ChunkMove env view s (.mem event)
        { s with
          writer := w
          parquetChunk := s.allocated
          chunks := Function.update s.chunks s.allocated (some chunk)
          allocated := s.allocated + 1 }
  | enqueue (chunk : ParquetMemChunk) (back : Back Group) (ring : RwRing ℕ)
      (hpc : s.writer.pc = .enqueuing chunk back) (hwaits : s.accepted = false)
      (henqueue : rwRingSpEnqueue s.ring s.parquetChunk = (true, ring)) :
      ChunkMove env view s .enqueue { s with accepted := true, ring := ring }
  | enqueueWait : ChunkMove env view s .enqueue s
  | addLength (stale : ℤ) (chunk : ParquetMemChunk) (back : Back Group)
      (hpc : s.writer.pc = .enqueuing chunk back) (haccepted : s.accepted = true) :
      ChunkMove env view s (.addLength stale) (addLength s stale chunk back)
  | dequeue (address : ℕ) (ring : RwRing ℕ) (hreading : s.storeWriter = .reading)
      (hdequeue : rwRingScDequeue s.ring = (some address, ring)) :
      ChunkMove env view s .dequeue { s with storeWriter := .holding address, ring := ring }
  | dequeueWait : ChunkMove env view s .dequeue s
  | consume (address : ℕ) (hholding : s.storeWriter = .holding address) :
      ChunkMove env view s .consume { s with storeWriter := .consumed address }
  | delete (address : ℕ) (hconsumed : s.storeWriter = .consumed address) :
      ChunkMove env view s .delete
        { s with
          chunks := Function.update s.chunks address none
          storeWriter := .reading }

variable {env : RecvEnv} {view : Group → PacketGroup} {s next : ChunkRun Group}

/-- A chunk that is built stays as it is until the enqueue. -/
theorem built_move {w w' : MemWriter Group} {event : MemEvent Group}
    (hmove : MemMove env view w event w') (hevent : isEnqueue event = false) :
    builtChunk w'.pc = builtChunk w.pc ∨ builtChunk w.pc = none := by
  cases hmove with
  | enqueue | enqueueWait => cases hevent
  | openWait | giveBackWait | timerTest | timerSet => exact .inl rfl
  | _ => exact .inr (by rw [‹w.pc = _›]; rfl)

/-- Every step is one of the moves. -/
theorem chunkStep_move {event : ChunkEvent Group} (htaken : chunkStep env view s event = some next) :
    ChunkMove env view s event next := by
  cases event with
  | mem event =>
    simp only [chunkStep] at htaken
    split_ifs at htaken with hevent
    obtain ⟨w, hmem, rfl⟩ := Option.map_eq_some_iff.mp htaken
    rcases built_move (memStep_move hmem) (Bool.eq_false_iff.mpr hevent) with hbuilt | hnone
    · have hpart : memPart s w = { s with writer := w } := by
        rw [memPart, hbuilt]
        cases builtChunk s.writer.pc <;> rfl
      rw [hpart]
      exact .mem event w hmem hbuilt
    · cases hsome : builtChunk w.pc with
      | none =>
        have hpart : memPart s w = { s with writer := w } := by rw [memPart, hnone, hsome]
        rw [hpart]
        exact .mem event w hmem (hsome.trans hnone.symm)
      | some chunk =>
        rw [memPart, hnone, hsome]
        exact .build event w chunk hmem hnone hsome
  | enqueue =>
    simp only [chunkStep] at htaken
    split at htaken
    · next chunk back hpc hwaits =>
      split at htaken
      · next ring henqueue =>
        cases htaken
        exact .enqueue chunk back ring hpc hwaits henqueue
      · cases htaken
        exact .enqueueWait
    · cases htaken
  | addLength stale =>
    simp only [chunkStep] at htaken
    split at htaken
    · next chunk back hpc haccepted =>
      cases htaken
      exact .addLength stale chunk back hpc haccepted
    · cases htaken
  | dequeue =>
    simp only [chunkStep] at htaken
    split at htaken
    · next hreading =>
      split at htaken
      · next address ring hdequeue =>
        cases htaken
        exact .dequeue address ring hreading hdequeue
      · cases htaken
        exact .dequeueWait
    · cases htaken
  | consume =>
    simp only [chunkStep] at htaken
    split at htaken
    · next address hholding =>
      cases htaken
      exact .consume address hholding
    · cases htaken
  | delete =>
    simp only [chunkStep] at htaken
    split at htaken
    · next address hconsumed =>
      cases htaken
      exact .delete address hconsumed
    · cases htaken

/-! ### Where the chunk handed over is -/

/-- The chunks with the store writer and in the ring, oldest first. -/
def pending (s : ChunkRun Group) : List ℕ :=
  s.storeWriter.address.toList ++ ringContents s.ring

/-- Between the enqueue and the last statement the chunk is the last one pending, or it has been
deleted as such. -/
def LastOrDeleted (s : ChunkRun Group) (chunk : ParquetMemChunk) : Prop :=
  (s.chunks s.parquetChunk = some chunk ∧ ∃ front, pending s = front ++ [s.parquetChunk]) ∨
    s.chunks s.parquetChunk = none ∧ pending s = []

/-- The invariant of the two threads. -/
structure Handing (s : ChunkRun Group) : Prop where
  queue : Queue s.ring (ringContents s.ring)
  below : ∀ address ∈ pending s, address < s.allocated
  nodup : (pending s).Nodup
  built : s.accepted = false → ∀ chunk, builtChunk s.writer.pc = some chunk →
    s.chunks s.parquetChunk = some chunk ∧ s.parquetChunk ∉ pending s ∧
      s.parquetChunk < s.allocated
  accepted : s.accepted = true →
    ∃ chunk, builtChunk s.writer.pc = some chunk ∧ LastOrDeleted s chunk

theorem handing_start {ring : RwRing ℕ} (hring : Queue ring []) :
    Handing (ChunkRun.start ring : ChunkRun Group) := by
  have hpending : pending (ChunkRun.start ring : ChunkRun Group) = [] := hring.ringContents_eq
  refine ⟨hring.ringContents_eq.symm ▸ hring, ?_, ?_, fun _ _ hbuilt ↦ (nomatch hbuilt),
    fun haccepted ↦ (nomatch haccepted)⟩
  · rw [hpending]
    exact fun _ haddress ↦ (List.not_mem_nil haddress).elim
  · rw [hpending]
    exact List.nodup_nil

/-- A deletion takes the first of the pending chunks. -/
theorem pending_delete {address : ℕ} (hconsumed : s.storeWriter = .consumed address) :
    pending s = address :: pending { s with
      chunks := Function.update s.chunks address none
      storeWriter := .reading } := by
  rw [pending, hconsumed]
  rfl

/-- The chunk that is handed over is deleted exactly when it is the only one pending. -/
theorem LastOrDeleted.delete {chunk : ParquetMemChunk} (h : LastOrDeleted s chunk)
    (hnodup : (pending s).Nodup) {address : ℕ} (hconsumed : s.storeWriter = .consumed address) :
    LastOrDeleted { s with
      chunks := Function.update s.chunks address none
      storeWriter := .reading } chunk := by
  have hpending := pending_delete hconsumed
  rcases h with ⟨hchunk, front, hfront⟩ | ⟨-, hnil⟩
  · rw [hpending] at hfront hnodup
    cases front with
    | nil =>
      obtain ⟨haddress, hrest⟩ := List.cons.inj hfront
      refine .inr ⟨?_, hrest⟩
      show Function.update s.chunks address none s.parquetChunk = none
      rw [haddress, Function.update_self]
    | cons first front =>
      obtain ⟨-, hrest⟩ := List.cons.inj hfront
      refine .inl ⟨?_, front, hrest⟩
      have hmem : s.parquetChunk ∈ front ++ [s.parquetChunk] :=
        List.mem_append_right _ (List.mem_singleton.mpr rfl)
      have hne : s.parquetChunk ≠ address := by
        intro heq
        rw [hrest, ← heq] at hnodup
        exact (List.nodup_cons.mp hnodup).1 hmem
      show Function.update s.chunks address none s.parquetChunk = some chunk
      rw [Function.update_of_ne hne, hchunk]
  · rw [hnil] at hpending
    cases hpending

/-- The invariant is about the chunk of the writer and the chunks pending alone. -/
theorem Handing.congr (h : Handing s) (hqueue : Queue next.ring (ringContents next.ring))
    (hpending : pending next = pending s)
    (hbuilt : builtChunk next.writer.pc = builtChunk s.writer.pc) (hchunks : next.chunks = s.chunks)
    (hparquetChunk : next.parquetChunk = s.parquetChunk) (hallocated : next.allocated = s.allocated)
    (haccepted : next.accepted = s.accepted) : Handing next where
  queue := hqueue
  below := by
    rw [hpending, hallocated]
    exact h.below
  nodup := by
    rw [hpending]
    exact h.nodup
  built := by
    rw [hpending, hbuilt, hchunks, hparquetChunk, hallocated, haccepted]
    exact h.built
  accepted := by
    simp only [LastOrDeleted, hpending, hbuilt, hchunks, hparquetChunk, haccepted]
    exact h.accepted

/-- Every step keeps the invariant. -/
theorem Handing.step {event : ChunkEvent Group} (h : Handing s)
    (hmove : ChunkMove env view s event next) : Handing next := by
  cases hmove with
  | enqueueWait | dequeueWait => exact h
  | mem event w htaken hbuilt => exact h.congr h.queue rfl hbuilt rfl rfl rfl rfl
  | build event w chunk htaken hnone hbuilt =>
    refine ⟨h.queue, fun address haddress ↦ (h.below address haddress).trans (Nat.lt_succ_self _),
      h.nodup, fun _ other hother ↦ ?_, fun haccepted ↦ ?_⟩
    · obtain rfl := Option.some.inj (hbuilt.symm.trans hother)
      refine ⟨Function.update_self .., fun hmem ↦ ?_, Nat.lt_succ_self _⟩
      exact (h.below _ hmem).false
    · obtain ⟨_, hchunk, -⟩ := h.accepted haccepted
      exact nomatch hnone.symm.trans hchunk
  | enqueue chunk back ring hpc hwaits henqueue =>
    have hbuilt : builtChunk s.writer.pc = some chunk := by rw [hpc]; rfl
    obtain ⟨hchunk, hfresh, hlt⟩ := h.built hwaits chunk hbuilt
    have hqueue := h.queue.enqueue henqueue
    have hpending : pending { s with accepted := true, ring := ring } =
        pending s ++ [s.parquetChunk] := by
      rw [pending, pending, hqueue.ringContents_eq, List.append_assoc]
    refine ⟨hqueue.ringContents_eq.symm ▸ hqueue, ?_, ?_, fun hwaits' ↦ (nomatch hwaits'),
      fun _ ↦ ⟨chunk, hbuilt, .inl ⟨hchunk, pending s, hpending⟩⟩⟩
    · rw [hpending]
      intro address haddress
      rcases List.mem_append.mp haddress with haddress | haddress
      · exact h.below address haddress
      · rw [List.mem_singleton.mp haddress]
        exact hlt
    · rw [hpending]
      exact List.nodup_append.mpr ⟨h.nodup, List.nodup_singleton _, fun address haddress _ hlast ↦
        List.mem_singleton.mp hlast ▸ fun heq ↦ hfresh (heq ▸ haddress)⟩
  | addLength stale chunk back hpc haccepted =>
    refine ⟨h.queue, h.below, h.nodup, fun _ other hother ↦ ?_, fun haccepted' ↦ (nomatch haccepted')⟩
    cases back <;> cases hother
  | dequeue address ring hreading hdequeue =>
    obtain ⟨rest, hcontents, hqueue⟩ := h.queue.dequeue hdequeue
    have hpending : pending { s with storeWriter := .holding address, ring := ring } = pending s := by
      rw [pending, pending, hreading, hcontents, hqueue.ringContents_eq]
      rfl
    exact h.congr (hqueue.ringContents_eq.symm ▸ hqueue) hpending rfl rfl rfl rfl rfl
  | consume address hholding =>
    have hpending : pending { s with storeWriter := .consumed address } = pending s := by
      rw [pending, pending, hholding]
      rfl
    exact h.congr h.queue hpending rfl rfl rfl rfl rfl
  | delete address hconsumed =>
    have hpending := pending_delete hconsumed
    have hbelow := h.below
    have hnodup := h.nodup
    rw [hpending] at hbelow hnodup
    refine ⟨h.queue, fun other hother ↦ hbelow other (List.mem_cons_of_mem _ hother),
      (List.nodup_cons.mp hnodup).2, fun hwaits chunk hchunk ↦ ?_, fun haccepted ↦ ?_⟩
    · obtain ⟨hsome, hfresh, hlt⟩ := h.built hwaits chunk hchunk
      rw [hpending] at hfresh
      obtain ⟨hne, hfresh⟩ := not_or.mp (mt List.mem_cons.mpr hfresh)
      exact ⟨(Function.update_of_ne hne ..).trans hsome, hfresh, hlt⟩
    · obtain ⟨chunk, hchunk, hlast⟩ := h.accepted haccepted
      exact ⟨chunk, hchunk, hlast.delete h.nodup hconsumed⟩

/-! ### Reads of chunks handed over -/

/-- Every read of a chunk handed over has found it, and the one to come will. -/
structure ReadsExist (s : ChunkRun Group) : Prop where
  found : ∀ read ∈ s.reads, read.isSome = true
  next : s.accepted = true → (s.chunks s.parquetChunk).isSome = true

/-- The store writer does not delete a chunk with the ring empty while the mem writer, whose enqueue
has been accepted, has still to read the length. -/
def KeepsOff (s : ChunkRun Group) : ChunkEvent Group → Prop
  | .delete => ¬ (s.accepted = true ∧ rwRingEntries s.ring = 0)
  | _ => True

instance (s : ChunkRun Group) : (event : ChunkEvent Group) → Decidable (KeepsOff s event)
  | .delete => inferInstanceAs (Decidable (¬ (s.accepted = true ∧ rwRingEntries s.ring = 0)))
  | .mem _ | .enqueue | .addLength _ | .dequeue | .consume => .isTrue trivial

/-- A deletion leaves the chunk that is still to be read exactly if it keeps off. -/
theorem delete_iff (h : Handing s) (haccepted : s.accepted = true) {address : ℕ}
    (hconsumed : s.storeWriter = .consumed address) :
    (Function.update s.chunks address none s.parquetChunk).isSome = true ↔
      (s.chunks s.parquetChunk).isSome = true ∧ rwRingEntries s.ring ≠ 0 := by
  obtain ⟨chunk, -, hlast⟩ := h.accepted haccepted
  have hpending := pending_delete hconsumed
  rw [Ne, h.queue.entries_eq_zero_iff]
  rcases hlast with ⟨hchunk, front, hfront⟩ | ⟨-, hnil⟩
  · have hdeleted := LastOrDeleted.delete (.inl ⟨hchunk, front, hfront⟩) h.nodup hconsumed
    rw [hchunk]
    rcases hdeleted with ⟨hstill, front', hfront'⟩ | ⟨hgone, hempty⟩
    · have hstill' : Function.update s.chunks address none s.parquetChunk = some chunk := hstill
      have hcontents : ringContents s.ring = front' ++ [s.parquetChunk] := hfront'
      rw [hstill', hcontents]
      simp
    · have hgone' : Function.update s.chunks address none s.parquetChunk = none := hgone
      have hcontents : ringContents s.ring = [] := hempty
      rw [hgone', hcontents]
      simp
  · rw [hnil] at hpending
    cases hpending

/-- A step keeps the reads sound exactly if it keeps off. -/
theorem readsExist_step {event : ChunkEvent Group} (h : Handing s)
    (htaken : chunkStep env view s event = some next) :
    ReadsExist next ↔ ReadsExist s ∧ KeepsOff s event := by
  cases chunkStep_move htaken with
  | enqueueWait | dequeueWait => exact ⟨fun hreads ↦ ⟨hreads, trivial⟩, And.left⟩
  | mem | dequeue | consume =>
    exact ⟨fun hreads ↦ ⟨⟨hreads.found, hreads.next⟩, trivial⟩,
      fun hreads ↦ ⟨hreads.1.found, hreads.1.next⟩⟩
  | build event w chunk _ hnone =>
    have hwaits : s.accepted = false := by
      refine Bool.eq_false_iff.mpr fun haccepted ↦ ?_
      obtain ⟨_, hchunk, -⟩ := h.accepted haccepted
      exact nomatch hnone.symm.trans hchunk
    have hnone' {state : ChunkRun Group} (hstate : state.accepted = false) :
        state.accepted = true → (state.chunks state.parquetChunk).isSome = true := fun haccepted ↦
      (Bool.false_ne_true (hstate.symm.trans haccepted)).elim
    exact ⟨fun hreads ↦ ⟨⟨hreads.found, hnone' hwaits⟩, trivial⟩,
      fun hreads ↦ ⟨hreads.1.found, hnone' hwaits⟩⟩
  | enqueue chunk back ring hpc hwaits henqueue =>
    have hbuilt : builtChunk s.writer.pc = some chunk := by rw [hpc]; rfl
    have hchunk := (h.built hwaits chunk hbuilt).1
    refine ⟨fun hreads ↦ ⟨⟨hreads.found, fun haccepted ↦ ?_⟩, trivial⟩,
      fun hreads ↦ ⟨hreads.1.found, fun _ ↦ Option.isSome_of_eq_some hchunk⟩⟩
    exact (Bool.false_ne_true (hwaits.symm.trans haccepted)).elim
  | addLength stale chunk back hpc haccepted =>
    constructor
    · intro hreads
      refine ⟨⟨fun read hread ↦ hreads.found read (List.mem_append_left _ hread), fun _ ↦ ?_⟩, trivial⟩
      exact hreads.found _ (List.mem_append_right _ (List.mem_singleton.mpr rfl))
    · rintro ⟨hreads, -⟩
      refine ⟨fun read hread ↦ ?_, fun haccepted' ↦ (nomatch haccepted')⟩
      rcases List.mem_append.mp hread with hread | hread
      · exact hreads.found read hread
      · rw [List.mem_singleton.mp hread]
        exact hreads.next haccepted
  | delete address hconsumed =>
    constructor
    · intro hreads
      refine ⟨⟨hreads.found, fun haccepted ↦ ?_⟩, fun ⟨haccepted, hempty⟩ ↦ ?_⟩
      · exact ((delete_iff h haccepted hconsumed).mp (hreads.next haccepted)).1
      · exact ((delete_iff h haccepted hconsumed).mp (hreads.next haccepted)).2 hempty
    · rintro ⟨hreads, hkeeps⟩
      refine ⟨hreads.found, fun haccepted ↦ (delete_iff h haccepted hconsumed).mpr ?_⟩
      exact ⟨hreads.next haccepted, fun hempty ↦ hkeeps ⟨haccepted, hempty⟩⟩

section Runs

variable {data : Option (ℕ → Option ℕ)} {ring : RwRing ℕ}

theorem handing_of_reachable (hring : createRwRing data parquetFileChunkCount = some ring)
    (hrun : Reachable (chunkStep env view) (.start ring) s) : Handing s := by
  refine hrun.invariant (handing_start ?_) fun _ _ _ h _ htaken ↦ h.step (chunkStep_move htaken)
  exact @queue_create _ _ _ 2 (by omega) hring

/-- In a run of the two threads the mem writer reads chunks that exist exactly if the store writer
keeps off in all its steps. Assumes: a work ring made by `createRwRing`. -/
theorem readsExist_iff (hring : createRwRing data parquetFileChunkCount = some ring)
    (hrun : Reachable (chunkStep env view) (.start ring) s) :
    ReadsExist s ↔ Run (chunkStep env view) KeepsOff (.start ring) s := by
  have hstart : ReadsExist (ChunkRun.start ring : ChunkRun Group) :=
    ⟨fun _ hread ↦ (List.not_mem_nil hread).elim, fun haccepted ↦ (nomatch haccepted)⟩
  exact run_iff (fun _ hstate ↦ handing_of_reachable hring hstate) hstart
    (fun _ _ _ h htaken ↦ readsExist_step h htaken) hrun

/-- A step whose read finds its chunk is a step of the mem writer, or leaves it as it is. -/
theorem writer_step (h : Handing s) {event : ChunkEvent Group}
    (htaken : chunkStep env view s event = some next) (hreads : ReadsExist s) :
    next.writer = s.writer ∨ ∃ memEvent, memStep env view s.writer memEvent = some next.writer := by
  cases chunkStep_move htaken with
  | mem event w hmem | build event w chunk hmem => exact .inr ⟨event, hmem⟩
  | enqueue | enqueueWait | dequeue | dequeueWait | consume | delete => exact .inl rfl
  | addLength stale chunk back hpc haccepted =>
    obtain ⟨built, hbuilt, ⟨hchunk, -⟩ | ⟨hgone, -⟩⟩ := h.accepted haccepted
    · obtain rfl : chunk = built := by
        rw [hpc] at hbuilt
        exact Option.some.inj hbuilt
      refine .inr ⟨.enqueue true, ?_⟩
      simp only [memStep, hpc, addLength, hchunk, if_true]
      rfl
    · have hexists := hreads.next haccepted
      rw [hgone] at hexists
      cases hexists

/-- In a run in which the store writer keeps off the mem writer is one of `memStep`. -/
theorem reachable_writer (hring : createRwRing data parquetFileChunkCount = some ring)
    (hrun : Run (chunkStep env view) KeepsOff (.start ring) s) :
    Reachable (memStep env view) .start s.writer := by
  have hany {state : ChunkRun Group} (hstate : Run (chunkStep env view) KeepsOff (.start ring) state) :
      Reachable (chunkStep env view) (.start ring) state := hstate.mono fun _ _ _ ↦ trivial
  induction hrun with
  | refl => exact .refl
  | tail event run _ htaken ih =>
    have hhanding := handing_of_reachable hring (hany run)
    have hreads := (readsExist_iff hring (hany run)).mpr run
    rcases writer_step hhanding htaken hreads with hsame | ⟨memEvent, hmem⟩
    · rw [hsame]
      exact ih
    · exact .tail memEvent ih trivial hmem

end Runs

/-- The work ring of chunks that `init` creates, of addresses. -/
def addressRing : RwRing ℕ :=
  { size := 4
    mask := 3
    consIndx := 0
    prodIndx := 0
    objs := fun _ ↦ none }

/-- A group is written, and the first 512 MB of its file are handed over. -/
def firstChunk : List (ChunkEvent PacketGroup) :=
  [.mem (.read (some { exampleGroup with addRows := 1 })), .mem (.testDay exampleTm),
    .mem (.openFile (some 3) 4), .mem (.write 600000000), .mem (.giveBack true), .mem .run,
    .mem .run, .mem .run, .enqueue]

/-- The mem writer is at the end of the function before the store writer deletes the chunk. -/
theorem readsExist_slowStoreWriter :
    ∃ s : ChunkRun PacketGroup, s.reads.length = 1 ∧ s.storeWriter = .reading ∧ ReadsExist s := by
  obtain ⟨s, hexecute, hlength, hstore⟩ : ∃ s, execute (chunkStep exampleEnv id) KeepsOff
      (.start addressRing) (firstChunk ++ [.dequeue, .consume, .addLength 0, .delete]) = some s ∧
        s.reads.length = 1 ∧ s.storeWriter = .reading := ⟨_, rfl, rfl, rfl⟩
  have hring : createRwRing (some fun _ ↦ none) parquetFileChunkCount = some addressRing := rfl
  have hrun := run_of_execute hexecute
  exact ⟨s, hlength, hstore, (readsExist_iff hring (hrun.mono fun _ _ _ ↦ trivial)).mpr hrun⟩

/-- Where the store writer is faster the length is read from a chunk that has been deleted. -/
theorem not_readsExist_fastStoreWriter :
    ¬ ∀ s : ChunkRun PacketGroup, Reachable (chunkStep exampleEnv id) (.start addressRing) s →
      ∀ read ∈ s.reads, read.isSome = true := by
  intro hsound
  obtain ⟨s, hexecute, hreads⟩ : ∃ s, execute (chunkStep exampleEnv id) anyEvent
      (.start addressRing) (firstChunk ++ [.dequeue, .consume, .delete, .addLength 0]) = some s ∧
        s.reads = [none] := ⟨_, rfl, rfl⟩
  have hfound := hsound s (run_of_execute hexecute) none (by rw [hreads]; exact List.mem_singleton.mpr rfl)
  cases hfound

end CppLearn.RecvEngine.ChunkHandover
