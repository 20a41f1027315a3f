import CppLearn.Foundation.SharedPlaces
import CppLearn.RecvEngine.MemParquetWriter
import CppLearn.RecvEngine.RingQueue

/-!
# The buckets of parquet files

A parquet file is written into a bucket of a shared pool. Its chunks point into the bucket and wait
in a work ring for the thread that writes them to the store. Only the last of them owns the bucket,
which goes back to the pool when that chunk is deleted. `bucketStep` interleaves the mem writers and
the store writers of all rings; the operations of the rings are single steps. A mem writer adds up the
lengths of its chunks in a step after the one that hands a chunk over, so that it may read that length
when the chunk is gone; nothing here depends on what it reads.

`Accounted` is the invariant: every bucket is in one place, and of the chunks pending between a mem
writer and its store writer each points into a bucket that a later chunk, the chunk itself or the
sink owns (`Backed`). So a bucket in the pool has no chunk pointing into it (`buckets_accounted`).
-/

set_option autoImplicit false
set_option relaxedAutoImplicit false

namespace CppLearn.RecvEngine.BucketOwnership

open Foundation.GuardedRun Foundation.SharedPlaces
open MemParquetWriter PacketDefine PacketReceiver RingQueue WorkRing

/-! ### The threads of all rings -/

/-- `PARQUET_MEM_WORK_RING_COUNT`. -/
def parquetMemWorkRingCount : ℕ := packetGroupWorkRingCount

/-- `PARQUET_FILE_CHUNK_COUNT`, the size of a work ring of chunks. -/
def parquetFileChunkCount : ℕ :=
  workRingCacheCount * (maxParquetFileSize / parquetFileChunkSize).toNat

/-- `PARQUET_MEM_COUNT`, the number of buckets. -/
def parquetMemCount : ℕ := workRingCacheCount * parquetMemWorkRingCount

/-- Where a store writer stands in its loop: at `read_parquet_mem_work`, with a chunk it has read,
or with one it has written or skipped and is about to delete. -/
inductive StoreWriter
  | reading
  | holding (chunk : ParquetMemChunk)
  | consumed (chunk : ParquetMemChunk)

/-- The chunk that a store writer has. -/
def StoreWriter.chunk : StoreWriter → Option ParquetMemChunk
  | .reading => none
  | .holding chunk => some chunk
  | .consumed chunk => some chunk

variable {Group : Type*}

/-- The resource ring of the buckets, the threads and work rings by their number, whether
`write_parquet_mem_work` has returned true for the chunk of a mem writer, and the buckets in which files
have been opened and those given back, in order. -/
structure BucketRun (Group : Type*) where
  pool : List ℕ
  memWriters : ℕ → MemWriter Group
  accepted : ℕ → Bool
  parquetMemWorkRing : ℕ → RwRing ParquetMemChunk
  storeWriters : ℕ → StoreWriter
  opened : List ℕ
  returned : List ℕ

/-- After `Configs::init`, before any thread has run. -/
def BucketRun.start (rings : ℕ → RwRing ParquetMemChunk) : BucketRun Group :=
  { pool := List.range parquetMemCount
    memWriters := fun _ ↦ .start
    accepted := fun _ ↦ false
    parquetMemWorkRing := rings
    storeWriters := fun _ ↦ .reading
    opened := []
    returned := [] }

/-- A step of a mem writer other than the two that meet the rings here, those two, the statement after
the second, and the steps of a store writer. The length that this statement reads is that of a chunk
that the store writer may have deleted. -/
inductive BucketEvent (Group : Type*)
  | mem (id : ℕ) (event : MemEvent Group)
  | openFile (id advance : ℕ)
  | enqueue (id : ℕ)
  | addLength (id : ℕ) (length : ℤ)
  | dequeue (id : ℕ)
  | consume (id : ℕ)
  | delete (id : ℕ)

/-- The thread that takes the step. -/
def BucketEvent.id : BucketEvent Group → ℕ
  | .mem id _ => id
  | .openFile id _ => id
  | .enqueue id => id
  | .addLength id _ => id
  | .dequeue id => id
  | .consume id => id
  | .delete id => id

/-- A mem writer that opens a file: `Allocate` takes a bucket from the pool, and the sink that is
replaced gives back the one it still has. -/
def openStep (env : RecvEnv) (view : Group → PacketGroup) (s : BucketRun Group) (id advance : ℕ) :
    Option (BucketRun Group) :=
  let (found, pool) := mrmwRingScDequeue s.pool
  let left := if found.isSome then (s.memWriters id).sink.buffer.toList else []
  (memStep env view (s.memWriters id) (.openFile found advance)).map fun w ↦
    { s with
      pool := pool ++ left
      memWriters := Function.update s.memWriters id w
      opened := s.opened ++ found.toList
      returned := s.returned ++ left }

/-- One attempt of a mem writer to enqueue a chunk. -/
def enqueueStep (s : BucketRun Group) (id : ℕ) : Option (BucketRun Group) :=
  match (s.memWriters id).pc, s.accepted id with
  | .enqueuing chunk _, false =>
    match rwRingSpEnqueue (s.parquetMemWorkRing id) chunk with
    | (true, ring) =>
      some { s with
        accepted := Function.update s.accepted id true
        parquetMemWorkRing := Function.update s.parquetMemWorkRing id ring }
    | (false, _) => some s
  | _, _ => none

/-- `already_flushed_size += parquet_chunk->length`, and the return. -/
def addLengthStep (s : BucketRun Group) (id : ℕ) (length : ℤ) : Option (BucketRun Group) :=
  let w := s.memWriters id
  match w.pc, s.accepted id with
  | .enqueuing chunk back, true =>
    some { s with
      accepted := Function.update s.accepted id false
      memWriters := Function.update s.memWriters id { logChunk w chunk with
        pc := back.pc
        alreadyFlushedSize := w.alreadyFlushedSize + length } }
  | _, _ => none

/-- `delete parquet_chunk`: `RingPool::Free` puts the bucket that the chunk owns into the pool, and
tries again where the pool is full. -/
def deleteStep (s : BucketRun Group) (id : ℕ) : Option (BucketRun Group) :=
  match s.storeWriters id with
  | .consumed chunk =>
    match chunk.buffer with
    | none => some { s with storeWriters := Function.update s.storeWriters id .reading }
    | some bucket =>
      match mrmwRingSpEnqueue parquetMemCount s.pool bucket with
      | (true, pool) =>
        some { s with
          pool := pool
          storeWriters := Function.update s.storeWriters id .reading
          returned := s.returned ++ [bucket] }
      | (false, _) => some s
  | _ => none

/-- One step of one thread. -/
def bucketStep (env : RecvEnv) (view : Group → PacketGroup) (s : BucketRun Group)
    (event : BucketEvent Group) : Option (BucketRun Group) :=
  if event.id < parquetMemWorkRingCount then
    match event with
    | .mem id event =>
      if event.isLocal .chunks then
        (memStep env view (s.memWriters id) event).map fun w ↦
          { s with memWriters := Function.update s.memWriters id w }
      else none
    | .openFile id advance => openStep env view s id advance
    | .enqueue id => enqueueStep s id
    | .addLength id length => addLengthStep s id length
    | .dequeue id =>
      match s.storeWriters id with
      | .reading =>
        match rwRingScDequeue (s.parquetMemWorkRing id) with
        | (some chunk, ring) =>
          some { s with
            storeWriters := Function.update s.storeWriters id (.holding chunk)
            parquetMemWorkRing := Function.update s.parquetMemWorkRing id ring }
        | (none, _) => some s
      | _ => none
    | .consume id =>
      match s.storeWriters id with
      | .holding chunk =>
        some { s with storeWriters := Function.update s.storeWriters id (.consumed chunk) }
      | _ => none
    | .delete id => deleteStep s id
  else none

/-! ### The places of a bucket -/

/-- The chunk that a mem writer has built and is enqueuing. -/
def builtChunk : Pc Group → Option ParquetMemChunk
  | .enqueuing chunk _ => some chunk
  | _ => none

/-- The chunk that a mem writer has built and that is not in the ring yet. -/
def unqueued (s : BucketRun Group) (id : ℕ) : Option ParquetMemChunk :=
  if s.accepted id then none else builtChunk (s.memWriters id).pc

/-- The chunks of a ring that have been built and not yet deleted, oldest first. -/
def pendingChunks (s : BucketRun Group) (id : ℕ) : List ParquetMemChunk :=
  (s.storeWriters id).chunk.toList ++
    (ringContents (s.parquetMemWorkRing id) ++ (unqueued s id).toList)

/-- The buckets that some chunks and a sink own. -/
def owned (chunks : List ParquetMemChunk) (live : Option ℕ) : List ℕ :=
  chunks.filterMap ParquetMemChunk.buffer ++ live.toList

/-- The buckets with the threads of a ring: those that pending chunks own, which are the final ones
of their files, and the one of the live sink. -/
def heldBuckets (s : BucketRun Group) (id : ℕ) : List ℕ :=
  owned (pendingChunks s id) (s.memWriters id).sink.buffer

/-- All places where buckets are. -/
def bucketPlaces (s : BucketRun Group) : List ℕ :=
  places s.pool parquetMemWorkRingCount (heldBuckets s)

/-- A chunk owns its bucket if it is the last one of its file, and no bucket otherwise. -/
def OwnsIfFinal (chunk : ParquetMemChunk) : Prop :=
  chunk.buffer = if chunk.flag = 1 then some chunk.bucket else none

/-- Every chunk points into a bucket that it or a later chunk or the sink owns. -/
def Backed (live : Option ℕ) : List ParquetMemChunk → Prop
  | [] => True
  | chunk :: chunks =>
    (OwnsIfFinal chunk ∧ chunk.bucket ∈ owned (chunk :: chunks) live) ∧ Backed live chunks

/-- A chunk at the end of the queue may take over the bucket of the sink. -/
theorem owned_concat {chunks : List ParquetMemChunk} {chunk : ParquetMemChunk} {live live' : Option ℕ}
    (hlive : chunk.buffer.toList ++ live'.toList = live.toList) :
    owned (chunks ++ [chunk]) live' = owned chunks live := by
  have hbuffer : [chunk].filterMap ParquetMemChunk.buffer = chunk.buffer.toList := by
    cases hchunk : chunk.buffer <;> simp [hchunk]
  rw [owned, owned, List.filterMap_append, hbuffer, List.append_assoc, hlive]

theorem Backed.concat {chunks : List ParquetMemChunk} {chunk : ParquetMemChunk}
    {live live' : Option ℕ} (h : Backed live chunks) (hbucket : live = some chunk.bucket)
    (howns : OwnsIfFinal chunk) (hlive : chunk.buffer.toList ++ live'.toList = live.toList) :
    Backed live' (chunks ++ [chunk]) := by
  induction chunks with
  | nil =>
    refine ⟨⟨howns, ?_⟩, trivial⟩
    have hnil := @owned_concat [] _ _ _ hlive
    rw [List.nil_append] at hnil
    rw [hnil, hbucket]
    exact List.mem_singleton.mpr rfl
  | cons first chunks ih =>
    obtain ⟨⟨hfirst, hmem⟩, hrest⟩ := h
    refine ⟨⟨hfirst, ?_⟩, ih hrest⟩
    show first.bucket ∈ owned (first :: chunks ++ [chunk]) live'
    rw [owned_concat hlive]
    exact hmem

/-- A sink that gets a bucket keeps the chunks backed. -/
theorem Backed.openFile {chunks : List ParquetMemChunk} (h : Backed none chunks) (bucket : ℕ) :
    Backed (some bucket) chunks := by
  induction chunks with
  | nil => trivial
  | cons first chunks ih =>
    obtain ⟨⟨hfirst, hmem⟩, hrest⟩ := h
    refine ⟨⟨hfirst, ?_⟩, ih hrest⟩
    rw [owned, Option.toList_none, List.append_nil] at hmem
    exact List.mem_append_left _ hmem

theorem Backed.mem_owned {live : Option ℕ} {chunks : List ParquetMemChunk} (h : Backed live chunks)
    {chunk : ParquetMemChunk} (hchunk : chunk ∈ chunks) :
    OwnsIfFinal chunk ∧ chunk.bucket ∈ owned chunks live := by
  induction chunks with
  | nil => cases hchunk
  | cons first chunks ih =>
    obtain ⟨hfirst, hrest⟩ := h
    rcases List.mem_cons.mp hchunk with rfl | hchunk
    · exact hfirst
    · obtain ⟨howns, hlater⟩ := ih hrest hchunk
      refine ⟨howns, ?_⟩
      rw [owned, List.mem_append] at hlater ⊢
      refine hlater.imp_left fun hmem ↦ ?_
      rw [List.filterMap_cons]
      split
      · exact hmem
      · exact List.mem_cons_of_mem _ hmem

/-! ### What a step does to the buckets -/

/-- Outside a file, from the last chunk of one to the opening of the next, the sink has no bucket.
-/
def BufferKept (w : MemWriter Group) : Prop :=
  w.fileWriter = false → (∀ back, w.pc ≠ .closed back) → w.sink.buffer = none

section Moves

variable {env : RecvEnv} {view : Group → PacketGroup} {w next : MemWriter Group}

/-- The last chunk takes the bucket of the sink with it, so that none is left when the next file is
opened. -/
theorem BufferKept.step {event : MemEvent Group} (h : BufferKept w)
    (hmove : MemMove env view w event next) : BufferKept next := by
  have hopen : w.fileWriter = true → BufferKept { w with pc := next.pc } := fun hopen hclosed ↦
    (Bool.false_ne_true (hclosed.symm.trans hopen)).elim
  have hpcs : ∀ {pc : Pc Group}, w.pc = pc → (∀ back, pc ≠ .closed back) →
      w.fileWriter = false → w.sink.buffer = none := by
    rintro pc rfl hpc hclosed
    exact h hclosed hpc
  cases hmove with
  | openWait | giveBackWait | enqueueWait | timerTest | timerSet => exact h
  | goFlush stale hpc hfile => exact hopen hfile
  | dayChange stale group startTime endTime hpc hfile => exact hopen hfile
  | merge group startTime endTime hpc hfile => exact hopen hfile
  | openFile => exact fun hclosed ↦ (Bool.false_ne_true hclosed.symm).elim
  | close advance flag back => exact fun _ hpc ↦ (hpc back rfl).elim
  | buildFinal => exact fun _ _ ↦ rfl
  -- the other steps lead from a statement outside a file to another
  | _ => exact fun hclosed _ ↦ hpcs ‹w.pc = _› (by simp) hclosed

/-- A step of a mem writer by itself leaves the sink its bucket and the chunk built as it is, or
builds a chunk of that bucket, which then is with the sink or with the chunk. -/
theorem localMove {event : MemEvent Group} (hlocal : event.isLocal .chunks = true)
    (hmove : MemMove env view w event next) :
    (builtChunk next.pc = builtChunk w.pc ∧ next.sink.buffer = w.sink.buffer) ∨
      builtChunk w.pc = none ∧ ∃ chunk, builtChunk next.pc = some chunk ∧
        w.sink.buffer = some chunk.bucket ∧ OwnsIfFinal chunk ∧
        chunk.buffer.toList ++ next.sink.buffer.toList = w.sink.buffer.toList := by
  cases hmove with
  | openFile | openWait | enqueue | enqueueWait => cases hlocal
  | buildPartial bucket back hpc hbuffer =>
    refine Or.inr ⟨by rw [hpc]; rfl, _, rfl, hbuffer, rfl, rfl⟩
  | buildFinal bucket back hpc hbuffer =>
    refine Or.inr ⟨by rw [hpc]; rfl, _, rfl, hbuffer, rfl, ?_⟩
    rw [hbuffer]
    rfl
  | giveBackWait | timerTest | timerSet => exact Or.inl ⟨rfl, rfl⟩
  | _ => exact Or.inl ⟨by rw [‹w.pc = _›]; rfl, rfl⟩

/-- A file is opened where none is, and its sink has the bucket. -/
theorem openMove {bucket advance : ℕ}
    (hmove : MemMove env view w (.openFile (some bucket) advance) next) :
    w.fileWriter = false ∧ (∀ back, w.pc ≠ .closed back) ∧
      builtChunk next.pc = builtChunk w.pc ∧ next.sink.buffer = some bucket := by
  cases hmove with
  | openFile _ _ group startTime endTime hpc hclosed =>
    exact ⟨hclosed, by simp [hpc], by rw [hpc]; rfl, rfl⟩

end Moves

/-! ### The invariant of all threads -/

/-- The invariant: the work rings are queues, only a chunk that has been built is accepted, the pending chunks of every ring are backed, every
bucket is in one place, and the buckets opened and those in the pool are together the buckets given
back and the ones there were at first. -/
structure Accounted (s : BucketRun Group) : Prop where
  queue : ∀ id < parquetMemWorkRingCount, ∃ contents, Queue (s.parquetMemWorkRing id) contents
  kept : ∀ id, BufferKept (s.memWriters id)
  built : ∀ id, s.accepted id = true → ∃ chunk, builtChunk (s.memWriters id).pc = some chunk
  backed : ∀ id < parquetMemWorkRingCount,
    Backed (s.memWriters id).sink.buffer (pendingChunks s id)
  once : (bucketPlaces s).Perm (List.range parquetMemCount)
  uses : (s.opened ++ s.pool).Perm (s.returned ++ List.range parquetMemCount)

/-- The part of the state that belongs to the threads of a ring. -/
structure SameThreads (s next : BucketRun Group) (id : ℕ) : Prop where
  memWriter : next.memWriters id = s.memWriters id
  accepted : next.accepted id = s.accepted id
  ring : next.parquetMemWorkRing id = s.parquetMemWorkRing id
  storeWriter : next.storeWriters id = s.storeWriters id

theorem SameThreads.pendingChunks_eq {s next : BucketRun Group} {id : ℕ}
    (h : SameThreads s next id) : pendingChunks next id = pendingChunks s id := by
  rw [pendingChunks, pendingChunks, unqueued, unqueued, h.memWriter, h.accepted, h.ring, h.storeWriter]

/-- Assumes: a step that changes what belongs to one ring only. It keeps the invariant if it does so
for that ring, and the ring and the pool have the buckets they had before. -/
theorem Accounted.of_thread {s next : BucketRun Group} (h : Accounted s) {id : ℕ}
    (hid : id < parquetMemWorkRingCount) (hothers : ∀ other, other ≠ id → SameThreads s next other)
    (hqueue : ∃ contents, Queue (next.parquetMemWorkRing id) contents)
    (hkept : BufferKept (next.memWriters id))
    (hbuilt : next.accepted id = true → ∃ chunk, builtChunk (next.memWriters id).pc = some chunk)
    (hbacked : Backed (next.memWriters id).sink.buffer (pendingChunks next id))
    (hmoved : (next.pool ++ heldBuckets next id).Perm (s.pool ++ heldBuckets s id))
    (huses : (next.opened ++ next.pool).Perm (next.returned ++ List.range parquetMemCount)) :
    Accounted next := by
  refine ⟨fun other hother ↦ ?_, fun other ↦ ?_, fun other ↦ ?_, fun other hother ↦ ?_, ?_, huses⟩
  · by_cases heq : other = id
    · rw [heq]
      exact hqueue
    · rw [(hothers other heq).ring]
      exact h.queue other hother
  · by_cases heq : other = id
    · rw [heq]
      exact hkept
    · rw [(hothers other heq).memWriter]
      exact h.kept other
  · by_cases heq : other = id
    · rw [heq]
      exact hbuilt
    · rw [(hothers other heq).memWriter, (hothers other heq).accepted]
      exact h.built other
  · by_cases heq : other = id
    · rw [heq]
      exact hbacked
    · rw [(hothers other heq).memWriter, (hothers other heq).pendingChunks_eq]
      exact h.backed other hother
  · refine List.Perm.trans (perm_places hid (fun other hother ↦ ?_) hmoved) h.once
    rw [heldBuckets, heldBuckets, (hothers other hother).memWriter,
      (hothers other hother).pendingChunks_eq]

section Steps

variable {env : RecvEnv} {view : Group → PacketGroup} {s next : BucketRun Group} {id : ℕ}

theorem Accounted.accepted_eq_false (h : Accounted s) (hnone : builtChunk (s.memWriters id).pc = none) :
    s.accepted id = false := by
  refine Bool.eq_false_of_not_eq_true fun haccepted ↦ ?_
  obtain ⟨chunk, hchunk⟩ := h.built id haccepted
  cases hnone.symm.trans hchunk

/-- A step of a mem writer by itself. -/
theorem Accounted.mem (h : Accounted s) (hid : id < parquetMemWorkRingCount)
    {event : MemEvent Group} (hlocal : event.isLocal .chunks = true) {w : MemWriter Group}
    (htaken : memStep env view (s.memWriters id) event = some w) :
    Accounted { s with memWriters := Function.update s.memWriters id w } := by
  have hmove := memStep_move htaken
  set next : BucketRun Group := { s with memWriters := Function.update s.memWriters id w } with hnext
  have hwriter : next.memWriters id = w := Function.update_self ..
  have hpending : Backed w.sink.buffer (pendingChunks next id) ∧
      heldBuckets next id = heldBuckets s id := by
    rw [heldBuckets, heldBuckets, hwriter]
    rcases localMove hlocal hmove with
      ⟨hbuilt, hbuffer⟩ | ⟨hbuilt, chunk, hbuilt', hbucket, howns, hbuffer⟩
    · have hsame : pendingChunks next id = pendingChunks s id := by
        rw [pendingChunks, pendingChunks, unqueued, unqueued, hwriter, hbuilt]
      rw [hsame, hbuffer]
      exact ⟨h.backed id hid, rfl⟩
    · have hwaits : s.accepted id = false := h.accepted_eq_false hbuilt
      have hmore : pendingChunks next id = pendingChunks s id ++ [chunk] := by
        rw [pendingChunks, pendingChunks, unqueued, unqueued, hwriter, hbuilt, hbuilt', hnext, hwaits,
          if_neg Bool.false_ne_true, if_neg Bool.false_ne_true, Option.toList_none,
          Option.toList_some, List.append_nil, List.append_assoc]
      rw [hmore, owned_concat hbuffer]
      exact ⟨(h.backed id hid).concat hbucket howns hbuffer, rfl⟩
  refine h.of_thread hid (fun other hother ↦ ⟨Function.update_of_ne hother .., rfl, rfl, rfl⟩)
    (h.queue id hid) ?_ (fun haccepted ↦ ?_) ?_ ?_ h.uses
  · rw [hwriter]
    exact (h.kept id).step hmove
  · obtain ⟨chunk, hchunk⟩ := h.built id haccepted
    rcases localMove hlocal hmove with ⟨hbuilt, -⟩ | ⟨hnone, -⟩
    · exact ⟨chunk, by rw [hwriter, hbuilt, hchunk]⟩
    · cases hnone.symm.trans hchunk
  · rw [hwriter]
    exact hpending.1
  · rw [hpending.2]

/-- A file is opened in a bucket of the pool, by a sink that had none. -/
theorem Accounted.openStep (h : Accounted s) (hid : id < parquetMemWorkRingCount) {advance : ℕ}
    (htaken : openStep env view s id advance = some next) : Accounted next := by
  rcases hpool : s.pool with _ | ⟨bucket, pool⟩
  · simp only [BucketOwnership.openStep, mrmwRingScDequeue, hpool, List.head?_nil] at htaken
    obtain ⟨w, hmem, rfl⟩ := Option.map_eq_some_iff.mp htaken
    cases memStep_move hmem
    have hsame : Function.update s.memWriters id (s.memWriters id) = s.memWriters :=
      Function.update_eq_self ..
    refine h.of_thread hid (fun other _ ↦ ⟨by rw [hsame], rfl, rfl, rfl⟩) (h.queue id hid) ?_ ?_ ?_ ?_ ?_
    · rw [hsame]
      exact h.kept id
    · rw [hsame]
      exact h.built id
    · rw [hsame]
      exact h.backed id hid
    · simp [heldBuckets, pendingChunks, unqueued, hpool]
    · simpa [hpool] using h.uses
  · simp only [BucketOwnership.openStep, mrmwRingScDequeue, hpool, List.head?_cons, List.tail_cons,
      Option.isSome_some, if_true] at htaken
    obtain ⟨w, hmem, rfl⟩ := Option.map_eq_some_iff.mp htaken
    have hmove := memStep_move hmem
    obtain ⟨hclosed, hpc, hbuilt, hbuffer⟩ := openMove hmove
    have hnone : (s.memWriters id).sink.buffer = none := h.kept id hclosed hpc
    set next : BucketRun Group :=
      { s with
        pool := pool ++ (s.memWriters id).sink.buffer.toList
        memWriters := Function.update s.memWriters id w
        opened := s.opened ++ (some bucket).toList
        returned := s.returned ++ (s.memWriters id).sink.buffer.toList } with hnext
    have hwriter : next.memWriters id = w := Function.update_self ..
    have hpending : pendingChunks next id = pendingChunks s id := by
      rw [pendingChunks, pendingChunks, unqueued, unqueued, hwriter, hbuilt]
    have hbacked := h.backed id hid
    rw [hnone] at hbacked
    have huses := h.uses
    rw [hpool] at huses
    refine h.of_thread hid (fun other hother ↦ ⟨Function.update_of_ne hother .., rfl, rfl, rfl⟩)
      (h.queue id hid) ?_ ?_ ?_ ?_ ?_
    · rw [hwriter]
      exact (h.kept id).step hmove
    · rw [hwriter, hbuilt]
      exact h.built id
    · rw [hwriter, hpending, hbuffer]
      exact hbacked.openFile bucket
    · rw [heldBuckets, heldBuckets, hpending, hwriter, hbuffer, hnone, owned, owned, hpool]
      simp only [hnext, hnone, Option.toList_none, Option.toList_some, List.append_nil]
      exact (List.perm_append_singleton bucket _).append_left pool |>.trans List.perm_middle
    · simpa [hnext, hnone] using huses

/-- A chunk that is enqueued stays the last one pending. -/
theorem Accounted.enqueueStep (h : Accounted s) (hid : id < parquetMemWorkRingCount)
    (htaken : enqueueStep s id = some next) : Accounted next := by
  unfold BucketOwnership.enqueueStep at htaken
  split at htaken
  · next chunk back hpc hwaits =>
    obtain ⟨contents, hqueue⟩ := h.queue id hid
    split at htaken
    · next ring henqueue =>
      obtain rfl := Option.some.inj htaken
      have hqueue' := hqueue.enqueue henqueue
      have hpending : pendingChunks { s with
          accepted := Function.update s.accepted id true
          parquetMemWorkRing := Function.update s.parquetMemWorkRing id ring } id =
            pendingChunks s id := by
        simp only [pendingChunks, unqueued, Function.update_self, hwaits, hpc, builtChunk, if_true,
          Bool.false_eq_true, if_false, hqueue'.ringContents_eq, hqueue.ringContents_eq,
          Option.toList_none, Option.toList_some, List.append_nil]
      refine h.of_thread hid (fun other hother ↦ ⟨rfl, Function.update_of_ne hother ..,
        Function.update_of_ne hother .., rfl⟩) ?_ (h.kept id) (fun _ ↦ ⟨chunk, by rw [hpc]; rfl⟩) ?_ ?_
        h.uses
      · exact ⟨_, by simpa only [Function.update_self] using hqueue'⟩
      · rw [hpending]
        exact h.backed id hid
      · rw [heldBuckets, heldBuckets, hpending]
    · obtain rfl := Option.some.inj htaken
      exact h
  · cases htaken

/-- Whatever length is read for a chunk in the ring, the chunks pending are the same. -/
theorem Accounted.addLengthStep (h : Accounted s) (hid : id < parquetMemWorkRingCount) {length : ℤ}
    (htaken : addLengthStep s id length = some next) : Accounted next := by
  simp only [BucketOwnership.addLengthStep] at htaken
  split at htaken
  · next chunk back hpc haccepted =>
    obtain rfl := Option.some.inj htaken
    set w : MemWriter Group := { logChunk (s.memWriters id) chunk with
      pc := back.pc
      alreadyFlushedSize := (s.memWriters id).alreadyFlushedSize + length } with hw
    have hnone : builtChunk w.pc = none := by cases back <;> rfl
    have hpending : pendingChunks { s with
        accepted := Function.update s.accepted id false
        memWriters := Function.update s.memWriters id w } id = pendingChunks s id := by
      simp only [pendingChunks, unqueued, Function.update_self, haccepted, hnone, Bool.false_eq_true,
        if_true, if_false]
    refine h.of_thread hid (fun other hother ↦ ⟨Function.update_of_ne hother ..,
      Function.update_of_ne hother .., rfl, rfl⟩) (h.queue id hid) ?_ (fun hstill ↦ ?_) ?_ ?_ h.uses
    · simp only [Function.update_self]
      exact fun hclosed _ ↦ h.kept id hclosed (by simp [hpc])
    · simp only [Function.update_self, Bool.false_eq_true] at hstill
    · rw [hpending]
      simp only [Function.update_self]
      exact h.backed id hid
    · rw [heldBuckets, heldBuckets, hpending]
      simp only [Function.update_self]
      exact List.Perm.refl _
  · cases htaken

/-- Assumes: a step of a store writer that leaves the chunks pending as they are. -/
theorem Accounted.storeWriter (h : Accounted s) (hid : id < parquetMemWorkRingCount)
    {storeWriter : StoreWriter} {ring : RwRing ParquetMemChunk}
    (hqueue : ∃ contents, Queue ring contents)
    (hsame : storeWriter.chunk.toList ++ ringContents ring =
      (s.storeWriters id).chunk.toList ++ ringContents (s.parquetMemWorkRing id)) :
    Accounted { s with
      storeWriters := Function.update s.storeWriters id storeWriter
      parquetMemWorkRing := Function.update s.parquetMemWorkRing id ring } := by
  have hpending : pendingChunks { s with
      storeWriters := Function.update s.storeWriters id storeWriter
      parquetMemWorkRing := Function.update s.parquetMemWorkRing id ring } id =
        pendingChunks s id := by
    simp only [pendingChunks, unqueued, Function.update_self, ← List.append_assoc, hsame]
  refine h.of_thread hid (fun other hother ↦ ⟨rfl, rfl, Function.update_of_ne hother ..,
    Function.update_of_ne hother ..⟩) ?_ (h.kept id) (h.built id) ?_ ?_ h.uses
  · simpa using hqueue
  · rw [hpending]
    exact h.backed id hid
  · rw [heldBuckets, heldBuckets, hpending]

/-- The oldest chunk is deleted, and the bucket it owns goes back to the pool. -/
theorem Accounted.deleteStep (h : Accounted s) (hid : id < parquetMemWorkRingCount)
    (htaken : deleteStep s id = some next) : Accounted next := by
  unfold BucketOwnership.deleteStep at htaken
  split at htaken
  · next chunk hchunk =>
    -- what is left pending when the chunk is gone
    obtain ⟨rest, hrest⟩ : ∃ rest, pendingChunks s id = chunk :: rest ∧
        ∀ next : BucketRun Group, next.memWriters = s.memWriters → next.accepted = s.accepted →
          next.parquetMemWorkRing = s.parquetMemWorkRing → next.storeWriters id = .reading →
          pendingChunks next id = rest := by
      refine ⟨_, by rw [pendingChunks, hchunk]; rfl, fun next hwriters haccepted hrings hreading ↦ ?_⟩
      rw [pendingChunks, unqueued, hwriters, haccepted, hrings, hreading]
      rfl
    have hbacked := h.backed id hid
    rw [hrest.1] at hbacked
    have hothers : ∀ (pool returned : List ℕ) (other : ℕ), other ≠ id → SameThreads s
        { s with
          pool := pool
          storeWriters := Function.update s.storeWriters id .reading
          returned := returned } other :=
      fun pool returned other hother ↦ ⟨rfl, rfl, rfl, Function.update_of_ne hother ..⟩
    split at htaken
    · next hbuffer =>
      cases htaken
      have hpending := hrest.2 { s with storeWriters := Function.update s.storeWriters id .reading }
        rfl rfl rfl (Function.update_self ..)
      refine h.of_thread hid (hothers s.pool s.returned) (h.queue id hid) (h.kept id) (h.built id) ?_ ?_
        h.uses
      · rw [hpending]
        exact hbacked.2
      · rw [heldBuckets, heldBuckets, hpending, hrest.1, owned, owned, List.filterMap_cons, hbuffer]
    · next bucket hbuffer =>
      split at htaken
      · next pool henqueue =>
        cases htaken
        have hpool : pool = s.pool ++ [bucket] := eq_append_of_mrmwRingSpEnqueue henqueue
        have hpending := hrest.2
          { s with
            pool := pool
            storeWriters := Function.update s.storeWriters id .reading
            returned := s.returned ++ [bucket] } rfl rfl rfl (Function.update_self ..)
        refine h.of_thread hid (hothers pool _) (h.queue id hid) (h.kept id) (h.built id) ?_ ?_ ?_
        · rw [hpending]
          exact hbacked.2
        · rw [heldBuckets, heldBuckets, hpending, hrest.1, owned, owned, List.filterMap_cons,
            hbuffer, hpool]
          simp
        · rw [hpool, ← List.append_assoc]
          refine (h.uses.append_right [bucket]).trans ?_
          rw [List.append_assoc, List.append_assoc]
          exact List.perm_append_comm.append_left s.returned
      · cases htaken
        exact h
  · cases htaken

/-- Every step keeps the invariant. -/
theorem Accounted.step (h : Accounted s) {event : BucketEvent Group}
    (htaken : bucketStep env view s event = some next) : Accounted next := by
  unfold bucketStep at htaken
  split_ifs at htaken with hid
  cases event with
  | mem id event =>
    simp only at htaken
    split_ifs at htaken with hlocal
    obtain ⟨w, hmem, rfl⟩ := Option.map_eq_some_iff.mp htaken
    exact h.mem hid hlocal hmem
  | openFile id advance => exact h.openStep hid htaken
  | enqueue id => exact h.enqueueStep hid htaken
  | addLength id length => exact h.addLengthStep hid htaken
  | dequeue id =>
    have hid : id < parquetMemWorkRingCount := hid
    simp only at htaken
    split at htaken
    · next hreading =>
      obtain ⟨contents, hqueue⟩ := h.queue id hid
      split at htaken
      · next chunk ring hdequeue =>
        cases htaken
        obtain ⟨rest, rfl, hring⟩ := hqueue.dequeue hdequeue
        refine h.storeWriter hid ⟨_, hring⟩ ?_
        rw [hring.ringContents_eq, hqueue.ringContents_eq, hreading]
        rfl
      · cases htaken
        exact h
    · cases htaken
  | consume id =>
    have hid : id < parquetMemWorkRingCount := hid
    simp only at htaken
    split at htaken
    · next chunk hholding =>
      cases htaken
      have hsame : Function.update s.parquetMemWorkRing id (s.parquetMemWorkRing id) =
          s.parquetMemWorkRing := Function.update_eq_self ..
      have hnext := h.storeWriter hid (h.queue id hid)
        (show (StoreWriter.consumed chunk).chunk.toList ++ _ = _ by rw [hholding]; rfl)
      rwa [hsame] at hnext
    · cases htaken
  | delete id => exact h.deleteStep hid htaken

end Steps

/-- After `Configs::init` all buckets are in the pool. -/
theorem accounted_start {rings : ℕ → RwRing ParquetMemChunk}
    (hrings : ∀ id < parquetMemWorkRingCount, Queue (rings id) []) :
    Accounted (BucketRun.start rings : BucketRun Group) := by
  have hpending : ∀ id < parquetMemWorkRingCount,
      pendingChunks (BucketRun.start rings : BucketRun Group) id = [] := by
    intro id hid
    simp [pendingChunks, BucketRun.start, StoreWriter.chunk, (hrings id hid).ringContents_eq,
      MemWriter.start, unqueued, builtChunk]
  refine ⟨fun id hid ↦ ⟨[], hrings id hid⟩, fun _ _ _ ↦ rfl, fun _ haccepted ↦ (by cases haccepted),
    fun id hid ↦ ?_, ?_, List.Perm.refl _⟩
  · rw [hpending id hid]
    trivial
  · have hheld : (List.range parquetMemWorkRingCount).flatMap
        (heldBuckets (BucketRun.start rings : BucketRun Group)) = [] := by
      rw [List.flatMap_eq_nil_iff]
      intro id hid
      rw [heldBuckets, hpending id (List.mem_range.mp hid)]
      rfl
    rw [bucketPlaces, places, hheld, List.append_nil]
    exact List.Perm.refl _

/-- In every state of every interleaving each bucket is in one place: the pool, a live sink, or with
the final chunk of its file. Of the files opened in a bucket all but the one it still serves have
given it back, each once. And a chunk that is built and not yet deleted points into a bucket that is
still with the threads of its ring, so not in the pool. -/
theorem buckets_accounted {env : RecvEnv} {view : Group → PacketGroup}
    {rings : ℕ → RwRing ParquetMemChunk}
    {data : ℕ → Option (ℕ → Option ParquetMemChunk)}
    (hrings : ∀ id < parquetMemWorkRingCount,
      createRwRing (data id) parquetFileChunkCount = some (rings id))
    {s : BucketRun Group} (hrun : Reachable (bucketStep env view) (.start rings) s) :
    (∀ bucket < parquetMemCount, (bucketPlaces s).count bucket = 1) ∧
      (∀ bucket < parquetMemCount, s.opened.count bucket =
        s.returned.count bucket + if bucket ∈ s.pool then 0 else 1) ∧
      ∀ id < parquetMemWorkRingCount, ∀ chunk ∈ pendingChunks s id,
        OwnsIfFinal chunk ∧ chunk.bucket ∈ heldBuckets s id ∧ chunk.bucket ∉ s.pool := by
  have haccounted : Accounted s := by
    refine hrun.invariant (accounted_start fun id hid ↦ ?_) fun _ _ _ h _ htaken ↦ h.step htaken
    exact @queue_create _ _ _ 2 (by omega) (hrings id hid)
  have hnodup : (bucketPlaces s).Nodup := haccounted.once.nodup_iff.mpr List.nodup_range
  refine ⟨fun bucket hbucket ↦ ?_, fun bucket hbucket ↦ ?_, fun id hid chunk hchunk ↦ ?_⟩
  · rw [haccounted.once.count_eq, List.count_eq_one_of_mem List.nodup_range]
    exact List.mem_range.mpr hbucket
  · have hcount := haccounted.uses.count_eq bucket
    rw [List.count_append, List.count_append, List.count_eq_one_of_mem List.nodup_range
      (List.mem_range.mpr hbucket)] at hcount
    have hpool : s.pool.count bucket = if bucket ∈ s.pool then 1 else 0 :=
      (hnodup.sublist (List.sublist_append_left ..)).count
    split_ifs at hpool ⊢ with hmem <;> omega
  · obtain ⟨howns, howned⟩ := (haccounted.backed id hid).mem_owned hchunk
    exact ⟨howns, howned, not_mem_pool_of_held hnodup hid howned⟩

/-- Mem writer 1 has both chunks of a file enqueued, and its store writer has the first. -/
def bothPending : List (BucketEvent PacketGroup) :=
  [.mem 1 (.read (some { exampleGroup with addRows := 1 })), .mem 1 (.testDay exampleTm),
    .openFile 1 4, .mem 1 (.write 600000000), .mem 1 (.giveBack true), .mem 1 .run, .mem 1 .run,
    .mem 1 .run, .enqueue 1, .dequeue 1, .consume 1, .addLength 1 parquetFileChunkSize,
    .mem 1 (.read none), .mem 1 .timerTest, .mem 1 .timerSet, .mem 1 (.testFlag 0), .mem 1 .run,
    .mem 1 (.close 1000), .mem 1 .run, .enqueue 1]

/-- The work ring that `init` creates for every mem writer. -/
def chunkRing : RwRing ParquetMemChunk :=
  { size := 4
    mask := 3
    consIndx := 0
    prodIndx := 0
    objs := fun _ ↦ none }

/-- The first chunk points into bucket 0, which only the second one owns, and the pool is without
it. -/
theorem buckets_accounted_bothPending :
    ∃ s : BucketRun PacketGroup,
      Reachable (bucketStep exampleEnv id) (.start fun _ ↦ chunkRing) s ∧
      (pendingChunks s 1).map (fun chunk ↦ (chunk.bucket, chunk.buffer)) =
        [(0, none), (0, some 0)] ∧
      (bucketPlaces s).count 0 = 1 ∧ ∀ chunk ∈ pendingChunks s 1, chunk.bucket ∉ s.pool := by
  obtain ⟨s, hexecute, hpending⟩ : ∃ s, execute (bucketStep exampleEnv id) anyEvent
      (.start fun _ ↦ chunkRing) bothPending = some s ∧
        (pendingChunks s 1).map (fun chunk ↦ (chunk.bucket, chunk.buffer)) =
          [(0, none), (0, some 0)] := ⟨_, rfl, rfl⟩
  have hrun := run_of_execute hexecute
  have haccounted := @buckets_accounted _ _ _ _ (fun _ ↦ some fun _ ↦ none) (fun _ _ ↦ rfl) _ hrun
  refine ⟨s, hrun, hpending, haccounted.1 0 (by decide), fun chunk hchunk ↦ ?_⟩
  exact (haccounted.2.2 1 (by decide) chunk hchunk).2.2

end CppLearn.RecvEngine.BucketOwnership
