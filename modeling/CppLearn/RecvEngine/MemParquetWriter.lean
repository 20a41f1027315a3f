import CppLearn.Foundation.GuardedRun
import CppLearn.Foundation.Tiling
import CppLearn.RecvEngine.PacketReceiver

/-!
# Parquet files in memory

`MemParquetWriter` takes packet groups off a work ring, writes each as a row group into a bucket of
memory, and hands the bytes over to the writer of the store chunk by chunk. `memStep` is its thread
statement by statement, with the timer of another thread in between. What comes from outside is part
of the event: the group that the ring gives, the bucket, the bytes by which the parquet library
advances the sink, and whether a ring takes what is put into it.

A `FileLog` records, from `Open` to the last chunk, the groups written to a file and the chunks
enqueued for it. `Tracked` is the invariant that ties the chunks to `already_flushed_size` and the
position of the sink along every path to a flush, and `chunks_reassemble` the result: the chunks of
every file tile its bytes, and the last one alone is flagged.
-/

set_option autoImplicit false
set_option relaxedAutoImplicit false

namespace CppLearn.RecvEngine.MemParquetWriter

open Foundation.GuardedRun Foundation.LocalTime Foundation.Tiling
open PacketDefine PacketReceiver

/-! ### The writer -/

/-- `MAX_PARQUET_FILE_SIZE`. -/
def maxParquetFileSize : ℤ := 0x40000000

/-- `MAX_PACKET_GROUP_SIZE`. -/
def maxPacketGroupSize : ℤ := 0x0A000000

/-- `PARQUET_FILE_CHUNK_SIZE`. -/
def parquetFileChunkSize : ℤ := 0x20000000

/-- `PARQUET_FILE_FLUSH_SIZE`. -/
def parquetFileFlushSize : ℤ := maxParquetFileSize - maxPacketGroupSize

/-- `ParquetMemChunk`. `data` points at an offset into a bucket, and `buffer` owns a bucket or
is null. -/
structure ParquetMemChunk where
  bucket : ℕ
  offset : ℤ
  length : ℤ
  flag : ℤ
  startTime : ℤ
  endTime : ℤ
  buffer : Option ℕ
  deriving DecidableEq

/-- The bytes of its bucket that a chunk stands for. -/
def ParquetMemChunk.span (chunk : ParquetMemChunk) : Span := ⟨chunk.offset, chunk.length⟩

/-- `RingOutputStream`: the bucket of `buffer_`, which is null before the first sink and after
`GetBuffer`, and `size_`, which is what `Tell` returns. -/
structure Sink where
  buffer : Option ℕ
  size : ℤ

/-- Where `parquet_mem_flush_to_dfs` returns to: the end of `write_to_mem`, or after the day change
test with the group that has been read. -/
inductive Back (Group : Type*)
  | done
  | opening (group : Group) (startTime endTime : ℤ)

/-- Where the thread stands in `write_to_mem` and the functions it calls. -/
inductive Pc (Group : Type*)
  | reading
  | ringEmpty
  | grouped (group : Group) (startTime endTime : ℤ)
  | opening (group : Group) (startTime endTime : ℤ)
  | writing (group : Group)
  | givingBack (group : Group)
  | measuring
  | flushTest (remainLength : ℤ)
  | flushing (flag : ℤ) (back : Back Group)
  | closed (back : Back Group)
  | enqueuing (chunk : ParquetMemChunk) (back : Back Group)

/-- The statement after a flush. -/
def Back.pc {Group : Type*} : Back Group → Pc Group
  | .done => .reading
  | .opening group startTime endTime => .opening group startTime endTime

/-- What is recorded of a parquet file: its bucket, the groups written, the chunks enqueued, and for
a file that is handed over the final position of its sink. -/
structure FileLog (Group : Type*) where
  bucket : ℕ
  groups : List Group
  chunks : List ParquetMemChunk
  tell : ℤ

/-- The members of `MemParquetWriter` that the flow of data depends on, where its thread stands,
whether `on_timeout` is past its test, and the logs of the file being written and of the files
handed over. -/
structure MemWriter (Group : Type*) where
  pc : Pc Group
  sink : Sink
  fileWriter : Bool
  alreadyFlushedSize : ℤ
  fileStartTime : ℤ
  fileEndTime : ℤ
  doParquetFileFlush : Bool
  timerPassed : Bool
  file : FileLog Group
  stored : List (FileLog Group)

variable {Group : Type*}

/-- The writer as its constructor leaves it. -/
def MemWriter.start : MemWriter Group :=
  { pc := .reading
    sink := ⟨none, 0⟩
    fileWriter := false
    alreadyFlushedSize := 0
    fileStartTime := 0
    fileEndTime := 0
    doParquetFileFlush := false
    timerPassed := false
    file := ⟨0, [], [], 0⟩
    stored := [] }

/-- One statement of the thread with what it gets from outside, or one of the two halves of
`on_timeout`. `testFlag` carries what the uninitialised `remain_length` holds, `testDay` what the
broken-down times of `is_different_day` do. -/
inductive MemEvent (Group : Type*)
  | read (found : Option Group)
  | testFlag (stale : ℤ)
  | testDay (stale : Tm × Tm)
  | openFile (bucket : Option ℕ) (advance : ℕ)
  | write (advance : ℕ)
  | giveBack (accepted : Bool)
  | close (advance : ℕ)
  | enqueue (accepted : Bool)
  | run
  | timerTest
  | timerSet

/-- What mem writers share with other threads: the rings of groups, or the pool of buckets and the work
rings of the chunks. -/
inductive Shared
  | groups
  | chunks

/-- Whether a step leaves it alone. -/
def MemEvent.isLocal : Shared → MemEvent Group → Bool
  | .groups, .read _ | .groups, .giveBack _ => false
  | .chunks, .openFile .. | .chunks, .enqueue _ => false
  | _, _ => true

/-- The chunk that `parquet_mem_flush_to_dfs` makes of the bytes from `already_flushed_size` on. A
final chunk takes the buffer of the sink with it. -/
def MemWriter.chunk (w : MemWriter Group) (bucket : ℕ) (flag length : ℤ) (buffer : Option ℕ) :
    ParquetMemChunk :=
  { bucket := bucket
    offset := w.alreadyFlushedSize
    length := length
    flag := flag
    startTime := w.fileStartTime
    endTime := w.fileEndTime
    buffer := buffer }

/-- One statement of `write_to_mem`, `write_to_parquet_mem` or `parquet_mem_flush_to_dfs`, where the
thread is at a statement without an answer from outside. -/
def runStep (w : MemWriter Group) : Option (MemWriter Group) :=
  match w.pc with
  | .opening group startTime endTime =>
    if w.fileWriter then
      some { w with
        pc := .writing group
        fileStartTime := min startTime w.fileStartTime
        fileEndTime := max endTime w.fileEndTime }
    else none
  | .measuring =>
    some { w with
      pc := .flushTest (w.sink.size - w.alreadyFlushedSize)
      doParquetFileFlush :=
        w.doParquetFileFlush || decide (parquetFileFlushSize ≤ w.sink.size) }
  | .flushTest remainLength =>
    if w.doParquetFileFlush then some { w with pc := .flushing 1 .done }
    else if parquetFileChunkSize ≤ remainLength then some { w with pc := .flushing 0 .done }
    else some { w with pc := .reading }
  | .flushing flag back =>
    if flag ≠ 0 then none
    else w.sink.buffer.map fun bucket ↦
      { w with pc := .enqueuing (w.chunk bucket flag parquetFileChunkSize none) back }
  | .closed back =>
    w.sink.buffer.map fun bucket ↦
      { w with
        pc := .enqueuing
          (w.chunk bucket 1 (w.sink.size - w.alreadyFlushedSize) (some bucket)) back
        sink := { w.sink with buffer := none }
        doParquetFileFlush := false }
  | _ => none

/-- The chunk that the ring has accepted, in the log of the file; a final one ends the file. -/
def logChunk (w : MemWriter Group) (chunk : ParquetMemChunk) : MemWriter Group :=
  let file := { w.file with chunks := w.file.chunks ++ [chunk], tell := w.sink.size }
  { w with
    file := file
    stored := if chunk.flag ≠ 0 then w.stored ++ [file] else w.stored }

/-- One step of the thread or of the timer. `view` gives the group behind a pointer. -/
def memStep (env : RecvEnv) (view : Group → PacketGroup) (w : MemWriter Group) :
    MemEvent Group → Option (MemWriter Group)
  | .read found =>
    match w.pc, found with
    | .reading, none => some { w with pc := .ringEmpty }
    | .reading, some group =>
      some { w with pc := .grouped group (view group).startTime (view group).endTime }
    | _, _ => none
  | .testFlag stale =>
    match w.pc with
    | .ringEmpty =>
      some { w with
        pc := if w.fileWriter && w.doParquetFileFlush then .flushTest stale else .reading }
    | _ => none
  | .testDay stale =>
    match w.pc with
    | .grouped group startTime endTime =>
      some { w with
        pc :=
          if env.enableSecondLevelDir && w.fileWriter &&
              isDifferentDay env.zone stale w.fileStartTime startTime then
            .flushing 1 (.opening group startTime endTime)
          else .opening group startTime endTime }
    | _ => none
  | .openFile found advance =>
    match w.pc, found with
    | .opening group startTime endTime, some bucket =>
      if w.fileWriter then none
      else
        some { w with
          pc := .writing group
          sink := ⟨some bucket, advance⟩
          fileWriter := true
          alreadyFlushedSize := 0
          fileStartTime := startTime
          fileEndTime := endTime
          file := ⟨bucket, [], [], 0⟩ }
    | .opening _ _ _, none => if w.fileWriter then none else some w
    | _, _ => none
  | .write advance =>
    match w.pc with
    | .writing group =>
      -- the early return leaves the group with nobody
      if (view group).addRows = 0 then some { w with pc := .measuring }
      else
        some { w with
          pc := .givingBack group
          sink := { w.sink with size := w.sink.size + advance }
          file := { w.file with groups := w.file.groups ++ [group] } }
    | _ => none
  | .giveBack accepted =>
    match w.pc with
    | .givingBack _ => some (if accepted then { w with pc := .measuring } else w)
    | _ => none
  | .close advance =>
    match w.pc with
    | .flushing flag back =>
      if flag ≠ 0 ∧ w.fileWriter then
        some { w with
          pc := .closed back
          sink := { w.sink with size := w.sink.size + advance }
          fileWriter := false }
      else none
    | _ => none
  | .enqueue accepted =>
    match w.pc with
    | .enqueuing chunk back =>
      if accepted then
        some { logChunk w chunk with
          pc := back.pc
          alreadyFlushedSize := w.alreadyFlushedSize + chunk.length }
      else some w
    | _ => none
  | .run => runStep w
  | .timerTest => some { w with timerPassed := w.timerPassed || w.fileWriter }
  | .timerSet =>
    if w.timerPassed then some { w with doParquetFileFlush := true, timerPassed := false } else none

/-! ### What a step can do -/

/-- The steps of `memStep`, one constructor a branch. -/
inductive MemMove (env : RecvEnv) (view : Group → PacketGroup) (w : MemWriter Group) :
    MemEvent Group → MemWriter Group → Prop
  | readNone (hpc : w.pc = .reading) : MemMove env view w (.read none) { w with pc := .ringEmpty }
  | readSome (group : Group) (hpc : w.pc = .reading) :
      MemMove env view w (.read (some group))
        { w with pc := .grouped group (view group).startTime (view group).endTime }
  | goFlush (stale : ℤ) (hpc : w.pc = .ringEmpty) (hopen : w.fileWriter = true)
      (hflush : w.doParquetFileFlush = true) :
      MemMove env view w (.testFlag stale) { w with pc := .flushTest stale }
  | readAgain (stale : ℤ) (hpc : w.pc = .ringEmpty) :
      MemMove env view w (.testFlag stale) { w with pc := .reading }
  | dayChange (stale : Tm × Tm) (group : Group) (startTime endTime : ℤ)
      (hpc : w.pc = .grouped group startTime endTime) (hopen : w.fileWriter = true) :
      MemMove env view w (.testDay stale)
        { w with pc := .flushing 1 (.opening group startTime endTime) }
  | sameDay (stale : Tm × Tm) (group : Group) (startTime endTime : ℤ)
      (hpc : w.pc = .grouped group startTime endTime) :
      MemMove env view w (.testDay stale) { w with pc := .opening group startTime endTime }
  | openFile (bucket advance : ℕ) (group : Group) (startTime endTime : ℤ)
      (hpc : w.pc = .opening group startTime endTime) (hclosed : w.fileWriter = false) :
      MemMove env view w (.openFile (some bucket) advance)
        { w with
          pc := .writing group
          sink := ⟨some bucket, advance⟩
          fileWriter := true
          alreadyFlushedSize := 0
          fileStartTime := startTime
          fileEndTime := endTime
          file := ⟨bucket, [], [], 0⟩ }
  | openWait (advance : ℕ) : MemMove env view w (.openFile none advance) w
  | writeNothing (advance : ℕ) (group : Group) (hpc : w.pc = .writing group)
      (hrows : (view group).addRows = 0) :
      MemMove env view w (.write advance) { w with pc := .measuring }
  | write (advance : ℕ) (group : Group) (hpc : w.pc = .writing group)
      (hrows : (view group).addRows ≠ 0) :
      MemMove env view w (.write advance)
        { w with
          pc := .givingBack group
          sink := { w.sink with size := w.sink.size + advance }
          file := { w.file with groups := w.file.groups ++ [group] } }
  | giveBack (group : Group) (hpc : w.pc = .givingBack group) :
      MemMove env view w (.giveBack true) { w with pc := .measuring }
  | giveBackWait (group : Group) (hpc : w.pc = .givingBack group) :
      MemMove env view w (.giveBack false) w
  | close (advance : ℕ) (flag : ℤ) (back : Back Group) (hpc : w.pc = .flushing flag back)
      (hflag : flag ≠ 0) (hopen : w.fileWriter = true) :
      MemMove env view w (.close advance)
        { w with
          pc := .closed back
          sink := { w.sink with size := w.sink.size + advance }
          fileWriter := false }
  | enqueue (chunk : ParquetMemChunk) (back : Back Group) (hpc : w.pc = .enqueuing chunk back) :
      MemMove env view w (.enqueue true)
        { logChunk w chunk with
          pc := back.pc
          alreadyFlushedSize := w.alreadyFlushedSize + chunk.length }
  | enqueueWait (chunk : ParquetMemChunk) (back : Back Group)
      (hpc : w.pc = .enqueuing chunk back) : MemMove env view w (.enqueue false) w
  | merge (group : Group) (startTime endTime : ℤ) (hpc : w.pc = .opening group startTime endTime)
      (hopen : w.fileWriter = true) :
      MemMove env view w .run
        { w with
          pc := .writing group
          fileStartTime := min startTime w.fileStartTime
          fileEndTime := max endTime w.fileEndTime }
  | measure (hpc : w.pc = .measuring) :
      MemMove env view w .run
        { w with
          pc := .flushTest (w.sink.size - w.alreadyFlushedSize)
          doParquetFileFlush :=
            w.doParquetFileFlush || decide (parquetFileFlushSize ≤ w.sink.size) }
  | flushAll (remainLength : ℤ) (hpc : w.pc = .flushTest remainLength)
      (hflush : w.doParquetFileFlush = true) :
      MemMove env view w .run { w with pc := .flushing 1 .done }
  | flushChunk (remainLength : ℤ) (hpc : w.pc = .flushTest remainLength)
      (hflush : w.doParquetFileFlush = false) (hremain : parquetFileChunkSize ≤ remainLength) :
      MemMove env view w .run { w with pc := .flushing 0 .done }
  | flushNothing (remainLength : ℤ) (hpc : w.pc = .flushTest remainLength) :
      MemMove env view w .run { w with pc := .reading }
  | buildPartial (bucket : ℕ) (back : Back Group) (hpc : w.pc = .flushing 0 back)
      (hbuffer : w.sink.buffer = some bucket) :
      MemMove env view w .run
        { w with pc := .enqueuing (w.chunk bucket 0 parquetFileChunkSize none) back }
  | buildFinal (bucket : ℕ) (back : Back Group) (hpc : w.pc = .closed back)
      (hbuffer : w.sink.buffer = some bucket) :
      MemMove env view w .run
        { w with
          pc := .enqueuing
            (w.chunk bucket 1 (w.sink.size - w.alreadyFlushedSize) (some bucket)) back
          sink := { w.sink with buffer := none }
          doParquetFileFlush := false }
  | timerTest :
      MemMove env view w .timerTest { w with timerPassed := w.timerPassed || w.fileWriter }
  | timerSet (hpassed : w.timerPassed = true) :
      MemMove env view w .timerSet { w with doParquetFileFlush := true, timerPassed := false }

variable {env : RecvEnv} {view : Group → PacketGroup} {w next : MemWriter Group}

/-- The steps without an answer from outside. -/
theorem runStep_move (htaken : runStep w = some next) : MemMove env view w .run next := by
  unfold runStep at htaken
  split at htaken
  · next group startTime endTime hpc =>
    split_ifs at htaken with hopen
    cases htaken
    exact .merge group startTime endTime hpc hopen
  · next hpc =>
    cases htaken
    exact .measure hpc
  · next remainLength hpc =>
    split_ifs at htaken with hflush hremain <;> cases htaken
    · exact .flushAll remainLength hpc hflush
    · exact .flushChunk remainLength hpc (Bool.eq_false_iff.mpr hflush) hremain
    · exact .flushNothing remainLength hpc
  · next flag back hpc =>
    split_ifs at htaken with hflag
    obtain rfl : flag = 0 := not_not.mp hflag
    obtain ⟨bucket, hbuffer, rfl⟩ := Option.map_eq_some_iff.mp htaken
    exact .buildPartial bucket back hpc hbuffer
  · next back hpc =>
    obtain ⟨bucket, hbuffer, rfl⟩ := Option.map_eq_some_iff.mp htaken
    exact .buildFinal bucket back hpc hbuffer
  · cases htaken

/-- Every step is one of the moves. -/
theorem memStep_move {event : MemEvent Group} (htaken : memStep env view w event = some next) :
    MemMove env view w event next := by
  cases event with
  | read found =>
    simp only [memStep] at htaken
    split at htaken
    · next hpc =>
      cases htaken
      exact .readNone hpc
    · next group hpc =>
      cases htaken
      exact .readSome group hpc
    · cases htaken
  | testFlag stale =>
    simp only [memStep] at htaken
    split at htaken
    · next hpc =>
      cases htaken
      by_cases hflush : (w.fileWriter && w.doParquetFileFlush) = true
      · rw [if_pos hflush]
        obtain ⟨hopen, hflush⟩ := Bool.and_eq_true_iff.mp hflush
        exact .goFlush stale hpc hopen hflush
      · rw [if_neg hflush]
        exact .readAgain stale hpc
    · cases htaken
  | testDay stale =>
    simp only [memStep] at htaken
    split at htaken
    · next group startTime endTime hpc =>
      cases htaken
      split_ifs with hday
      · obtain ⟨hopen, -⟩ := Bool.and_eq_true_iff.mp hday
        exact .dayChange stale group startTime endTime hpc (Bool.and_eq_true_iff.mp hopen).2
      · exact .sameDay stale group startTime endTime hpc
    · cases htaken
  | openFile found advance =>
    simp only [memStep] at htaken
    split at htaken
    · next group startTime endTime bucket hpc =>
      split_ifs at htaken with hopen
      cases htaken
      exact .openFile bucket advance group startTime endTime hpc (Bool.eq_false_iff.mpr hopen)
    · split_ifs at htaken
      cases htaken
      exact .openWait advance
    · cases htaken
  | write advance =>
    simp only [memStep] at htaken
    split at htaken
    · next group hpc =>
      split_ifs at htaken with hrows <;> cases htaken
      · exact .writeNothing advance group hpc hrows
      · exact .write advance group hpc hrows
    · cases htaken
  | giveBack accepted =>
    simp only [memStep] at htaken
    split at htaken
    · next group hpc =>
      cases accepted <;> cases htaken
      · exact .giveBackWait group hpc
      · exact .giveBack group hpc
    · cases htaken
  | close advance =>
    simp only [memStep] at htaken
    split at htaken
    · next flag back hpc =>
      split_ifs at htaken with hclose
      cases htaken
      exact .close advance flag back hpc hclose.1 hclose.2
    · cases htaken
  | enqueue accepted =>
    simp only [memStep] at htaken
    split at htaken
    · next chunk back hpc =>
      cases accepted <;> cases htaken
      · exact .enqueueWait chunk back hpc
      · exact .enqueue chunk back hpc
    · cases htaken
  | run => exact runStep_move htaken
  | timerTest =>
    cases htaken
    exact .timerTest
  | timerSet =>
    simp only [memStep] at htaken
    split_ifs at htaken with hpassed
    cases htaken
    exact .timerSet hpassed

/-! ### Chunks tile their file -/

/-- The chunks enqueued so far for a file: unflagged, in the bucket of the file, and tiling its
bytes up to a position. -/
structure Flushed (file : FileLog Group) (pos : ℤ) : Prop where
  tiles : Tiles 0 (file.chunks.map ParquetMemChunk.span) pos
  chunks : ∀ chunk ∈ file.chunks, chunk.flag = 0 ∧ chunk.bucket = file.bucket

/-- A file handed over: its chunks are in its bucket and tile its bytes, and the last one alone is
flagged. -/
structure Reassembles (file : FileLog Group) : Prop where
  tiles : Tiles 0 (file.chunks.map ParquetMemChunk.span) file.tell
  bucket : ∀ chunk ∈ file.chunks, chunk.bucket = file.bucket
  flags : ∃ front last, file.chunks = front ++ [last] ∧ last.flag = 1 ∧
    ∀ chunk ∈ front, chunk.flag = 0

/-- What holds from `Open` to `Close`: the sink has the bucket of the file, and the bytes up to
`already_flushed_size` have been enqueued. -/
structure Filling (sink : Sink) (file : FileLog Group) (pos : ℤ) : Prop where
  buffer : sink.buffer = some file.bucket
  flushed : Flushed file pos
  le_size : pos ≤ sink.size

/-- The chunk about to be enqueued is the next one of the file: a part of what is left while the
file is open, or the rest of a closed file. -/
structure NextChunk (sink : Sink) (file : FileLog Group) (pos : ℤ) (fileWriter : Bool)
    (chunk : ParquetMemChunk) : Prop where
  bucket : chunk.bucket = file.bucket
  offset : chunk.offset = pos
  flushed : Flushed file pos
  length : 0 ≤ chunk.length ∧ pos + chunk.length ≤ sink.size
  flag : chunk.flag = 0 ∧ fileWriter = true ∨
    chunk.flag = 1 ∧ fileWriter = false ∧ pos + chunk.length = sink.size

/-- What holds where the thread stands. -/
def PcFacts (w : MemWriter Group) : Pc Group → Prop
  | .reading | .ringEmpty | .grouped _ _ _ | .opening _ _ _ => True
  | .writing _ | .givingBack _ | .measuring => w.fileWriter = true
  | .flushTest remainLength => w.fileWriter = true ∧
      (w.doParquetFileFlush = true ∨ remainLength = w.sink.size - w.alreadyFlushedSize)
  | .flushing flag _ => w.fileWriter = true ∧
      (flag = 1 ∨ parquetFileChunkSize ≤ w.sink.size - w.alreadyFlushedSize)
  | .closed _ => w.fileWriter = false ∧ Filling w.sink w.file w.alreadyFlushedSize
  | .enqueuing chunk _ => NextChunk w.sink w.file w.alreadyFlushedSize w.fileWriter chunk

/-- The invariant of the writer. -/
structure Tracked (w : MemWriter Group) : Prop where
  stored : ∀ file ∈ w.stored, Reassembles file
  filling : w.fileWriter = true → Filling w.sink w.file w.alreadyFlushedSize
  pc : PcFacts w w.pc

theorem tracked_start : Tracked (MemWriter.start : MemWriter Group) :=
  ⟨fun _ hfile ↦ (List.not_mem_nil hfile).elim, fun hopen ↦ (Bool.false_ne_true hopen).elim, trivial⟩

/-- Bytes appended to the sink do not touch what has been flushed. -/
theorem Filling.advance {sink : Sink} {file : FileLog Group} {pos : ℤ}
    (h : Filling sink file pos) (advance : ℕ) (groups : List Group) :
    Filling { sink with size := sink.size + advance } { file with groups := groups } pos := by
  obtain ⟨hbuffer, ⟨htiles, hchunks⟩, hle⟩ := h
  refine ⟨hbuffer, ⟨htiles, hchunks⟩, ?_⟩
  show pos ≤ sink.size + advance
  omega

/-- The ring accepts a chunk: a partial one continues the tiling, a final one completes it. -/
theorem Tracked.enqueue (h : Tracked w) {chunk : ParquetMemChunk} {back : Back Group}
    (hpc : w.pc = .enqueuing chunk back) :
    Tracked { logChunk w chunk with
      pc := back.pc
      alreadyFlushedSize := w.alreadyFlushedSize + chunk.length } := by
  have hnext : NextChunk w.sink w.file w.alreadyFlushedSize w.fileWriter chunk := by
    have hfacts := h.pc
    rwa [hpc] at hfacts
  have htiles : Tiles 0 ((w.file.chunks ++ [chunk]).map ParquetMemChunk.span)
      (w.alreadyFlushedSize + chunk.length) := by
    have hspan : chunk.span = ⟨w.alreadyFlushedSize, chunk.length⟩ := by
      rw [← hnext.offset]
      rfl
    rw [List.map_append, List.map_singleton, hspan]
    exact hnext.flushed.tiles.concat hnext.length.1
  have hback : ∀ w' : MemWriter Group, PcFacts w' back.pc := by
    intro w'
    cases back <;> trivial
  rcases hnext.flag with ⟨hflag, hopen⟩ | ⟨hflag, hclosed, hall⟩
  · refine ⟨?_, fun _ ↦ ⟨(h.filling hopen).buffer, ⟨htiles, ?_⟩, hnext.length.2⟩, hback _⟩
    · intro file hfile
      simp only [logChunk, hflag, ne_eq, not_true_eq_false, if_false] at hfile
      exact h.stored file hfile
    · intro other hother
      rcases List.mem_append.mp hother with hother | hother
      · exact hnext.flushed.chunks other hother
      · obtain rfl := List.mem_singleton.mp hother
        exact ⟨hflag, hnext.bucket⟩
  · refine ⟨?_, fun hopen ↦ (Bool.false_ne_true (hclosed.symm.trans hopen)).elim, hback _⟩
    intro file hfile
    simp only [logChunk, hflag, ne_eq, one_ne_zero, not_false_eq_true, if_true,
      List.mem_append, List.mem_singleton] at hfile
    rcases hfile with hfile | rfl
    · exact h.stored file hfile
    · refine ⟨hall ▸ htiles, ?_, w.file.chunks, chunk, rfl, hflag,
        fun other hother ↦ (hnext.flushed.chunks other hother).1⟩
      intro other hother
      rcases List.mem_append.mp hother with hother | hother
      · exact (hnext.flushed.chunks other hother).2
      · obtain rfl := List.mem_singleton.mp hother
        exact hnext.bucket

/-- The timer only makes a flush more likely. -/
theorem PcFacts.timer {pc : Pc Group} (h : PcFacts w pc) {flush : Bool} (timerPassed : Bool)
    (hflush : w.doParquetFileFlush = true → flush = true) :
    PcFacts { w with doParquetFileFlush := flush, timerPassed := timerPassed } pc := by
  cases pc with
  | flushTest remainLength => exact ⟨h.1, h.2.imp_left hflush⟩
  | _ => exact h

/-- Every step keeps the invariant. -/
theorem Tracked.step {event : MemEvent Group} (h : Tracked w)
    (hmove : MemMove env view w event next) : Tracked next := by
  have hfacts := h.pc
  cases hmove with
  | readNone | readSome | readAgain | sameDay => exact ⟨h.stored, h.filling, trivial⟩
  | openWait | giveBackWait | enqueueWait => exact h
  | goFlush stale hpc hopen hflush => exact ⟨h.stored, h.filling, hopen, Or.inl hflush⟩
  | dayChange stale group startTime endTime hpc hopen =>
    exact ⟨h.stored, h.filling, hopen, Or.inl rfl⟩
  | openFile bucket advance group startTime endTime hpc hclosed =>
    exact ⟨h.stored, fun _ ↦ ⟨rfl, ⟨rfl, fun _ hchunk ↦ (List.not_mem_nil hchunk).elim⟩,
      Int.natCast_nonneg advance⟩, rfl⟩
  | writeNothing advance group hpc hrows =>
    rw [hpc] at hfacts
    exact ⟨h.stored, h.filling, hfacts⟩
  | write advance group hpc hrows =>
    rw [hpc] at hfacts
    exact ⟨h.stored, fun hopen ↦ (h.filling hopen).advance advance _, hfacts⟩
  | giveBack group hpc =>
    rw [hpc] at hfacts
    exact ⟨h.stored, h.filling, hfacts⟩
  | close advance flag back hpc hflag hopen =>
    exact ⟨h.stored, fun hopen' ↦ (Bool.false_ne_true hopen').elim, rfl,
      (h.filling hopen).advance advance _⟩
  | enqueue chunk back hpc => exact h.enqueue hpc
  | merge group startTime endTime hpc hopen =>
    exact ⟨h.stored, h.filling, hopen⟩
  | measure hpc =>
    rw [hpc] at hfacts
    exact ⟨h.stored, h.filling, hfacts, Or.inr rfl⟩
  | flushAll remainLength hpc hflush =>
    rw [hpc] at hfacts
    exact ⟨h.stored, h.filling, hfacts.1, Or.inl rfl⟩
  | flushChunk remainLength hpc hflush hremain =>
    rw [hpc] at hfacts
    obtain ⟨hopen, hset | hremainLength⟩ := hfacts
    · rw [hflush] at hset
      cases hset
    · exact ⟨h.stored, h.filling, hopen, Or.inr (hremainLength ▸ hremain)⟩
  | flushNothing remainLength hpc => exact ⟨h.stored, h.filling, trivial⟩
  | buildPartial bucket back hpc hbuffer =>
    rw [hpc] at hfacts
    obtain ⟨hopen, hflag | hchunk⟩ := hfacts
    · cases hflag
    · have hfilling := h.filling hopen
      have hbucket : w.file.bucket = bucket := Option.some.inj (hfilling.buffer.symm.trans hbuffer)
      refine ⟨h.stored, h.filling, hbucket.symm, rfl, hfilling.flushed, ⟨?_, ?_⟩,
        Or.inl ⟨rfl, hopen⟩⟩
      · show (0 : ℤ) ≤ parquetFileChunkSize
        decide
      · show w.alreadyFlushedSize + parquetFileChunkSize ≤ w.sink.size
        omega
  | buildFinal bucket back hpc hbuffer =>
    rw [hpc] at hfacts
    obtain ⟨hclosed, hfilling⟩ := hfacts
    have hbucket : w.file.bucket = bucket := Option.some.inj (hfilling.buffer.symm.trans hbuffer)
    have hle := hfilling.le_size
    refine ⟨h.stored, fun hopen ↦ (Bool.false_ne_true (hclosed.symm.trans hopen)).elim,
      hbucket.symm, rfl, hfilling.flushed, ⟨?_, ?_⟩, Or.inr ⟨rfl, hclosed, ?_⟩⟩
    · show 0 ≤ w.sink.size - w.alreadyFlushedSize
      omega
    · show w.alreadyFlushedSize + (w.sink.size - w.alreadyFlushedSize) ≤ w.sink.size
      omega
    · show w.alreadyFlushedSize + (w.sink.size - w.alreadyFlushedSize) = w.sink.size
      omega
  | timerTest => exact ⟨h.stored, h.filling, hfacts.timer _ id⟩
  | timerSet hpassed => exact ⟨h.stored, h.filling, hfacts.timer _ fun _ ↦ rfl⟩

/-- In every state of every run `parquet_mem_flush_to_dfs` is called with `file_writer` open. For
every file handed over, the chunks lie in the bucket of the file and follow one another from byte 0
to the final position of the sink, so that every byte is in one chunk and the slices of the bucket
along the chunks join to the file; and the last chunk alone is flagged, with 1. -/
theorem chunks_reassemble (hrun : Reachable (memStep env view) .start w) :
    (∀ flag back, w.pc = .flushing flag back → w.fileWriter = true) ∧
      ∀ file ∈ w.stored, Reassembles file ∧
        (∀ pos, (file.chunks.map ParquetMemChunk.span).countP (Span.covers pos) =
          if 0 ≤ pos ∧ pos < file.tell then 1 else 0) ∧
        ∀ {Byte : Type} (contents : List Byte),
          file.chunks.flatMap (fun chunk ↦ chunk.span.slice contents) =
            contents.take file.tell.toNat := by
  have htracked : Tracked w :=
    hrun.invariant tracked_start fun _ _ _ h _ htaken ↦ h.step (memStep_move htaken)
  refine ⟨fun flag back hpc ↦ ?_, fun file hfile ↦ ?_⟩
  · have hfacts := htracked.pc
    rw [hpc] at hfacts
    exact hfacts.1
  · have htiles := (htracked.stored file hfile).tiles
    refine ⟨htracked.stored file hfile, htiles.countP_covers, fun contents ↦ ?_⟩
    have hslices := htiles.flatMap_slice contents le_rfl
    rw [List.flatMap_map] at hslices
    rw [hslices, Span.slice, Int.sub_zero]
    rfl

/-- What uninitialised broken-down times hold. -/
def exampleTm : Tm × Tm := (⟨0, 0, 0, 0, 0, 0⟩, ⟨0, 0, 0, 0, 0, 0⟩)

/-- A group of one row goes into bucket 3 and leaves 600 MB to be flushed, of which 512 MB are; then
the timer has the file closed while the ring is empty. -/
def twoChunks : List (MemEvent PacketGroup) :=
  [.read (some { exampleGroup with addRows := 1 }), .testDay exampleTm, .openFile (some 3) 4,
    .write 600000000, .giveBack true, .run, .run, .run, .enqueue false, .enqueue true,
    .read none, .timerTest, .timerSet, .testFlag 0, .run, .close 1000, .run, .enqueue true]

/-- The file is handed over in two chunks that reassemble to it. -/
theorem chunks_reassemble_twoChunks :
    ∃ w : MemWriter PacketGroup, Reachable (memStep exampleEnv id) .start w ∧
      (w.stored.map fun file ↦ file.chunks.map fun chunk ↦
        (chunk.bucket, chunk.span, chunk.flag)) =
        [[(3, ⟨0, 536870912⟩, 0), (3, ⟨536870912, 63130092⟩, 1)]] ∧
      ∀ file ∈ w.stored, Reassembles file := by
  obtain ⟨w, hexecute, hstored⟩ : ∃ w, execute (memStep exampleEnv id) anyEvent .start twoChunks =
      some w ∧ (w.stored.map fun file ↦ file.chunks.map fun chunk ↦
        (chunk.bucket, chunk.span, chunk.flag)) =
          [[(3, ⟨0, 536870912⟩, 0), (3, ⟨536870912, 63130092⟩, 1)]] := ⟨_, rfl, rfl⟩
  have hrun := run_of_execute hexecute
  exact ⟨w, hrun, hstored, fun file hfile ↦ ((chunks_reassemble hrun).2 file hfile).1⟩

end CppLearn.RecvEngine.MemParquetWriter
