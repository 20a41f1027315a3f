import CppLearn.RecvEngine.MemParquetWriter

/-!
# Capacity of the sink

`RingOutputStream::Write` copies behind the bytes written so far without a look at its capacity. Here
the bytes by which a step of the mem writer advances its sink come as the writes that the parquet
library makes, each logged with the position at which it starts. The library is bounded by
`InGroupSize`: the bytes of a packet group, with those of a file end that follows it, fit
`MAX_PACKET_GROUP_SIZE`. `Below` is the invariant that whatever is appended next starts under
`PARQUET_FILE_FLUSH_SIZE`, which leaves room for a packet group and the end of the file
(`writes_fit`).
-/

set_option autoImplicit false
set_option relaxedAutoImplicit false

namespace CppLearn.RecvEngine.SinkCapacity

open Foundation.GuardedRun
open MemParquetWriter PacketDefine PacketReceiver

/-! ### Writes to the sink -/

/-- `size_` and `capacity_` of a `RingOutputStream`. -/
structure RingOutputStream where
  size : ℤ
  capacity : ℤ

/-- `RingOutputStream::Write` -/
def RingOutputStream.write (stream : RingOutputStream) (length : ℕ) : RingOutputStream :=
  { stream with size := stream.size + length }

/-- A call of `RingOutputStream::Write`: the stream it is made on and the number of bytes. -/
structure SinkWrite where
  stream : RingOutputStream
  length : ℕ

/-- The bytes copied lie in the bucket. -/
def SinkWrite.Fits (write : SinkWrite) : Prop :=
  write.stream.size + write.length ≤ write.stream.capacity

/-- The calls of `Write` with the given lengths, one after the other. -/
def RingOutputStream.writes (stream : RingOutputStream) : List ℕ → List SinkWrite
  | [] => []
  | length :: lengths => ⟨stream, length⟩ :: (stream.write length).writes lengths

/-- Calls fit where all their bytes together do. -/
theorem RingOutputStream.fits_of_sum {stream : RingOutputStream} {lengths : List ℕ}
    (hfit : stream.size + lengths.sum ≤ stream.capacity) :
    ∀ write ∈ stream.writes lengths, write.Fits := by
  induction lengths generalizing stream with
  | nil => exact fun _ hwrite ↦ (List.not_mem_nil hwrite).elim
  | cons length lengths ih =>
    rw [List.sum_cons, Nat.cast_add] at hfit
    intro write hwrite
    rcases List.mem_cons.mp hwrite with rfl | hwrite
    · show stream.size + length ≤ stream.capacity
      omega
    · refine ih ?_ write hwrite
      show stream.size + length + lengths.sum ≤ stream.capacity
      omega

variable {Group : Type*}

/-- The bytes that a step appends to the sink. -/
def advance : MemEvent Group → ℕ
  | .openFile (some _) advance => advance
  | .write advance => advance
  | .close advance => advance
  | _ => 0

/-- A step of the mem writer with the lengths of the writes it makes. -/
structure SinkEvent (Group : Type*) where
  event : MemEvent Group
  lengths : List ℕ
  sum_eq : lengths.sum = advance event

/-- The mem writer with the capacity of its sink, the bytes of the packet group written last to its
file, and the calls of `Write` so far. -/
structure SinkWriter (Group : Type*) where
  writer : MemWriter Group
  capacity : ℤ
  groupBytes : ℕ
  writes : List SinkWrite

/-- The writer as its constructor leaves it. -/
def SinkWriter.start : SinkWriter Group :=
  { writer := .start, capacity := 0, groupBytes := 0, writes := [] }

/-- The sink that a step appends to. `write_to_mem` makes a new one before it opens a file. -/
def appendedTo (view : Group → PacketGroup) (s : SinkWriter Group) :
    MemEvent Group → Option RingOutputStream
  | .openFile (some _) _ => some ⟨0, maxParquetFileSize⟩
  | .write _ =>
    match s.writer.pc with
    | .writing group =>
      if (view group).addRows = 0 then none else some ⟨s.writer.sink.size, s.capacity⟩
    | _ => none
  | .close _ => some ⟨s.writer.sink.size, s.capacity⟩
  | _ => none

/-- The bytes of the packet group written last to the file, after a step. -/
def groupBytesAfter (s : SinkWriter Group) (sink : Option RingOutputStream) : MemEvent Group → ℕ
  | .openFile (some _) _ => 0
  | .write advance => if sink.isSome then advance else 0
  | _ => s.groupBytes

/-- One step of the thread or of the timer, with its writes. -/
def sinkStep (env : RecvEnv) (view : Group → PacketGroup) (s : SinkWriter Group)
    (e : SinkEvent Group) : Option (SinkWriter Group) :=
  (memStep env view s.writer e.event).map fun next ↦
    let sink := appendedTo view s e.event
    { writer := next
      capacity := (sink.map RingOutputStream.capacity).getD s.capacity
      groupBytes := groupBytesAfter s sink e.event
      writes := s.writes ++ (sink.map fun stream ↦ stream.writes e.lengths).getD [] }

/-- The four bytes that a Parquet file begins with. -/
def parquetMagicLength : ℕ := 4

/-- What the Parquet library appends: the four bytes at the beginning of a file, and for a packet
group, with the end of the file where that follows, at most `MAX_PACKET_GROUP_SIZE`. -/
def InGroupSize (s : SinkWriter Group) (e : SinkEvent Group) : Prop :=
  match e.event with
  | .openFile (some _) advance => advance = parquetMagicLength
  | .write advance => (advance : ℤ) ≤ maxPacketGroupSize
  | .close advance => (s.groupBytes + advance : ℤ) ≤ maxPacketGroupSize
  | _ => True

instance (s : SinkWriter Group) : (e : SinkEvent Group) → Decidable (InGroupSize s e)
  | ⟨.openFile (some _) advance, _, _⟩ => inferInstanceAs (Decidable (advance = parquetMagicLength))
  | ⟨.write advance, _, _⟩ => inferInstanceAs (Decidable ((advance : ℤ) ≤ maxPacketGroupSize))
  | ⟨.close advance, _, _⟩ =>
    inferInstanceAs (Decidable ((s.groupBytes + advance : ℤ) ≤ maxPacketGroupSize))
  | ⟨.openFile none _, _, _⟩ | ⟨.read _, _, _⟩ | ⟨.testFlag _, _, _⟩ | ⟨.testDay _, _, _⟩
  | ⟨.giveBack _, _, _⟩ | ⟨.enqueue _, _, _⟩ | ⟨.run, _, _⟩ | ⟨.timerTest, _, _⟩
  | ⟨.timerSet, _, _⟩ => .isTrue trivial

/-! ### The flush threshold -/

/-- How far the sink of the open file is where the thread stands: under the flush threshold, or past
it by the last group at most and about to be flushed. -/
def Below (s : SinkWriter Group) : Pc Group → Prop
  | .reading | .ringEmpty | .grouped _ _ _ | .opening _ _ _ | .enqueuing _ _ =>
    s.writer.fileWriter = true → s.writer.sink.size < parquetFileFlushSize
  | .writing _ => s.writer.fileWriter = true ∧ s.writer.sink.size < parquetFileFlushSize
  | .givingBack _ | .measuring => s.writer.sink.size < parquetFileFlushSize + s.groupBytes
  | .flushTest _ => s.writer.sink.size < parquetFileFlushSize ∨
      s.writer.doParquetFileFlush = true ∧ s.writer.sink.size < parquetFileFlushSize + s.groupBytes
  | .flushing flag _ => s.writer.sink.size < parquetFileFlushSize ∨
      flag ≠ 0 ∧ s.writer.sink.size < parquetFileFlushSize + s.groupBytes
  | .closed _ => s.writer.fileWriter = false

/-- The invariant of the sink. -/
structure Capped (s : SinkWriter Group) : Prop where
  capacity : s.writer.fileWriter = true → s.capacity = maxParquetFileSize
  writes : ∀ write ∈ s.writes, write.Fits
  below : Below s s.writer.pc

theorem capped_start : Capped (SinkWriter.start : SinkWriter Group) :=
  ⟨fun hopen ↦ (Bool.false_ne_true hopen).elim, fun _ hwrite ↦ (List.not_mem_nil hwrite).elim,
    fun hopen ↦ (Bool.false_ne_true hopen).elim⟩

variable {env : RecvEnv} {view : Group → PacketGroup} {s : SinkWriter Group}

/-- Writes made in a step are logged behind those before. -/
theorem fits_append {stream : RingOutputStream} {lengths : List ℕ} (h : ∀ write ∈ s.writes, write.Fits)
    (hfit : stream.size + lengths.sum ≤ stream.capacity) :
    ∀ write ∈ s.writes ++ stream.writes lengths, write.Fits := by
  intro write hwrite
  rcases List.mem_append.mp hwrite with hwrite | hwrite
  · exact h write hwrite
  · exact RingOutputStream.fits_of_sum hfit write hwrite

/-- The flush flag is looked at before anything else. -/
theorem runStep_flushTest {w : MemWriter Group} {remainLength : ℤ}
    (hpc : w.pc = .flushTest remainLength) (hflush : w.doParquetFileFlush = true) :
    runStep w = some { w with pc := .flushing 1 .done } := by
  rw [runStep, hpc]
  exact if_pos hflush

/-- The timer only makes a flush more likely. -/
theorem Below.timerSet {pc : Pc Group} (h : Below s pc) {writes : List SinkWrite} :
    Below { s with
      writer := { s.writer with doParquetFileFlush := true, timerPassed := false }
      writes := writes } pc := by
  cases pc with
  | flushTest remainLength => exact h.imp_right fun hpast ↦ ⟨rfl, hpast.2⟩
  | _ => exact h

/-- Every step of a library within its bounds keeps the invariant. -/
theorem Capped.step (h : Capped s) {e : SinkEvent Group} (hallowed : InGroupSize s e)
    {next : SinkWriter Group} (htaken : sinkStep env view s e = some next) : Capped next := by
  obtain ⟨event, lengths, hsum⟩ := e
  obtain ⟨writer, hmem, rfl⟩ := Option.map_eq_some_iff.mp htaken
  have hbelow := h.below
  have hthreshold : parquetFileFlushSize + maxPacketGroupSize = maxParquetFileSize := by decide
  have hnothing : ∀ write ∈ s.writes ++ [], write.Fits := by
    rw [List.append_nil]
    exact h.writes
  cases memStep_move hmem with
  | readNone hpc | readSome group hpc | readAgain stale hpc | sameDay stale group _ _ hpc =>
    rw [hpc] at hbelow
    exact ⟨h.capacity, hnothing, hbelow⟩
  | openWait => exact ⟨h.capacity, hnothing, hbelow⟩
  | giveBackWait group hpc | enqueueWait chunk back hpc => exact ⟨h.capacity, hnothing, hbelow⟩
  | goFlush stale hpc hopen hflush | dayChange stale group _ _ hpc hopen =>
    rw [hpc] at hbelow
    exact ⟨h.capacity, hnothing, Or.inl (hbelow hopen)⟩
  | openFile bucket advance group _ _ hpc hclosed =>
    have hmagic : advance = parquetMagicLength := hallowed
    have hlength : lengths.sum = parquetMagicLength := hsum.trans hmagic
    refine ⟨fun _ ↦ rfl, fits_append h.writes ?_, rfl, ?_⟩
    · show (0 : ℤ) + lengths.sum ≤ maxParquetFileSize
      rw [hlength]
      decide
    · show (advance : ℤ) < parquetFileFlushSize
      rw [hmagic]
      decide
  | writeNothing advance group hpc hrows =>
    rw [hpc] at hbelow
    simp only [appendedTo, hpc, if_pos hrows]
    refine ⟨h.capacity, hnothing, ?_⟩
    show s.writer.sink.size < parquetFileFlushSize + ((0 : ℕ) : ℤ)
    have := hbelow.2
    omega
  | write advance group hpc hrows =>
    rw [hpc] at hbelow
    obtain ⟨hopen, hsize⟩ := hbelow
    have hbytes : (advance : ℤ) ≤ maxPacketGroupSize := hallowed
    have hlength : lengths.sum = advance := hsum
    simp only [appendedTo, hpc, if_neg hrows]
    refine ⟨h.capacity, fits_append h.writes ?_, ?_⟩
    · show s.writer.sink.size + lengths.sum ≤ s.capacity
      rw [hlength, h.capacity hopen]
      omega
    · show s.writer.sink.size + advance < parquetFileFlushSize + advance
      omega
  | giveBack group hpc =>
    rw [hpc] at hbelow
    exact ⟨h.capacity, hnothing, hbelow⟩
  | close advance flag back hpc hflag hopen =>
    rw [hpc] at hbelow
    have hbytes : (s.groupBytes + advance : ℤ) ≤ maxPacketGroupSize := hallowed
    have hlength : lengths.sum = advance := hsum
    refine ⟨fun hopen' ↦ (Bool.false_ne_true hopen').elim, fits_append h.writes ?_, rfl⟩
    show s.writer.sink.size + lengths.sum ≤ s.capacity
    rw [hlength, h.capacity hopen]
    obtain hsize | ⟨-, hsize⟩ := hbelow <;> omega
  | enqueue chunk back hpc =>
    rw [hpc] at hbelow
    refine ⟨h.capacity, hnothing, ?_⟩
    cases back <;> exact hbelow
  | merge group _ _ hpc hopen =>
    rw [hpc] at hbelow
    exact ⟨h.capacity, hnothing, hopen, hbelow hopen⟩
  | measure hpc =>
    rw [hpc] at hbelow
    refine ⟨h.capacity, hnothing, ?_⟩
    by_cases hsize : s.writer.sink.size < parquetFileFlushSize
    · exact Or.inl hsize
    · have hflush : (s.writer.doParquetFileFlush ||
          decide (parquetFileFlushSize ≤ s.writer.sink.size)) = true := by
        rw [decide_eq_true (Int.not_lt.mp hsize), Bool.or_true]
      exact Or.inr ⟨hflush, hbelow⟩
  | flushAll remainLength hpc hflush =>
    rw [hpc] at hbelow
    exact ⟨h.capacity, hnothing, hbelow.imp_right fun hpast ↦ ⟨one_ne_zero, hpast.2⟩⟩
  | flushChunk remainLength hpc hflush hremain =>
    rw [hpc] at hbelow
    refine ⟨h.capacity, hnothing, Or.inl (hbelow.resolve_right fun hpast ↦ ?_)⟩
    exact Bool.false_ne_true (hflush.symm.trans hpast.1)
  | flushNothing remainLength hpc =>
    rw [hpc] at hbelow
    refine ⟨h.capacity, hnothing, fun _ ↦ hbelow.resolve_right fun hpast ↦ ?_⟩
    have hflushed := runStep_flushTest hpc hpast.1
    exact nomatch congrArg (Option.map MemWriter.pc) (hmem.symm.trans hflushed)
  | buildPartial bucket back hpc hbuffer =>
    rw [hpc] at hbelow
    exact ⟨h.capacity, hnothing, fun _ ↦ hbelow.resolve_right fun hpast ↦ hpast.1 rfl⟩
  | buildFinal bucket back hpc hbuffer =>
    rw [hpc] at hbelow
    refine ⟨h.capacity, hnothing, fun hopen ↦ ?_⟩
    exact (Bool.false_ne_true (hbelow.symm.trans hopen)).elim
  | timerTest => exact ⟨h.capacity, hnothing, hbelow⟩
  | timerSet hpassed =>
    exact ⟨h.capacity, hnothing, hbelow.timerSet⟩

/-- In every run every call of `Write` fits its sink. Assumes: a Parquet library whose bytes for a
packet group, with those of the end of the file, are at most `MAX_PACKET_GROUP_SIZE`. -/
theorem writes_fit (hrun : Run (sinkStep env view) InGroupSize .start s) :
    ∀ write ∈ s.writes, write.stream.size + write.length ≤ write.stream.capacity :=
  (hrun.invariant capped_start fun _ _ _ h hallowed htaken ↦ h.step hallowed htaken).writes

/-- A file of one group that is written in two pieces and closed for the timer. -/
def timerFile : List (SinkEvent PacketGroup) :=
  [⟨.read (some { exampleGroup with addRows := 1 }), [], rfl⟩, ⟨.testDay exampleTm, [], rfl⟩,
    ⟨.openFile (some 3) 4, [4], rfl⟩, ⟨.write 100000000, [1000, 99999000], rfl⟩,
    ⟨.giveBack true, [], rfl⟩, ⟨.timerTest, [], rfl⟩, ⟨.timerSet, [], rfl⟩, ⟨.run, [], rfl⟩,
    ⟨.run, [], rfl⟩, ⟨.close 1000, [1000], rfl⟩]

theorem writes_fit_timerFile :
    ∃ s : SinkWriter PacketGroup, (s.writes.map SinkWrite.length) = [4, 1000, 99999000, 1000] ∧
      ∀ write ∈ s.writes, write.stream.size + write.length ≤ write.stream.capacity := by
  have hmap : (execute (sinkStep exampleEnv id) InGroupSize .start timerFile).map
      (fun s ↦ s.writes.map SinkWrite.length) = some [4, 1000, 99999000, 1000] := by
    decide +kernel
  obtain ⟨s, hexecute, hlengths⟩ := Option.map_eq_some_iff.mp hmap
  exact ⟨s, hlengths, writes_fit (run_of_execute hexecute)⟩

end CppLearn.RecvEngine.SinkCapacity
