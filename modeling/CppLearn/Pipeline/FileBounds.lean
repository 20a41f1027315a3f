import CppLearn.Pipeline.StoreScan
import CppLearn.RecvEngine.MemParquetWriter

/-!
# The times in the names of parquet files

The receiver folds the time of every packet into the bounds of its group, and a mem writer folds the
bounds of every group into those of its file. The last chunk of the file takes them to the store,
where they become its name. `Bounded` is the invariant of the writer: the bounds it keeps are those
of the groups merged so far, which are the groups written whenever a chunk is made.

`chunk_bounds_packets` follows the packets through both: the times of the last chunk are the least
and the greatest second of the packets in the file, so that the test of a scan finds it for every
window with one of them.
-/

set_option autoImplicit false
set_option relaxedAutoImplicit false

namespace CppLearn.Pipeline.FileBounds

open Foundation.DecimalText Foundation.GuardedRun Foundation.RunningBounds Foundation.TextSearch
open RecvEngine.HdfsParquetWriter (fileName nameSize pathName pathName_of_lt)
open RecvEngine.MemParquetWriter RecvEngine.PacketDefine RecvEngine.PacketReceiver
open SearchEngine.HdfsParquetReader SearchEngine.Utils StoreScan

/-! ### The bounds of a file in memory -/

/-- The earliest start and the latest end of some groups. -/
structure Spans (groups : List PacketGroup) (startTime endTime : ℤ) : Prop where
  start : IsLeast {time | time ∈ groups.map PacketGroup.startTime} startTime
  stop : IsGreatest {time | time ∈ groups.map PacketGroup.endTime} endTime

theorem Spans.singleton (group : PacketGroup) :
    Spans [group] group.startTime group.endTime :=
  ⟨isLeast_singleton _, isGreatest_singleton _⟩

/-- The merge of one more group. -/
theorem Spans.merge {groups : List PacketGroup} {startTime endTime : ℤ}
    (h : Spans groups startTime endTime) (group : PacketGroup) :
    Spans (groups ++ [group]) (min group.startTime startTime) (max group.endTime endTime) := by
  constructor <;> rw [List.map_append, List.map_singleton]
  · exact isLeast_append_min h.start _
  · exact isGreatest_append_max h.stop _

/-- The group whose times have been merged and that is about to be written. -/
def mergedGroup : Pc PacketGroup → List PacketGroup
  | .writing group => [group]
  | _ => []

/-- The group read is one of those handed over, with its own times. -/
def ReadFrom (handedOver : List PacketGroup) (group : PacketGroup) (startTime endTime : ℤ) : Prop :=
  group ∈ handedOver ∧ startTime = group.startTime ∧ endTime = group.endTime

/-- The same of the group that waits while its predecessors are flushed. -/
def BackFrom (handedOver : List PacketGroup) : Back PacketGroup → Prop
  | .done => True
  | .opening group startTime endTime => ReadFrom handedOver group startTime endTime

/-- What holds of the bounds where the writer stands. -/
def PcBounds (handedOver : List PacketGroup) (w : MemWriter PacketGroup) : Pc PacketGroup → Prop
  | .grouped group startTime endTime => ReadFrom handedOver group startTime endTime
  | .opening group startTime endTime => ReadFrom handedOver group startTime endTime
  | .writing group => group ∈ handedOver
  | .flushing _ back => BackFrom handedOver back
  | .closed back =>
    BackFrom handedOver back ∧ Spans w.file.groups w.fileStartTime w.fileEndTime
  | .enqueuing chunk back =>
    BackFrom handedOver back ∧
      (chunk.flag ≠ 0 → Spans w.file.groups chunk.startTime chunk.endTime)
  | _ => True

/-- The last chunk of a file has the bounds of the groups written to it. -/
def LastSpans (file : FileLog PacketGroup) : Prop :=
  ∃ front last, file.chunks = front ++ [last] ∧ Spans file.groups last.startTime last.endTime

/-- The invariant of the writer: its file bounds are those of the groups merged. -/
structure Bounded (handedOver : List PacketGroup) (w : MemWriter PacketGroup) : Prop where
  pc : PcBounds handedOver w w.pc
  spans : w.fileWriter = true →
    Spans (w.file.groups ++ mergedGroup w.pc) w.fileStartTime w.fileEndTime
  written : ∀ group ∈ w.file.groups, group ∈ handedOver
  stored : ∀ file ∈ w.stored, LastSpans file ∧ ∀ group ∈ file.groups, group ∈ handedOver

/-- A mem writer reads groups that have been handed over. -/
def readsFrom (handedOver : List PacketGroup) (_ : MemWriter PacketGroup)
    (event : MemEvent PacketGroup) : Prop :=
  ∀ group, event = .read (some group) → group ∈ handedOver

section Step

variable {env : RecvEnv} {handedOver : List PacketGroup} {w next : MemWriter PacketGroup}

theorem bounded_start : Bounded handedOver .start :=
  ⟨trivial, fun hopen ↦ (Bool.false_ne_true hopen).elim,
    fun _ hgroup ↦ (List.not_mem_nil hgroup).elim, fun _ hfile ↦ (List.not_mem_nil hfile).elim⟩

theorem mergedGroup_pc (back : Back PacketGroup) : mergedGroup back.pc = [] := by
  cases back <;> rfl

/-- A flush may come back to the group that waits. -/
theorem pcBounds_pc {back : Back PacketGroup} (hback : BackFrom handedOver back)
    (w : MemWriter PacketGroup) : PcBounds handedOver w back.pc := by
  cases back with
  | done => trivial
  | opening group startTime endTime => exact hback

/-- The ring accepts a chunk, and a final one ends its file. -/
theorem Bounded.enqueue (h : Bounded handedOver w) {chunk : ParquetMemChunk}
    {back : Back PacketGroup} (hpc : w.pc = .enqueuing chunk back) :
    Bounded handedOver { logChunk w chunk with
      pc := back.pc
      alreadyFlushedSize := w.alreadyFlushedSize + chunk.length } := by
  have hfacts := h.pc
  rw [hpc] at hfacts
  obtain ⟨hback, hchunk⟩ := hfacts
  have hspans := h.spans
  rw [hpc] at hspans
  refine ⟨pcBounds_pc hback _, fun hopen ↦ ?_, h.written, fun file hfile ↦ ?_⟩
  · show Spans (w.file.groups ++ mergedGroup back.pc) w.fileStartTime w.fileEndTime
    rw [mergedGroup_pc]
    exact hspans hopen
  · by_cases hflag : chunk.flag = 0
    · simp only [logChunk, hflag, ne_eq, not_true_eq_false, if_false] at hfile
      exact h.stored file hfile
    · simp only [logChunk, hflag, ne_eq, not_false_eq_true, if_true, List.mem_append,
        List.mem_singleton] at hfile
      rcases hfile with hfile | rfl
      · exact h.stored file hfile
      · exact ⟨⟨w.file.chunks, chunk, rfl, hchunk hflag⟩, h.written⟩

/-- Every step keeps the invariant. Assumes: groups handed over have rows. -/
theorem Bounded.step (hrows : ∀ group ∈ handedOver, group.addRows ≠ 0) (h : Bounded handedOver w)
    {event : MemEvent PacketGroup} (hreads : readsFrom handedOver w event)
    (hmove : MemMove env id w event next) : Bounded handedOver next := by
  have hfacts := h.pc
  have hspans := h.spans
  cases hmove with
  | openWait | giveBackWait | enqueueWait => exact h
  | timerTest | timerSet => exact ⟨hfacts, hspans, h.written, h.stored⟩
  | readSome group hpc =>
    rw [hpc] at hspans
    exact ⟨⟨hreads group rfl, rfl, rfl⟩, hspans, h.written, h.stored⟩
  | dayChange stale group startTime endTime hpc =>
    rw [hpc] at hspans hfacts
    exact ⟨hfacts, hspans, h.written, h.stored⟩
  | sameDay stale group startTime endTime hpc =>
    rw [hpc] at hspans hfacts
    exact ⟨hfacts, hspans, h.written, h.stored⟩
  | openFile bucket advance group startTime endTime hpc hclosed =>
    rw [hpc] at hfacts
    obtain ⟨hmem, rfl, rfl⟩ := hfacts
    exact ⟨hmem, fun _ ↦ Spans.singleton group, fun _ hgroup ↦ (List.not_mem_nil hgroup).elim,
      h.stored⟩
  | merge group startTime endTime hpc hopen =>
    rw [hpc] at hfacts hspans
    obtain ⟨hmem, rfl, rfl⟩ := hfacts
    have hfile : Spans (w.file.groups ++ []) w.fileStartTime w.fileEndTime := hspans hopen
    rw [List.append_nil] at hfile
    exact ⟨hmem, fun _ ↦ hfile.merge group, h.written, h.stored⟩
  | writeNothing advance group hpc hnone =>
    rw [hpc] at hfacts
    exact (hrows group hfacts hnone).elim
  | write advance group hpc =>
    rw [hpc] at hfacts hspans
    refine ⟨trivial, fun hopen ↦ ?_, fun other hother ↦ ?_, h.stored⟩
    · show Spans (w.file.groups ++ [group] ++ []) w.fileStartTime w.fileEndTime
      rw [List.append_nil]
      exact hspans hopen
    · rcases List.mem_append.mp hother with hother | hother
      · exact h.written other hother
      · rw [List.mem_singleton.mp hother]
        exact hfacts
  | close advance flag back hpc hflag hopen =>
    rw [hpc] at hfacts hspans
    have hfile : Spans (w.file.groups ++ []) w.fileStartTime w.fileEndTime := hspans hopen
    rw [List.append_nil] at hfile
    exact ⟨⟨hfacts, hfile⟩, fun hopen ↦ (Bool.false_ne_true hopen).elim, h.written, h.stored⟩
  | buildPartial bucket back hpc =>
    rw [hpc] at hfacts hspans
    exact ⟨⟨hfacts, fun hflag ↦ (hflag rfl).elim⟩, hspans, h.written, h.stored⟩
  | buildFinal bucket back hpc =>
    rw [hpc] at hfacts hspans
    exact ⟨⟨hfacts.1, fun _ ↦ hfacts.2⟩, hspans, h.written, h.stored⟩
  | enqueue chunk back hpc => exact h.enqueue hpc
  -- the other steps neither read a group nor touch the bounds
  | _ =>
    rw [‹w.pc = _›] at hspans
    exact ⟨trivial, hspans, h.written, h.stored⟩

end Step

/-! ### The packets of a file -/

/-- The seconds of the packets in some groups. -/
def seconds (groups : List PacketGroup) : List ℤ :=
  groups.flatMap fun group ↦ group.rows.map PacketRow.second

/-- Assumes: groups that keep the bounds of their rows. The bounds of the groups are those of all
rows. -/
theorem Spans.seconds {groups : List PacketGroup} {startTime endTime : ℤ}
    (h : Spans groups startTime endTime)
    (hgroups : ∀ group ∈ groups, Summed group ∧ group.addRows ≠ 0) :
    IsLeast {second | second ∈ seconds groups} startTime ∧
      IsGreatest {second | second ∈ seconds groups} endTime := by
  constructor
  · exact isLeast_flatMap
      (fun group hgroup ↦ ((hgroups group hgroup).1.span (hgroups group hgroup).2).1) h.start
  · exact isGreatest_flatMap
      (fun group hgroup ↦ ((hgroups group hgroup).1.span (hgroups group hgroup).2).2) h.stop

/-- A second is a natural number that a `time_t` can hold. -/
theorem exists_nat_of_mem_seconds {groups : List PacketGroup} {second : ℤ}
    (hsecond : second ∈ seconds groups) : ∃ value : ℕ, value < 2 ^ 63 ∧ second = value := by
  obtain ⟨group, -, hgroup⟩ := List.mem_flatMap.mp hsecond
  obtain ⟨row, -, rfl⟩ := List.mem_map.mp hgroup
  refine ⟨(row.time >>> 32).toNat, ?_, rfl⟩
  have hbound := (packetSecond_bounds row.time).2
  simp only [packetSecond, llongMax] at hbound
  omega

/-- The test of a scan finds the packets of a file by the times of a chunk: for every window with a
second of them, and in a directory whose path has no dash and leaves room for the name of the file,
the entry under which the writer leaves the file is pushed. -/
def Findable (groups : List PacketGroup) (chunk : ParquetMemChunk) : Prop :=
  ∀ second ∈ seconds groups, ∀ scan : ScanEnv, scan.stime ≤ second → second ≤ scan.etime →
    (scan.stime ≤ chunk.endTime ∧ chunk.startTime ≤ scan.etime) ∧
      ∀ (directory : Text) (id : BitVec 64) (held : ℤ × ℤ) (st : ScanState), '-' ∉ directory →
        (directory ++ '/' :: fileName chunk.startTime chunk.endTime id).length < nameSize →
        scanEntry scan directory held st (.file (fileName chunk.startTime chunk.endTime id)) =
          some ((chunk.startTime, chunk.endTime),
            st.push (pathName directory chunk.startTime chunk.endTime id))

theorem findable_of_bounds {groups : List PacketGroup} {chunk : ParquetMemChunk}
    (hstart : IsLeast {second | second ∈ seconds groups} chunk.startTime)
    (hstop : IsGreatest {second | second ∈ seconds groups} chunk.endTime) :
    Findable groups chunk := by
  intro second hsecond scan hstime hetime
  have htest : scan.stime ≤ chunk.endTime ∧ chunk.startTime ≤ scan.etime :=
    ⟨hstime.trans (hstop.2 hsecond), (hstart.2 hsecond).trans hetime⟩
  refine ⟨htest, fun directory id held st hdash hfits ↦ ?_⟩
  obtain ⟨start, hstartLt, hstartEq⟩ := exists_nat_of_mem_seconds hstart.1
  obtain ⟨stop, hstopLt, hstopEq⟩ := exists_nat_of_mem_seconds hstop.1
  have hname : fileName chunk.startTime chunk.endTime id = decimal start ++ '-' ::
      (decimal stop ++ '-' :: (decimal id.toNat ++ ".parquet".toList)) := by
    rw [fileName, hstartEq, hstopEq, percentLu_of_lt hstartLt, percentLu_of_lt hstopLt]
  have htimes : parquetFilePathToTimestamp
      (entryPath directory (fileName chunk.startTime chunk.endTime id)) held.1 held.2 =
        some (chunk.startTime, chunk.endTime) := by
    have hend : endRead directory stop held.2 = chunk.endTime := by
      rw [endRead, strchr_of_not_mem hdash, hstopEq]
    rw [entryPath, hname, parquetFilePathToTimestamp_eq directory hstartLt hstopLt
      (endsDigits_cons _ (by decide)) (slash_not_mem_suffix id), hend, hstartEq]
  rw [scanEntry, htimes, Option.map_some, if_pos htest, pathName_of_lt hfits]
  rfl

/-- For every run of the receiver and every run of a mem writer on the groups it has handed over,
the last chunk of a file handed over has the flag, and its times are the least and the greatest
second of the packets in the file, so that a scan finds it by them. -/
theorem chunk_bounds_packets {env : RecvEnv} {inputs : List RecvInput} {packetHeader : PacketHead}
    {configs : Configs} {arrivals : List Arrival} {st : Receiver}
    (hrecv : recvRun env inputs (Receiver.start packetHeader configs arrivals) = some st)
    {w : MemWriter PacketGroup}
    (hrun : Run (memStep env id) (readsFrom st.handedOver) .start w) :
    ∀ file ∈ w.stored, ∃ front last, file.chunks = front ++ [last] ∧ last.flag = 1 ∧
      IsLeast {second | second ∈ seconds file.groups} last.startTime ∧
      IsGreatest {second | second ∈ seconds file.groups} last.endTime ∧
      Findable file.groups last := by
  have hgroups := ((conserved_start packetHeader configs arrivals).recvRun hrecv).handedOver_summed
  have htracked : Tracked w :=
    hrun.invariant tracked_start fun _ _ _ h _ htaken ↦ h.step (memStep_move htaken)
  have hbounded : Bounded st.handedOver w :=
    hrun.invariant bounded_start fun _ _ _ h hreads htaken ↦
      h.step (fun group hgroup ↦ (hgroups group hgroup).2) hreads (memStep_move htaken)
  intro file hfile
  obtain ⟨⟨front, last, hchunks, hspans⟩, hwritten⟩ := hbounded.stored file hfile
  obtain ⟨front', last', hchunks', hflag, -⟩ := (htracked.stored file hfile).flags
  obtain ⟨-, rfl⟩ := List.append_singleton_inj.mp (hchunks.symm.trans hchunks')
  obtain ⟨hstart, hstop⟩ := hspans.seconds fun group hgroup ↦ hgroups group (hwritten group hgroup)
  exact ⟨front, last, hchunks, hflag, hstart, hstop, findable_of_bounds hstart hstop⟩

/-- The receiver after two packets, five seconds apart, and the timer. -/
def twoPackets : Option Receiver :=
  recvRun exampleEnv [exampleInput false, exampleInput true]
    (Receiver.start exampleHead exampleConfigs
      [.message { exampleHead with time := 0x59A8A28A00000000 }.toBytes [[1]],
        .message exampleHead.toBytes [[2]]])

/-- The group of the two packets. -/
def twoPacketsGroup : PacketGroup :=
  ((twoPackets.map Receiver.handedOver).bind List.head?).getD exampleGroup

/-- A mem writer writes a group into a file of its own, which the timer has flushed. -/
def oneFile (group : PacketGroup) : List (MemEvent PacketGroup) :=
  [.read (some group), .testDay exampleTm, .openFile (some 0) 4, .write 100, .giveBack true, .run,
    .timerTest, .timerSet, .run, .close 10, .run, .enqueue true]

/-- The file of the two packets has their times, and is found by them. -/
theorem chunk_bounds_packets_twoPackets :
    ∃ st w, twoPackets = some st ∧ Run (memStep exampleEnv id) (readsFrom st.handedOver) .start w ∧
      (w.stored.map fun file ↦ file.chunks.map fun chunk ↦ (chunk.startTime, chunk.endTime)) =
        [[(0x59A8A285, 0x59A8A28A)]] ∧
      ∀ file ∈ w.stored, ∃ front last, file.chunks = front ++ [last] ∧ last.flag = 1 ∧
        IsLeast {second | second ∈ seconds file.groups} last.startTime ∧
        IsGreatest {second | second ∈ seconds file.groups} last.endTime ∧
        Findable file.groups last := by
  obtain ⟨st, hrecv, hhandedOver⟩ : ∃ st, twoPackets = some st ∧
      st.handedOver = [twoPacketsGroup] := ⟨_, rfl, rfl⟩
  obtain ⟨w, hexecute, hstored⟩ : ∃ w, execute (memStep exampleEnv id) anyEvent .start
      (oneFile twoPacketsGroup) = some w ∧ (w.stored.map fun file ↦ file.chunks.map fun chunk ↦
        (chunk.startTime, chunk.endTime)) = [[(0x59A8A285, 0x59A8A28A)]] := ⟨_, rfl, rfl⟩
  have hreads : ∀ event ∈ oneFile twoPacketsGroup, ∀ w, readsFrom st.handedOver w event := by
    rintro event hevent w group rfl
    rw [hhandedOver]
    simpa [oneFile] using hevent
  have hrun := run_of_execute_of_forall hreads hexecute
  exact ⟨st, w, hrecv, hrun, hstored, chunk_bounds_packets hrecv hrun⟩

end CppLearn.Pipeline.FileBounds
