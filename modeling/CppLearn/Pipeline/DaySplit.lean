import CppLearn.Pipeline.FileBounds
import CppLearn.RecvEngine.PayloadSlots

/-!
# Splitting by days

With `m_enable_second_level_dir` set the receiver hands its group over before a packet of another
day, and a mem writer closes its file before a group of another day. The receiver calls
`is_different_day` with the start time of the group, a second, and the time of the packet, a second
in the upper half of a word. The mem writer calls it with two seconds.

Groups and files are of one day each, and a group is handed over exactly for a packet of another day,
if in every call the raw time of the packet has the answer that its second would have
(`daysSplit_iff`).
-/

set_option autoImplicit false
set_option relaxedAutoImplicit false

namespace CppLearn.Pipeline.DaySplit

open Foundation.GuardedRun Foundation.LocalTime
open FileBounds
open RecvEngine.MemParquetWriter RecvEngine.PacketDefine RecvEngine.PacketReceiver
open RecvEngine.PayloadSlots

/-! ### Local days -/

/-- The local day of a second: year, month and day of the month. -/
def localDay (zone : TimeZone) (second : ℤ) : Option (ℤ × ℤ × ℤ) :=
  (zone.localtime second).map fun tm ↦ (tm.year, tm.mon, tm.mday)

/-- Every second that a packet can have has a local day. -/
def HasDays (zone : TimeZone) : Prop :=
  ∀ second : ℤ, 0 ≤ second → second < 2 ^ 32 → (zone.localtime second).isSome = true

/-- All seconds are of one local day. -/
def SingleDay (zone : TimeZone) (seconds : List ℤ) : Prop :=
  ∀ first ∈ seconds, ∀ second ∈ seconds, localDay zone first = localDay zone second

/-- On two seconds that have a local day `is_different_day` compares these days. -/
theorem isDifferentDay_iff {zone : TimeZone} {t1 t2 : ℤ} (h1 : (zone.localtime t1).isSome = true)
    (h2 : (zone.localtime t2).isSome = true) (stale : Tm × Tm) :
    isDifferentDay zone stale t1 t2 = true ↔ localDay zone t1 ≠ localDay zone t2 := by
  obtain ⟨tm1, htm1⟩ := Option.isSome_iff_exists.mp h1
  obtain ⟨tm2, htm2⟩ := Option.isSome_iff_exists.mp h2
  simp only [isDifferentDay, localDay, htm1, htm2, Option.getD_some, Option.map_some,
    Bool.or_eq_true, bne_iff_ne, ne_eq, Option.some.injEq, Prod.mk.injEq]
  tauto

/-- The second of a packet is a 32-bit number. -/
theorem HasDays.packetSecond {zone : TimeZone} (h : HasDays zone) (time : BitVec 64) :
    (zone.localtime (packetSecond time)).isSome = true := by
  have hlt := time.isLt
  have hsecond := packetSecond_eq time
  refine h _ ?_ ?_ <;> omega

/-! ### Days in the receiver -/

/-- All rows of a group are of the local day of its start time. -/
def OneDay (zone : TimeZone) (pg : PacketGroup) : Prop :=
  ∀ row ∈ pg.rows, localDay zone row.second = localDay zone pg.startTime

/-- The head that a call receives, where it receives a part with the length of a head. -/
def receivedHead (st : Receiver) : Option PacketHead :=
  if (zmqRecv st.socket).1.map List.length = some packetHeaderLen then
    some (storeHead st.packetHeader (zmqRecv st.socket).1)
  else none

/-- The receiver when a call comes to the day change test. -/
def atDayTest (input : RecvInput) (st : Receiver) : Receiver :=
  onTimeout input.firesBeforeDayTest
    { st with
      socket := (zmqRecv st.socket).2
      packetHeader := storeHead st.packetHeader (zmqRecv st.socket).1 }

/-- A call that receives the head of a packet flushes the group held, if it has rows, for a day
change exactly if the packet is of another local day than the rows. -/
def SplitsOnDays (env : RecvEnv) (st : Receiver) (input : RecvInput) : Prop :=
  ∀ ph ∈ receivedHead st, ∀ pg ∈ st.packetGroup, pg.addRows ≠ 0 →
    ∀ flushed, dayChangeFlush env input (atDayTest input st) = some flushed →
      (flushed.handedOver = st.handedOver ++ [pg] ↔
        ∀ row ∈ pg.rows, localDay env.zone row.second ≠ localDay env.zone (packetSecond ph.time))

/-- In a call that receives the head of a packet with rows in the group held, `is_different_day`
answers for the time of the packet as it does for its second. -/
def ComparesSeconds (env : RecvEnv) (st : Receiver) (input : RecvInput) : Prop :=
  ∀ ph ∈ receivedHead st, ∀ pg ∈ st.packetGroup, pg.addRows ≠ 0 →
    isDifferentDay env.zone input.staleTm pg.startTime ph.time.toInt =
      isDifferentDay env.zone input.staleTm pg.startTime (packetSecond ph.time)

/-- What holds between two calls while every one compares seconds. -/
def Split (zone : TimeZone) (st : Receiver) : Prop :=
  Conserved st ∧ ∀ pg ∈ groups st, OneDay zone pg

section Receiver

variable {env : RecvEnv} {input : RecvInput} {st next flushed : Receiver}

/-- The start time of a group with rows is the second of one of them. -/
theorem exists_row_of_summed {pg : PacketGroup} (h : Summed pg) (hrows : pg.addRows ≠ 0) :
    ∃ row ∈ pg.rows, row.second = pg.startTime := by
  obtain ⟨row, hrow, hsecond⟩ := List.mem_map.mp (h.span hrows).1.1
  exact ⟨row, hrow, hsecond⟩

theorem HasDays.startTime (hzone : HasDays env.zone) {pg : PacketGroup} (h : Summed pg)
    (hrows : pg.addRows ≠ 0) : (env.zone.localtime pg.startTime).isSome = true := by
  obtain ⟨row, -, hsecond⟩ := exists_row_of_summed h hrows
  rw [← hsecond]
  exact hzone.packetSecond row.time

/-- The day change test on a group with rows. -/
theorem dayChangeFlush_handedOver (hdirs : env.enableSecondLevelDir = true) {pg : PacketGroup}
    (hheld : st.packetGroup = some pg) (hrows : pg.addRows ≠ 0)
    (hflush : dayChangeFlush env input st = some flushed) :
    flushed.handedOver = st.handedOver ++ [pg] ↔
      isDifferentDay env.zone input.staleTm pg.startTime st.packetHeader.time.toInt = true := by
  simp only [dayChangeFlush, hheld, hdirs, Bool.true_and] at hflush
  split_ifs at hflush with hday
  · obtain ⟨⟨-, -, hhandedOver⟩ | ⟨hnone, -⟩, -⟩ := packetGroupFlushToMem_eq hflush
    · exact iff_of_true hhandedOver hday
    · exact (hrows hnone).elim
  · cases hflush
    refine iff_of_false (fun heq ↦ ?_) hday
    exact List.cons_ne_nil _ _ (List.self_eq_append_right.mp heq)

/-- The day change test moves a group, if it does anything. -/
theorem groups_dayChangeFlush (hflush : dayChangeFlush env input st = some flushed) :
    groups flushed = groups st := by
  unfold dayChangeFlush at hflush
  split at hflush
  · cases hflush
    rfl
  · next pg hpg =>
    split_ifs at hflush
    · obtain ⟨⟨-, hheld, hhandedOver⟩ | ⟨-, hheld, hhandedOver⟩, -⟩ :=
        packetGroupFlushToMem_eq hflush
      · simp [groups, hheld, hhandedOver, hpg]
      · simp [groups, hheld, hhandedOver, hpg]
    · cases hflush
      rfl

theorem groups_finalFlush {pg : PacketGroup} (hflush : finalFlush input pg st = some next) :
    groups next = st.handedOver ++ [pg] := by
  unfold finalFlush at hflush
  split_ifs at hflush
  · obtain ⟨⟨-, hheld, hhandedOver⟩ | ⟨-, hheld, hhandedOver⟩, -⟩ :=
      packetGroupFlushToMem_eq hflush
    · simp [groups, hheld, hhandedOver]
    · simp [groups, hheld, hhandedOver]
  · cases hflush
    rfl

/-- A group with rows that is still held after the test has passed it. -/
theorem heldPacketGroup_of_rows (hdirs : env.enableSecondLevelDir = true)
    (hflush : dayChangeFlush env input st = some flushed)
    (hrows : (heldPacketGroup input flushed).addRows ≠ 0) :
    st.packetGroup = some (heldPacketGroup input flushed) ∧
      isDifferentDay env.zone input.staleTm (heldPacketGroup input flushed).startTime
        st.packetHeader.time.toInt = false := by
  cases hheld : st.packetGroup with
  | none =>
    simp only [dayChangeFlush, hheld] at hflush
    cases hflush
    rw [heldPacketGroup, hheld] at hrows
    exact (hrows rfl).elim
  | some pg =>
    simp only [dayChangeFlush, hheld, hdirs, Bool.true_and] at hflush
    split_ifs at hflush with hday
    · obtain ⟨⟨-, hnone, -⟩ | ⟨hempty, hsame, -⟩, -⟩ := packetGroupFlushToMem_eq hflush
      · rw [heldPacketGroup, hnone] at hrows
        exact (hrows rfl).elim
      · rw [heldPacketGroup, hsame] at hrows
        exact (hrows hempty).elim
    · cases hflush
      have hpg : heldPacketGroup input st = pg := by rw [heldPacketGroup, hheld]
      rw [hpg]
      exact ⟨rfl, Bool.eq_false_iff.mpr hday⟩

/-- A packet of the day of the group, or the first one. -/
theorem OneDay.add {zone : TimeZone} {pg : PacketGroup} (h : OneDay zone pg)
    (hsummed : Summed pg) {ph : PacketHead} (part : Part)
    (hday : pg.addRows ≠ 0 → localDay zone pg.startTime = localDay zone (packetSecond ph.time)) :
    OneDay zone (addToPacketGroup (storePayload pg part) ph part.length) := by
  have hstart : (addToPacketGroup (storePayload pg part) ph part.length).startTime =
      min pg.startTime (packetSecond ph.time) := rfl
  intro row hrow
  rw [rows_addToPacketGroup] at hrow
  rw [hstart]
  by_cases hrows : pg.addRows = 0
  · have hnone : pg.rows = [] := by simp [PacketGroup.rows, hrows]
    have hmax : pg.startTime = llongMax := by rw [hsummed.startTime_eq, hnone]; rfl
    rw [hnone, List.nil_append, List.mem_singleton] at hrow
    rw [hrow, hmax, min_eq_right (packetSecond_bounds ph.time).2]
    rfl
  · have hmin : localDay zone (min pg.startTime (packetSecond ph.time)) =
        localDay zone pg.startTime := by
      rcases min_choice pg.startTime (packetSecond ph.time) with heq | heq
      · rw [heq]
      · rw [heq, hday hrows]
    rw [hmin]
    rcases List.mem_append.mp hrow with hrow | hrow
    · exact h row hrow
    · rw [List.mem_singleton.mp hrow, hday hrows]
      rfl

/-- What a call does to the groups. -/
theorem groups_recvPacket (hrecv : recvPacket env input st = some next) :
    ∃ flushed, dayChangeFlush env input (atDayTest input st) = some flushed ∧
      groups next = flushed.handedOver ++
        [if (receivedHead st).isSome then (recvPayload (heldPacketGroup input flushed) flushed).1
          else heldPacketGroup input flushed] := by
  simp only [recvPacket, Option.bind_eq_bind, Option.bind_eq_some_iff] at hrecv
  obtain ⟨flushed, hday, last, hfinal, hnext⟩ := hrecv
  cases hnext
  refine ⟨flushed, hday, ?_⟩
  show groups last = _
  rw [groups_finalFlush hfinal, receivedHead]
  split_ifs with hhead
  · congr 1
    show (recvPayload (heldPacketGroup input flushed) flushed).2.handedOver = _
    unfold recvPayload
    split <;> rfl
  · simp_all
  · simp_all
  · rfl

/-- One call that compares seconds keeps the groups of one day each. -/
theorem Split.recvPacket (hdirs : env.enableSecondLevelDir = true) (hzone : HasDays env.zone)
    (h : Split env.zone st) (hcompares : ComparesSeconds env st input)
    (hrecv : recvPacket env input st = some next) : Split env.zone next := by
  obtain ⟨flushed, hday, hgroups⟩ := groups_recvPacket hrecv
  refine ⟨h.1.recvPacket hrecv, ?_⟩
  have hatTest : Conserved (atDayTest input st) := by
    refine Conserves.onTimeout ?_ _
    exact Conserves.congr h.1 rfl rfl
  have hflushed : Conserved flushed := hatTest.dayChangeFlush hday
  have hsame : groups flushed = groups st := (groups_dayChangeFlush hday).trans rfl
  have hheldSummed := (hflushed.heldPacketGroup input).held_summed _ rfl
  have hheld : OneDay env.zone (heldPacketGroup input flushed) := by
    cases hnone : flushed.packetGroup with
    | none =>
      rw [heldPacketGroup, hnone]
      exact fun row hrow ↦ (List.not_mem_nil hrow).elim
    | some pg =>
      rw [heldPacketGroup, hnone]
      refine h.2 pg (hsame ▸ ?_)
      rw [groups, hnone]
      exact List.mem_append_right _ (List.mem_singleton.mpr rfl)
  rw [hgroups]
  intro pg hpg
  rcases List.mem_append.mp hpg with hpg | hpg
  · exact h.2 pg (hsame ▸ List.mem_append_left _ hpg)
  rw [List.mem_singleton.mp hpg]
  cases hhead : receivedHead st with
  | none => exact hheld
  | some ph =>
    have hheader : flushed.packetHeader = ph := by
      rw [(dayChangeFlush_eq hday).2.2]
      rw [receivedHead] at hhead
      split_ifs at hhead
      exact Option.some.inj hhead
    simp only [Option.isSome_some, if_true]
    unfold recvPayload
    split
    · exact hheld
    · next part socket hpart =>
      refine hheld.add hheldSummed part fun hrows ↦ ?_
      obtain ⟨hbefore, htest⟩ := heldPacketGroup_of_rows hdirs hday hrows
      have hheaderTest : (atDayTest input st).packetHeader = ph := by
        rw [← hheader, (dayChangeFlush_eq hday).2.2]
      rw [hheaderTest, hcompares ph hhead _ hbefore hrows] at htest
      rw [hheader]
      by_contra hne
      have htrue := (isDifferentDay_iff (hzone.startTime hheldSummed hrows)
        (hzone.packetSecond ph.time) input.staleTm).mpr hne
      exact Bool.false_ne_true (htest.symm.trans htrue)

/-- A call splits on days exactly if it compares seconds. -/
theorem splitsOnDays_iff (hdirs : env.enableSecondLevelDir = true) (hzone : HasDays env.zone)
    (h : Split env.zone st) (hrecv : recvPacket env input st = some next) :
    SplitsOnDays env st input ↔ ComparesSeconds env st input := by
  obtain ⟨flushed, hday, -⟩ := groups_recvPacket hrecv
  have hcall (ph : PacketHead) (hhead : receivedHead st = some ph) (pg : PacketGroup)
      (hheld : st.packetGroup = some pg) (hrows : pg.addRows ≠ 0) :
      ((flushed.handedOver = st.handedOver ++ [pg] ↔
        ∀ row ∈ pg.rows, localDay env.zone row.second ≠ localDay env.zone (packetSecond ph.time)) ↔
      isDifferentDay env.zone input.staleTm pg.startTime ph.time.toInt =
        isDifferentDay env.zone input.staleTm pg.startTime (packetSecond ph.time)) := by
    have hheader : (atDayTest input st).packetHeader = ph := by
      rw [receivedHead] at hhead
      split_ifs at hhead
      exact Option.some.inj hhead
    have hsummed := h.1.held_summed pg hheld
    have honeDay : OneDay env.zone pg := by
      refine h.2 pg ?_
      rw [groups, hheld]
      exact List.mem_append_right _ (List.mem_singleton.mpr rfl)
    have hheldTest : (atDayTest input st).packetGroup = some pg := hheld
    have hflush : flushed.handedOver = st.handedOver ++ [pg] ↔
        isDifferentDay env.zone input.staleTm pg.startTime ph.time.toInt = true := by
      rw [← hheader]
      exact dayChangeFlush_handedOver hdirs hheldTest hrows hday
    have hdays : (∀ row ∈ pg.rows,
        localDay env.zone row.second ≠ localDay env.zone (packetSecond ph.time)) ↔
        isDifferentDay env.zone input.staleTm pg.startTime (packetSecond ph.time) = true := by
      rw [isDifferentDay_iff (hzone.startTime hsummed hrows) (hzone.packetSecond ph.time)]
      constructor
      · intro hall
        obtain ⟨row, hrow, hsecond⟩ := exists_row_of_summed hsummed hrows
        rw [← hsecond]
        exact hall row hrow
      · intro hne row hrow
        rw [honeDay row hrow]
        exact hne
    rw [hdays]
    exact (iff_congr hflush Iff.rfl).trans Bool.eq_iff_iff.symm
  constructor
  · intro hsplits ph hhead pg hheld hrows
    exact (hcall ph hhead pg hheld hrows).mp (hsplits ph hhead pg hheld hrows flushed hday)
  · intro hcompares ph hhead pg hheld hrows flushed' hday'
    obtain rfl := Option.some.inj (hday.symm.trans hday')
    exact (hcall ph hhead pg hheld hrows).mpr (hcompares ph hhead pg hheld hrows)

theorem recvRun_eq (env : RecvEnv) (inputs : List RecvInput) (st : Receiver) :
    recvRun env inputs st = execute (recvStep env) anyEvent st inputs := by
  induction inputs generalizing st with
  | nil => rfl
  | cons input inputs ih =>
    have hany : anyEvent st input := trivial
    simp only [recvRun, execute, recvStep, if_pos hany]
    cases hrecv : recvPacket env input st with
    | none => rfl
    | some next => exact ih next

theorem split_start (zone : TimeZone) (packetHeader : PacketHead) (configs : Configs)
    (arrivals : List Arrival) : Split zone (.start packetHeader configs arrivals) :=
  ⟨conserved_start packetHeader configs arrivals, fun _ hpg ↦ (List.not_mem_nil hpg).elim⟩

end Receiver

/-! ### Days in the mem writers -/

/-- What holds of the day of the group read where the mem writer stands: a group for the open file is
of its day, and one that waits for a flush waits for the end of the file. -/
def PcDay (zone : TimeZone) (w : MemWriter PacketGroup) : Pc PacketGroup → Prop
  | .opening _ startTime _ =>
    w.fileWriter = true → localDay zone startTime = localDay zone w.fileStartTime
  | .writing _ => w.fileWriter = true
  | .flushing flag back => flag = 0 → back = .done
  | .closed _ => w.fileWriter = false
  | .enqueuing _ back => w.fileWriter = true → back = .done
  | _ => True

/-- The groups of a file start on one local day. -/
def GroupsOneDay (zone : TimeZone) (file : FileLog PacketGroup) : Prop :=
  ∃ day, ∀ group ∈ file.groups, localDay zone group.startTime = day

/-- The invariant of the mem writer: the groups merged into the open file start on the day of its
start time. -/
structure FileDay (zone : TimeZone) (w : MemWriter PacketGroup) : Prop where
  pc : PcDay zone w w.pc
  merged : w.fileWriter = true → ∀ group ∈ w.file.groups ++ mergedGroup w.pc,
    localDay zone group.startTime = localDay zone w.fileStartTime
  files : ∀ file ∈ w.file :: w.stored, GroupsOneDay zone file

theorem fileDay_start (zone : TimeZone) : FileDay zone .start := by
  refine ⟨trivial, fun hopen ↦ (Bool.false_ne_true hopen).elim, fun file hfile ↦ ?_⟩
  rw [List.mem_singleton.mp hfile]
  exact ⟨none, fun _ hgroup ↦ (List.not_mem_nil hgroup).elim⟩

section MemWriter

variable {env : RecvEnv} {handedOver : List PacketGroup} {w next : MemWriter PacketGroup}

/-- What holds of the day of the group read is about the open file alone. -/
theorem PcDay.congr {zone : TimeZone} {pc : Pc PacketGroup} (h : PcDay zone w pc)
    (hfileWriter : next.fileWriter = w.fileWriter)
    (hfileStartTime : next.fileStartTime = w.fileStartTime) : PcDay zone next pc := by
  unfold PcDay at h ⊢
  rw [hfileWriter, hfileStartTime]
  exact h

/-- The start of a file and that of a group of its day, merged. -/
theorem localDay_min {zone : TimeZone} {a b : ℤ} (hday : localDay zone a = localDay zone b) :
    localDay zone (min a b) = localDay zone b := by
  rcases min_choice a b with hmin | hmin
  · rw [hmin, hday]
  · rw [hmin]

/-- A group that passes the day change test of an open file is of the day of the file. -/
theorem sameDay_of_testDay (hdirs : env.enableSecondLevelDir = true) {stale : Tm × Tm}
    {group : PacketGroup} {startTime endTime : ℤ} (hpc : w.pc = .grouped group startTime endTime)
    (hopen : w.fileWriter = true)
    (htaken : memStep env id w (.testDay stale) =
      some { w with pc := .opening group startTime endTime }) :
    isDifferentDay env.zone stale w.fileStartTime startTime = false := by
  simp only [memStep, hpc, hdirs, hopen, Bool.true_and] at htaken
  split_ifs at htaken with hday
  · cases congrArg (Option.map MemWriter.pc) htaken
  · exact Bool.eq_false_iff.mpr hday

/-- Files of one day stay so where the open one changes only in what is not its groups. -/
theorem GroupsOneDay.enqueue {zone : TimeZone}
    (h : ∀ file ∈ w.file :: w.stored, GroupsOneDay zone file) (chunk : ParquetMemChunk) :
    ∀ file ∈ (logChunk w chunk).file :: (logChunk w chunk).stored, GroupsOneDay zone file := by
  have hfile : GroupsOneDay zone (logChunk w chunk).file := h w.file (List.mem_cons_self ..)
  intro file hmem
  rcases List.mem_cons.mp hmem with rfl | hmem
  · exact hfile
  · by_cases hflag : chunk.flag = 0
    · simp only [logChunk, hflag, ne_eq, not_true_eq_false, if_false] at hmem
      exact h file (List.mem_cons_of_mem _ hmem)
    · simp only [logChunk, hflag, ne_eq, not_false_eq_true, if_true, List.mem_append,
        List.mem_singleton] at hmem
      rcases hmem with hmem | rfl
      · exact h file (List.mem_cons_of_mem _ hmem)
      · exact hfile

/-- The start times that a mem writer meets are seconds of packets. -/
theorem hasDay_of_bounded {zone : TimeZone} (hzone : HasDays zone)
    (hgroups : ∀ group ∈ handedOver, Summed group ∧ group.addRows ≠ 0) (h : Bounded handedOver w)
    (hopen : w.fileWriter = true) (hmerged : mergedGroup w.pc = []) :
    (zone.localtime w.fileStartTime).isSome = true := by
  have hspans := h.spans hopen
  rw [hmerged, List.append_nil] at hspans
  obtain ⟨group, hgroup, hstart⟩ := List.mem_map.mp hspans.start.1
  obtain ⟨hsummed, hrows⟩ := hgroups group (h.written group hgroup)
  obtain ⟨row, -, hsecond⟩ := exists_row_of_summed hsummed hrows
  rw [← hstart, ← hsecond]
  exact hzone.packetSecond row.time

/-- Every step keeps the groups of a file on one day. -/
theorem FileDay.step (hdirs : env.enableSecondLevelDir = true) (hzone : HasDays env.zone)
    (hgroups : ∀ group ∈ handedOver, Summed group ∧ group.addRows ≠ 0) (h : FileDay env.zone w)
    (hbounded : Bounded handedOver w) {event : MemEvent PacketGroup}
    (htaken : memStep env id w event = some next) : FileDay env.zone next := by
  have hfacts := hbounded.pc
  have hpcDay := h.pc
  have hmerged := h.merged
  cases memStep_move htaken with
  | openWait | giveBackWait | enqueueWait => exact h
  | timerTest | timerSet => exact ⟨hpcDay.congr rfl rfl, hmerged, h.files⟩
  | dayChange stale group startTime endTime hpc =>
    rw [hpc] at hmerged
    exact ⟨fun hflag ↦ (one_ne_zero hflag).elim, hmerged, h.files⟩
  | sameDay stale group startTime endTime hpc =>
    rw [hpc] at hfacts hmerged
    refine ⟨fun hopen ↦ ?_, hmerged, h.files⟩
    obtain ⟨hmem, rfl, -⟩ := hfacts
    have htest := sameDay_of_testDay hdirs hpc hopen htaken
    have hfile := hasDay_of_bounded hzone hgroups hbounded hopen (by rw [hpc]; rfl)
    have hstart := hzone.startTime (hgroups group hmem).1 (hgroups group hmem).2
    by_contra hne
    exact Bool.false_ne_true
      (htest.symm.trans ((isDifferentDay_iff hfile hstart stale).mpr (Ne.symm hne)))
  | openFile bucket advance group startTime endTime hpc hclosed =>
    rw [hpc] at hfacts
    obtain ⟨-, rfl, -⟩ := hfacts
    refine ⟨rfl, fun _ other hother ↦ ?_, fun file hfile ↦ ?_⟩
    · rw [List.mem_singleton.mp hother]
    · rcases List.mem_cons.mp hfile with rfl | hfile
      · exact ⟨none, fun _ hgroup ↦ (List.not_mem_nil hgroup).elim⟩
      · exact h.files file (List.mem_cons_of_mem _ hfile)
  | merge group startTime endTime hpc hopen =>
    rw [hpc] at hfacts hmerged hpcDay
    obtain ⟨-, rfl, -⟩ := hfacts
    have hday := hpcDay hopen
    refine ⟨hopen, fun _ other hother ↦ ?_, h.files⟩
    show localDay env.zone other.startTime =
      localDay env.zone (min group.startTime w.fileStartTime)
    rw [localDay_min hday]
    rcases List.mem_append.mp hother with hother | hother
    · exact hmerged hopen other (List.mem_append_left _ hother)
    · rw [List.mem_singleton.mp hother]
      exact hday
  | writeNothing advance group hpc hnone =>
    rw [hpc] at hmerged
    refine ⟨trivial, fun hopen other hother ↦ hmerged hopen other ?_, h.files⟩
    rcases List.mem_append.mp hother with hother | hother
    · exact List.mem_append_left _ hother
    · cases hother
  | write advance group hpc hrows =>
    rw [hpc] at hmerged hpcDay
    have hday : ∀ other ∈ w.file.groups ++ [group],
        localDay env.zone other.startTime = localDay env.zone w.fileStartTime := hmerged hpcDay
    refine ⟨trivial, fun _ other hother ↦ ?_, fun file hfile ↦ ?_⟩
    · rcases List.mem_append.mp hother with hother | hother
      · exact hday other hother
      · cases hother
    · rcases List.mem_cons.mp hfile with rfl | hfile
      · exact ⟨_, hday⟩
      · exact h.files file (List.mem_cons_of_mem _ hfile)
  | close advance flag back hpc hflag hopen =>
    exact ⟨rfl, fun hopen' ↦ (Bool.false_ne_true hopen').elim, h.files⟩
  | buildPartial bucket back hpc =>
    rw [hpc] at hpcDay hmerged
    exact ⟨fun _ ↦ hpcDay rfl, hmerged, h.files⟩
  | buildFinal bucket back hpc =>
    rw [hpc] at hpcDay hmerged
    exact ⟨fun hopen ↦ (Bool.false_ne_true (hpcDay.symm.trans hopen)).elim, hmerged, h.files⟩
  | enqueue chunk back hpc =>
    rw [hpc] at hpcDay hmerged
    refine ⟨?_, fun hopen ↦ ?_, GroupsOneDay.enqueue h.files chunk⟩
    · cases back with
      | done => trivial
      | opening => exact fun hopen ↦ nomatch hpcDay hopen
    · rw [hpcDay hopen]
      exact hmerged hopen
  | flushAll remainLength hpc | flushChunk remainLength hpc =>
    rw [hpc] at hmerged
    exact ⟨fun _ ↦ rfl, hmerged, h.files⟩
  -- the other steps lead to a statement outside a flush
  | _ =>
    rw [‹w.pc = _›] at hmerged
    exact ⟨trivial, hmerged, h.files⟩

end MemWriter

/-! ### Whole runs -/

/-- Every call that receives a packet splits on days, the groups are of one day each, and so is every
file of every run of a mem writer on the groups handed over. -/
structure DaysSplit (env : RecvEnv) (start : Receiver) (inputs : List RecvInput) (st : Receiver) :
    Prop where
  calls : Along (recvStep env) (SplitsOnDays env) start inputs
  groups : ∀ pg ∈ groups st, SingleDay env.zone (pg.rows.map PacketRow.second)
  files : ∀ w, Run (memStep env id) (readsFrom st.handedOver) .start w →
    ∀ file ∈ w.file :: w.stored, SingleDay env.zone (seconds file.groups)

theorem OneDay.singleDay {zone : TimeZone} {pg : PacketGroup} (h : OneDay zone pg) :
    SingleDay zone (pg.rows.map PacketRow.second) := by
  intro first hfirst second hsecond
  obtain ⟨row, hrow, rfl⟩ := List.mem_map.mp hfirst
  obtain ⟨row', hrow', rfl⟩ := List.mem_map.mp hsecond
  rw [h row hrow, h row' hrow']

/-- The files of a mem writer on groups of one day each. -/
theorem Split.files {env : RecvEnv} (hdirs : env.enableSecondLevelDir = true)
    (hzone : HasDays env.zone) {st : Receiver} (h : Split env.zone st) {w : MemWriter PacketGroup}
    (hrun : Run (memStep env id) (readsFrom st.handedOver) .start w) :
    ∀ file ∈ w.file :: w.stored, SingleDay env.zone (seconds file.groups) := by
  have hgroups := h.1.handedOver_summed
  have hbounded {w : MemWriter PacketGroup}
      (hw : Run (memStep env id) (readsFrom st.handedOver) .start w) : Bounded st.handedOver w :=
    hw.invariant bounded_start fun _ _ _ hstate hreads htaken ↦
      hstate.step (fun group hgroup ↦ (hgroups group hgroup).2) hreads (memStep_move htaken)
  have hfileDay : FileDay env.zone w :=
    hrun.invariant_of (fun _ hstate ↦ hbounded hstate) (fileDay_start env.zone)
      fun _ _ _ hknown hstate _ htaken ↦ hstate.step hdirs hzone hgroups hknown htaken
  intro file hfile
  obtain ⟨day, hday⟩ := hfileDay.files file hfile
  have hwritten : ∀ group ∈ file.groups, group ∈ st.handedOver := by
    rcases List.mem_cons.mp hfile with rfl | hfile
    · exact (hbounded hrun).written
    · exact ((hbounded hrun).stored file hfile).2
  have hsecond : ∀ second ∈ seconds file.groups, localDay env.zone second = day := by
    intro second hsecond
    obtain ⟨group, hgroup, hsecond⟩ := List.mem_flatMap.mp hsecond
    obtain ⟨row, hrow, rfl⟩ := List.mem_map.mp hsecond
    have hmem : group ∈ groups st := List.mem_append_left _ (hwritten group hgroup)
    rw [h.2 group hmem row hrow, hday group hgroup]
  intro first hfirst second hmem
  rw [hsecond first hfirst, hsecond second hmem]

/-- In every run of the receiver with second-level directories the packets are split by days exactly
if every call that receives a packet gets the answer for its second. Assumes: a zone with a local day
for every second. -/
theorem daysSplit_iff {env : RecvEnv} (hdirs : env.enableSecondLevelDir = true)
    (hzone : HasDays env.zone) {inputs : List RecvInput} {packetHeader : PacketHead}
    {configs : Configs} {arrivals : List Arrival} {st : Receiver}
    (hrun : recvRun env inputs (.start packetHeader configs arrivals) = some st) :
    DaysSplit env (.start packetHeader configs arrivals) inputs st ↔
      Along (recvStep env) (ComparesSeconds env) (.start packetHeader configs arrivals) inputs := by
  rw [recvRun_eq] at hrun
  have hiffStep : ∀ state input next, Split env.zone state →
      recvStep env state input = some next →
      (SplitsOnDays env state input ↔ ComparesSeconds env state input) :=
    fun _ _ _ hstate htaken ↦ splitsOnDays_iff hdirs hzone hstate htaken
  have hkept : ∀ state input next, Split env.zone state → ComparesSeconds env state input →
      recvStep env state input = some next → Split env.zone next :=
    fun _ _ _ hstate hcompares htaken ↦ hstate.recvPacket hdirs hzone hcompares htaken
  obtain ⟨hiff, hsplit⟩ :=
    along_iff hiffStep hkept (split_start env.zone packetHeader configs arrivals) hrun
  constructor
  · intro h
    exact hiff.mp h.calls
  · intro hcompares
    have h := hsplit hcompares
    exact ⟨hiff.mpr hcompares, fun pg hpg ↦ (h.2 pg hpg).singleDay,
      fun w hw ↦ h.files hdirs hzone hw⟩

/-- A zone without an offset whose years are 32-bit numbers. -/
def utcInt : TimeZone :=
  { utc with
    localtime := fun t ↦
      (utc.localtime t).filter fun tm ↦ decide (-2 ^ 31 ≤ tm.year) && decide (tm.year < 2 ^ 31) }

theorem hasDays_utcInt : HasDays utcInt := by
  intro second hge hlt
  have hyear (days : ℤ) (hdays : 0 ≤ days ∧ days < 50000) :
      -2 ^ 31 ≤ (civilOfDays days).1 - 1900 ∧ (civilOfDays days).1 - 1900 < 2 ^ 31 := by
    simp only [civilOfDays]
    omega
  obtain ⟨hlower, hupper⟩ := hyear (second / 86400) (by omega)
  simp [utcInt, utc, Option.filter]
  omega

/-- A host with second-level directories. -/
def splitEnv : RecvEnv := { enableSecondLevelDir := true, zone := utcInt }

/-- The receiver with two packets to come, of the given times. -/
def twoTimes (first second : BitVec 64) : Receiver :=
  .start exampleHead exampleConfigs
    [.message { exampleHead with time := first }.toBytes [[1]],
      .message { exampleHead with time := second }.toBytes [[2]]]

/-- Packets two days apart are split, because the time of the second packet has no year. -/
theorem daysSplit_twoDaysApart : ∃ st,
    recvRun splitEnv [exampleInput false, exampleInput false]
      (twoTimes 0x59A8A28500000000 0x59AB458500000000) = some st ∧ st.handedOver.length = 1 ∧
      DaysSplit splitEnv (twoTimes 0x59A8A28500000000 0x59AB458500000000)
        [exampleInput false, exampleInput false] st := by
  obtain ⟨st, hrun, hlength⟩ : ∃ st, recvRun splitEnv [exampleInput false, exampleInput false]
      (twoTimes 0x59A8A28500000000 0x59AB458500000000) = some st ∧ st.handedOver.length = 1 :=
    ⟨_, rfl, rfl⟩
  refine ⟨st, hrun, hlength, (daysSplit_iff rfl hasDays_utcInt hrun).mpr ?_⟩
  refine ⟨fun _ _ pg hpg ↦ (nomatch hpg), fun next hnext ↦ ⟨?_, fun _ _ ↦ trivial⟩⟩
  cases hnext
  rintro ph hph pg hpg hrows
  cases hph
  cases hpg
  decide +kernel

/-- Two packets of one second are split, because the time of the second packet has no year. -/
theorem not_daysSplit_oneSecond : ∃ st,
    recvRun splitEnv [exampleInput false, exampleInput false]
      (twoTimes 0x59A8A28500000000 0x59A8A28500000001) = some st ∧
      ¬ DaysSplit splitEnv (twoTimes 0x59A8A28500000000 0x59A8A28500000001)
        [exampleInput false, exampleInput false] st := by
  obtain ⟨st, hrun⟩ : ∃ st, recvRun splitEnv [exampleInput false, exampleInput false]
      (twoTimes 0x59A8A28500000000 0x59A8A28500000001) = some st := ⟨_, rfl⟩
  refine ⟨st, hrun, fun h ↦ ?_⟩
  obtain ⟨-, hlater⟩ := h.calls
  obtain ⟨hsecond, -⟩ := hlater _ rfl
  have hdiffers := (hsecond _ rfl _ rfl one_ne_zero _ rfl).mp rfl
  exact hdiffers _ (List.mem_singleton.mpr rfl) rfl

end CppLearn.Pipeline.DaySplit
