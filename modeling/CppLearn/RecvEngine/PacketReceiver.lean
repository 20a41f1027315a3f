import CppLearn.Foundation.LocalTime
import CppLearn.Foundation.RunningBounds
import CppLearn.RecvEngine.PacketDefine
import CppLearn.RecvEngine.WorkRing

/-!
# The packet receiver

`PacketReceiver::recv_packet` takes one packet off a zmq socket into the packet group it holds, and
hands the group over to the work rings when the day changes, when the group is full, or when the
timer has set the flush flag. `recvPacket` is one call. What surrounds the thread is its input: the
points at which the timer fires, the group that the resource ring gives, and what the mem writers
take off the work rings between two attempts to hand a group over.

The two logs `handedOver` and `accepted` of a `Receiver` record the groups for which
`write_packet_group_work` returned true and the packets given to `add_to_packet_group`.
`Conserved` is the invariant that ties them together, and `recvRun_conserves` the result over every
sequence of calls: no packet is lost or duplicated between the receiver and the work rings, and the
size and the time span of every group handed over are those of its rows.
-/

set_option autoImplicit false
set_option relaxedAutoImplicit false

namespace CppLearn.RecvEngine.PacketReceiver

open Foundation.ByteOrder Foundation.LocalTime Foundation.RunningBounds
open PacketDefine WorkRing

/-! ### The socket -/

/-- The bytes of one part of a multipart message, few enough for `zmq_recv` to return their
number as an `int`. -/
abbrev Part := List Byte

/-- What a call of `zmq_recv` finds between two messages: a message, or none before the timeout. -/
inductive Arrival
  | message (first : Part) (rest : List Part)
  | timeout
  deriving DecidableEq

/-- The receiving socket: the parts still to be read of the message being read, and what arrives
after it. -/
structure ZmqSocket where
  unread : List Part
  arrivals : List Arrival

/-- `zmq_recv`: the next part, or nothing where it returns -1. Where nothing more arrives every
call times out. -/
def zmqRecv (socket : ZmqSocket) : Option Part × ZmqSocket :=
  match socket.unread with
  | part :: parts => (some part, { socket with unread := parts })
  | [] =>
    match socket.arrivals with
    | [] => (none, socket)
    | .timeout :: arrivals => (none, { socket with arrivals := arrivals })
    | .message first rest :: arrivals => (some first, { unread := rest, arrivals := arrivals })

/-- The memory after `zmq_recv` has stored a part, cut to `len` bytes, at its beginning. -/
def zmqStore (memory : List Byte) (part : Part) (len : ℕ) : List Byte :=
  part.take len ++ memory.drop (min part.length len)

/-! ### The work rings of packet groups -/

/-- The work rings of packet groups with the function-local static index of
`write_packet_group_work`. -/
structure Configs where
  packetGroupWorkRing : ℕ → RwRing PacketGroup
  idx : ℕ

/-- The loop of `write_packet_group_work` over the rings still to be tried. -/
def offerPacketGroup : ℕ → Configs → PacketGroup → Bool × Configs
  | 0, configs, _ => (false, configs)
  | remaining + 1, configs, pg =>
    let ringIdx := configs.idx % packetGroupWorkRingCount
    match rwRingSpEnqueue (configs.packetGroupWorkRing ringIdx) pg with
    | (true, ring) =>
      (true, { configs with
        packetGroupWorkRing := Function.update configs.packetGroupWorkRing ringIdx ring })
    | (false, _) => offerPacketGroup remaining { configs with idx := configs.idx + 1 } pg

/-- `Configs::write_packet_group_work`. -/
def writePacketGroupWork (configs : Configs) (pg : PacketGroup) : Bool × Configs :=
  let (ret, configs) := offerPacketGroup packetGroupWorkRingCount configs pg
  (ret, { configs with idx := configs.idx + 1 })

/-- `Configs::read_packet_group_work` by the mem writers of the listed rings, in order. -/
def readPacketGroupWorks (configs : Configs) (readers : List ℕ) : Configs :=
  readers.foldl (fun configs idx ↦
    { configs with
      packetGroupWorkRing := Function.update configs.packetGroupWorkRing idx
        (rwRingScDequeue (configs.packetGroupWorkRing idx)).2 }) configs

/-- The loop `while (!write_packet_group_work(packet_group))`. Each element of the list is what the
mem writers take off the rings before one attempt; where the attempts run out the call is still
waiting. -/
def retryWritePacketGroupWork : List (List ℕ) → Configs → PacketGroup → Option Configs
  | [], _, _ => none
  | readers :: attempts, configs, pg =>
    match writePacketGroupWork (readPacketGroupWorks configs readers) pg with
    | (true, configs) => some configs
    | (false, configs) => retryWritePacketGroupWork attempts configs pg

/-! ### The receiver -/

/-- The members of `PacketReceiver` with the socket and the work rings it uses, and the logs of
the groups handed over and of the packets accepted. -/
structure Receiver where
  packetGroup : Option PacketGroup
  packetHeader : PacketHead
  doPacketGroupFlush : Bool
  socket : ZmqSocket
  configs : Configs
  handedOver : List PacketGroup
  accepted : List (PacketHead × Part)

/-- The receiver as its constructor leaves it. -/
def Receiver.start (packetHeader : PacketHead) (configs : Configs) (arrivals : List Arrival) :
    Receiver :=
  { packetGroup := none
    packetHeader := packetHeader
    doPacketGroupFlush := false
    socket := { unread := [], arrivals := arrivals }
    configs := configs
    handedOver := []
    accepted := [] }

/-- What does not change while the receiver runs: `m_enable_second_level_dir` and the zone of the
host. -/
structure RecvEnv where
  enableSecondLevelDir : Bool
  zone : TimeZone

/-- What one call of `recv_packet` meets: whether `on_timeout` sets the flush flag before the day
change test, between it and the flush test, and after that; what the two broken-down times of
`is_different_day` hold where `localtime_r` fails; the group that the resource ring gives; and the
attempts to hand a group over at the day change and at the end. A timer that fires inside a flush
counts as firing before it, since the flush then clears the flag or finds it set already. -/
structure RecvInput where
  firesBeforeDayTest : Bool
  firesBeforeFlushTest : Bool
  firesAfter : Bool
  staleTm : Tm × Tm
  resource : PacketGroup
  dayAttempts : List (List ℕ)
  flushAttempts : List (List ℕ)

/-- `PacketReceiver::on_timeout`, where the timer has fired and the flush interval has elapsed. -/
def onTimeout (fires : Bool) (st : Receiver) : Receiver :=
  { st with doPacketGroupFlush := st.doPacketGroupFlush || fires }

/-- `xdf::is_different_day`. `localtime_r` leaves the broken-down time as it was where it fails. -/
def isDifferentDay (zone : TimeZone) (stale : Tm × Tm) (t1 t2 : ℤ) : Bool :=
  let tm1 := (zone.localtime t1).getD stale.1
  let tm2 := (zone.localtime t2).getD stale.2
  tm1.year != tm2.year || tm1.mon != tm2.mon || tm1.mday != tm2.mday

/-- `PacketReceiver::packet_group_flush_to_mem` on the group held. -/
def packetGroupFlushToMem (attempts : List (List ℕ)) (pg : PacketGroup) (st : Receiver) :
    Option Receiver :=
  if pg.addRows != 0 then
    (retryWritePacketGroupWork attempts st.configs pg).map fun configs ↦
      { st with
        packetGroup := none
        doPacketGroupFlush := false
        configs := configs
        handedOver := st.handedOver ++ [pg] }
  else some { st with packetGroup := some pg }

/-- `PacketReceiver::add_to_packet_group`. -/
def addToPacketGroup (pg : PacketGroup) (ph : PacketHead) (packetLen : ℕ) : PacketGroup :=
  let addRows := pg.addRows
  { addRows := addRows + 1
    startTime := min pg.startTime (packetSecond ph.time)
    endTime := max pg.endTime (packetSecond ph.time)
    dataSize := pg.dataSize + (packetHeaderLen + packetLen)
    timeValues := Function.update pg.timeValues addRows ph.time
    sipValues := Function.update pg.sipValues addRows ph.sip
    dipValues := Function.update pg.dipValues addRows ph.dip
    sportValues := Function.update pg.sportValues addRows (ph.sp.setWidth 32)
    dportValues := Function.update pg.dportValues addRows (ph.dp.setWidth 32)
    dsizeValues := Function.update pg.dsizeValues addRows (ph.dsize.setWidth 32)
    protoValues := Function.update pg.protoValues addRows (ph.ipProto.setWidth 32)
    payloadValues := Function.update pg.payloadValues addRows
      { pg.payloadValues addRows with len := packetLen } }

/-- The payload that `zmq_recv` stores in the slot of the next row. -/
def storePayload (pg : PacketGroup) (part : Part) : PacketGroup :=
  { pg with
    payloadValues := Function.update pg.payloadValues pg.addRows
      { pg.payloadValues pg.addRows with
        slot := zmqStore (pg.payloadValues pg.addRows).slot part maxPacketLength } }

/-- The largest and the smallest `long long`. -/
def llongMax : ℤ := 2 ^ 63 - 1

@[inherit_doc llongMax] def llongMin : ℤ := -2 ^ 63

/-- A group taken from the resource ring, its counters reset and its arrays as they were. -/
def resetPacketGroup (pg : PacketGroup) : PacketGroup :=
  { pg with addRows := 0, dataSize := 0, startTime := llongMax, endTime := llongMin }

/-- The flush of the group held when the head just received is of another day. -/
def dayChangeFlush (env : RecvEnv) (input : RecvInput) (st : Receiver) : Option Receiver :=
  match st.packetGroup with
  | none => some st
  | some pg =>
    if env.enableSecondLevelDir &&
        isDifferentDay env.zone input.staleTm pg.startTime st.packetHeader.time.toInt then
      packetGroupFlushToMem input.dayAttempts pg st
    else some st

/-- The group held, or a fresh one from the resource ring. -/
def heldPacketGroup (input : RecvInput) (st : Receiver) : PacketGroup :=
  match st.packetGroup with
  | none => resetPacketGroup input.resource
  | some pg => pg

/-- The payload after a head of the right length: `ZMQ_RCVMORE` is fetched and not looked at, so
the payload is whatever part comes next. -/
def recvPayload (pg : PacketGroup) (st : Receiver) : PacketGroup × Receiver :=
  match zmqRecv st.socket with
  | (none, socket) => (pg, { st with socket := socket })
  | (some part, socket) =>
    let pg := addToPacketGroup (storePayload pg part) st.packetHeader part.length
    (pg, { st with
      socket := socket
      accepted := st.accepted ++ [(st.packetHeader, part)]
      doPacketGroupFlush := st.doPacketGroupFlush || pg.addRows == maxPacketCount })

/-- The flush of the group held at the end of a call. -/
def finalFlush (input : RecvInput) (pg : PacketGroup) (st : Receiver) : Option Receiver :=
  if st.doPacketGroupFlush then packetGroupFlushToMem input.flushAttempts pg st
  else some { st with packetGroup := some pg }

/-- The head that `zmq_recv` leaves in `packet_header`: a part shorter than a head overwrites only
the beginning. -/
def storeHead (ph : PacketHead) : Option Part → PacketHead
  | none => ph
  | some part => PacketHead.ofBytes (zmqStore ph.toBytes part packetHeaderLen)

/-- `PacketReceiver::recv_packet`; nothing where it is still waiting for a work ring. -/
def recvPacket (env : RecvEnv) (input : RecvInput) (st : Receiver) : Option Receiver := do
  let (ret, socket) := zmqRecv st.socket
  let st := { st with socket := socket, packetHeader := storeHead st.packetHeader ret }
  let st ← dayChangeFlush env input (onTimeout input.firesBeforeDayTest st)
  let pg := heldPacketGroup input st
  let (pg, st) :=
    if ret.map List.length = some packetHeaderLen then recvPayload pg st else (pg, st)
  let st ← finalFlush input pg (onTimeout input.firesBeforeFlushTest st)
  return onTimeout input.firesAfter st

/-- One call of `recv_packet` after the other. -/
def recvRun (env : RecvEnv) : List RecvInput → Receiver → Option Receiver
  | [], st => some st
  | input :: inputs, st => (recvPacket env input st).bind (recvRun env inputs)

/-! ### Rows, size and time span of a group -/

/-- The size and the time span that `add_to_packet_group` keeps are those of the rows. -/
structure Summed (pg : PacketGroup) : Prop where
  dataSize_eq : pg.dataSize = (pg.rows.map fun row ↦ packetHeaderLen + row.len).sum
  startTime_eq : pg.startTime = (pg.rows.map PacketRow.second).foldl min llongMax
  endTime_eq : pg.endTime = (pg.rows.map PacketRow.second).foldl max llongMin

/-- A group just reset has no rows, whatever its arrays hold. -/
theorem rows_resetPacketGroup (pg : PacketGroup) : (resetPacketGroup pg).rows = [] := rfl

theorem summed_resetPacketGroup (pg : PacketGroup) : Summed (resetPacketGroup pg) :=
  ⟨rfl, rfl, rfl⟩

/-- Adding a packet appends its row: the earlier entries of the arrays stay as they are. -/
theorem rows_addToPacketGroup (pg : PacketGroup) (ph : PacketHead) (part : Part) :
    (addToPacketGroup (storePayload pg part) ph part.length).rows =
      pg.rows ++ [rowOfPacket ph part] := by
  have hold : ∀ indx ∈ List.range pg.addRows,
      (addToPacketGroup (storePayload pg part) ph part.length).row indx = pg.row indx := by
    intro indx hindx
    have hne : indx ≠ pg.addRows := (List.mem_range.mp hindx).ne
    simp [PacketGroup.row, addToPacketGroup, storePayload, Function.update_of_ne hne]
  have hnew : (addToPacketGroup (storePayload pg part) ph part.length).row pg.addRows =
      rowOfPacket ph part := by
    simp [PacketGroup.row, addToPacketGroup, storePayload, rowOfPacket, zmqStore, Nat.min_comm]
  rw [PacketGroup.rows, PacketGroup.rows]
  change (List.range (pg.addRows + 1)).map _ = _
  rw [List.range_succ, List.map_append, List.map_congr_left hold, List.map_singleton, hnew]

theorem Summed.addToPacketGroup {pg : PacketGroup} (h : Summed pg) (ph : PacketHead)
    (part : Part) : Summed (addToPacketGroup (storePayload pg part) ph part.length) := by
  constructor <;> rw [rows_addToPacketGroup, List.map_append]
  · rw [List.sum_append, ← h.dataSize_eq]
    simp [PacketReceiver.addToPacketGroup, storePayload, rowOfPacket]
  · rw [List.foldl_append, ← h.startTime_eq]
    rfl
  · rw [List.foldl_append, ← h.endTime_eq]
    rfl

/-- A second is a 32-bit number, so it lies strictly between the initial bounds of a group. -/
theorem packetSecond_bounds (time : BitVec 64) :
    llongMin ≤ packetSecond time ∧ packetSecond time ≤ llongMax := by
  have hlt := time.isLt
  rw [packetSecond_eq, llongMin, llongMax]
  omega

/-! ### No packet is lost -/

/-- The rows of the group held. -/
def heldRows (held : Option PacketGroup) : List PacketRow :=
  (held.map PacketGroup.rows).getD []

/-- The invariant of the receiver with the group it holds: the rows handed over, in order, followed
by the rows held are those of the packets accepted, and the counters of every group are those of
its rows. -/
structure Conserves (held : Option PacketGroup) (st : Receiver) : Prop where
  rows_eq : st.handedOver.flatMap PacketGroup.rows ++ heldRows held =
    st.accepted.map fun packet ↦ rowOfPacket packet.1 packet.2
  held_summed : ∀ pg, held = some pg → Summed pg
  handedOver_summed : ∀ pg ∈ st.handedOver, Summed pg ∧ pg.addRows ≠ 0

/-- The invariant between two calls. -/
abbrev Conserved (st : Receiver) : Prop := Conserves st.packetGroup st

/-- The invariant reads the logs only. -/
theorem Conserves.congr {held : Option PacketGroup} {st st' : Receiver} (h : Conserves held st)
    (hhandedOver : st'.handedOver = st.handedOver) (haccepted : st'.accepted = st.accepted) :
    Conserves held st' := by
  obtain ⟨hrows, hheld, hgroups⟩ := h
  exact ⟨by rw [hhandedOver, haccepted, hrows], hheld, by rw [hhandedOver]; exact hgroups⟩

/-- The timer only sets the flush flag. -/
theorem Conserves.onTimeout {held : Option PacketGroup} {st : Receiver} (h : Conserves held st)
    (fires : Bool) : Conserves held (onTimeout fires st) :=
  h.congr rfl rfl

/-- A group without rows is not handed over; any other moves from the group held to the end of the
groups handed over. -/
theorem Conserves.packetGroupFlushToMem {pg : PacketGroup} {st next : Receiver}
    (h : Conserves (some pg) st) {attempts : List (List ℕ)}
    (hflush : packetGroupFlushToMem attempts pg st = some next) : Conserved next := by
  unfold PacketReceiver.packetGroupFlushToMem at hflush
  split_ifs at hflush with hrows
  · obtain ⟨configs, -, rfl⟩ := Option.map_eq_some_iff.mp hflush
    refine ⟨?_, fun pg hpg ↦ (Option.some_ne_none pg hpg.symm).elim, ?_⟩
    · rw [← h.rows_eq]
      simp [heldRows]
    · intro group hgroup
      rcases List.mem_append.mp hgroup with hgroup | hgroup
      · exact h.handedOver_summed group hgroup
      · obtain rfl := List.mem_singleton.mp hgroup
        exact ⟨h.held_summed group rfl, by simpa using hrows⟩
  · cases hflush
    exact h.congr rfl rfl

theorem Conserved.dayChangeFlush {env : RecvEnv} {input : RecvInput} {st next : Receiver}
    (h : Conserved st) (hflush : dayChangeFlush env input st = some next) : Conserved next := by
  unfold PacketReceiver.dayChangeFlush at hflush
  split at hflush
  · cases hflush
    exact h
  · next pg hpg =>
    split_ifs at hflush
    · exact Conserves.packetGroupFlushToMem (hpg ▸ h) hflush
    · cases hflush
      exact h

/-- Taking a fresh group adds no rows. -/
theorem Conserved.heldPacketGroup {st : Receiver} (h : Conserved st) (input : RecvInput) :
    Conserves (some (heldPacketGroup input st)) st := by
  unfold PacketReceiver.heldPacketGroup
  split
  · next hnone =>
    obtain ⟨hrows, -, hgroups⟩ := h
    refine ⟨?_, ?_, hgroups⟩
    · rw [← hrows, hnone]
      simp [heldRows, rows_resetPacketGroup]
    · rintro _ ⟨⟩
      exact summed_resetPacketGroup _
  · next pg hpg =>
    rw [← hpg]
    exact h

/-- A packet accepted is appended to the rows held and to the log alike. -/
theorem Conserves.recvPayload {pg : PacketGroup} {st : Receiver} (h : Conserves (some pg) st) :
    Conserves (some (recvPayload pg st).1) (recvPayload pg st).2 := by
  unfold PacketReceiver.recvPayload
  split
  · exact h.congr rfl rfl
  · next part socket hrecv =>
    have hsummed := h.held_summed pg rfl
    refine ⟨?_, ?_, h.handedOver_summed⟩
    · have hrows := h.rows_eq
      simp only [heldRows, Option.map_some, Option.getD_some] at hrows ⊢
      rw [rows_addToPacketGroup, List.map_append, ← hrows, List.append_assoc]
      rfl
    · rintro _ ⟨⟩
      exact hsummed.addToPacketGroup _ _

theorem Conserves.finalFlush {pg : PacketGroup} {st next : Receiver} {input : RecvInput}
    (h : Conserves (some pg) st) (hflush : finalFlush input pg st = some next) :
    Conserved next := by
  unfold PacketReceiver.finalFlush at hflush
  split_ifs at hflush
  · exact h.packetGroupFlushToMem hflush
  · cases hflush
    exact h.congr rfl rfl

/-- One call of `recv_packet` keeps the invariant. -/
theorem Conserved.recvPacket {env : RecvEnv} {input : RecvInput} {st next : Receiver}
    (h : Conserved st) (hrecv : recvPacket env input st = some next) : Conserved next := by
  simp only [PacketReceiver.recvPacket, Option.bind_eq_bind, Option.bind_eq_some_iff] at hrecv
  obtain ⟨flushed, hday, last, hfinal, hnext⟩ := hrecv
  cases hnext
  have hflushed : Conserved flushed := by
    refine Conserved.dayChangeFlush (Conserves.onTimeout ?_ _) hday
    exact Conserves.congr h rfl rfl
  have hheld := hflushed.heldPacketGroup input
  have hlast : Conserved last := by
    split_ifs at hfinal
    · exact Conserves.finalFlush (hheld.recvPayload.onTimeout _) hfinal
    · exact Conserves.finalFlush (hheld.onTimeout _) hfinal
  exact hlast.onTimeout _

/-- Every sequence of calls keeps the invariant. -/
theorem Conserved.recvRun {env : RecvEnv} {inputs : List RecvInput} {st last : Receiver}
    (h : Conserved st) (hrun : recvRun env inputs st = some last) : Conserved last := by
  induction inputs generalizing st with
  | nil =>
    cases hrun
    exact h
  | cons input inputs ih =>
    obtain ⟨next, hnext, hrest⟩ := Option.bind_eq_some_iff.mp hrun
    exact ih (h.recvPacket hnext) hrest

theorem conserved_start (packetHeader : PacketHead) (configs : Configs)
    (arrivals : List Arrival) : Conserved (Receiver.start packetHeader configs arrivals) :=
  ⟨rfl, fun _ hpg ↦ (Option.some_ne_none _ hpg.symm).elim, fun _ hpg ↦ (List.not_mem_nil hpg).elim⟩

/-- The bounds that a group with rows keeps are the least and the greatest second of its rows. -/
theorem Summed.span {pg : PacketGroup} (h : Summed pg) (hrows : pg.addRows ≠ 0) :
    IsLeast {second | second ∈ pg.rows.map PacketRow.second} pg.startTime ∧
      IsGreatest {second | second ∈ pg.rows.map PacketRow.second} pg.endTime := by
  have hne : pg.rows.map PacketRow.second ≠ [] := by
    simpa [PacketGroup.rows] using hrows
  have hbounds : ∀ second ∈ pg.rows.map PacketRow.second,
      llongMin ≤ second ∧ second ≤ llongMax := by
    intro second hsecond
    obtain ⟨row, -, rfl⟩ := List.mem_map.mp hsecond
    exact packetSecond_bounds row.time
  rw [h.startTime_eq, h.endTime_eq]
  exact ⟨isLeast_foldl_min hne fun second hsecond ↦ (hbounds second hsecond).2,
    isGreatest_foldl_max hne fun second hsecond ↦ (hbounds second hsecond).1⟩

/-- After every sequence of calls the rows of the groups handed over, in order, followed by the rows
of the group held are the packets accepted, in order; and every group handed over has at least one
row, the size of its rows, and the least and greatest second of its rows as its bounds. Assumes:
that every call of the sequence has returned. -/
theorem recvRun_conserves {env : RecvEnv} {inputs : List RecvInput} {packetHeader : PacketHead}
    {configs : Configs} {arrivals : List Arrival} {st : Receiver}
    (hrun : recvRun env inputs (Receiver.start packetHeader configs arrivals) = some st) :
    st.handedOver.flatMap PacketGroup.rows ++ heldRows st.packetGroup =
        (st.accepted.map fun packet ↦ rowOfPacket packet.1 packet.2) ∧
      ∀ pg ∈ st.handedOver, 1 ≤ pg.addRows ∧
        pg.dataSize = (pg.rows.map fun row ↦ packetHeaderLen + row.len).sum ∧
        IsLeast {second | second ∈ pg.rows.map PacketRow.second} pg.startTime ∧
        IsGreatest {second | second ∈ pg.rows.map PacketRow.second} pg.endTime := by
  have h := (conserved_start packetHeader configs arrivals).recvRun hrun
  refine ⟨h.rows_eq, fun pg hpg ↦ ?_⟩
  obtain ⟨hsummed, hrows⟩ := h.handedOver_summed pg hpg
  exact ⟨Nat.one_le_iff_ne_zero.mpr hrows, hsummed.dataSize_eq, hsummed.span hrows⟩

/-- A packet group of the resource ring before its first use. -/
def exampleGroup : PacketGroup :=
  { addRows := 0
    startTime := 0
    endTime := 0
    dataSize := 0
    timeValues := fun _ ↦ 0
    sipValues := fun _ ↦ 0
    dipValues := fun _ ↦ 0
    sportValues := fun _ ↦ 0
    dportValues := fun _ ↦ 0
    dsizeValues := fun _ ↦ 0
    protoValues := fun _ ↦ 0
    payloadValues := fun _ ↦ { len := 0, slot := [] } }

/-- A call before whose attempts to hand a group over every mem writer reads once, with the timer
firing before the flush test or not at all. -/
def exampleInput (fires : Bool) : RecvInput :=
  { firesBeforeDayTest := false
    firesBeforeFlushTest := fires
    firesAfter := false
    staleTm := (⟨0, 0, 0, 0, 0, 0⟩, ⟨0, 0, 0, 0, 0, 0⟩)
    resource := exampleGroup
    dayAttempts := [[0, 1, 2, 3]]
    flushAttempts := [[0, 1, 2, 3]] }

/-- A host in UTC without second-level directories. -/
def exampleEnv : RecvEnv := { enableSecondLevelDir := false, zone := utc }

/-- The work rings as they are created, with the index of the first hand-over. -/
def exampleConfigs : Configs :=
  { packetGroupWorkRing := fun _ ↦ ⟨2, 1, 0, 0, fun _ ↦ none⟩, idx := 0 }

/-- The head of a packet of one byte. -/
def exampleHead : PacketHead := ⟨0x59A8A28500000000, 1, 2, 3, 4, 1, 6⟩

/-- Two packets of one byte, of which the timer hands the first over and the second is held. -/
theorem recvRun_conserves_timer : ∃ st,
    recvRun exampleEnv [exampleInput true, exampleInput false, exampleInput false]
      (Receiver.start exampleHead exampleConfigs
        [.message exampleHead.toBytes [[1]], .timeout, .message exampleHead.toBytes [[2]]]) =
      some st ∧
    st.handedOver.length = 1 ∧ (heldRows st.packetGroup).length = 1 ∧
    (st.handedOver.flatMap PacketGroup.rows ++ heldRows st.packetGroup =
        (st.accepted.map fun packet ↦ rowOfPacket packet.1 packet.2) ∧
      ∀ pg ∈ st.handedOver, 1 ≤ pg.addRows ∧
        pg.dataSize = (pg.rows.map fun row ↦ packetHeaderLen + row.len).sum ∧
        IsLeast {second | second ∈ pg.rows.map PacketRow.second} pg.startTime ∧
        IsGreatest {second | second ∈ pg.rows.map PacketRow.second} pg.endTime) := by
  have hlengths : (recvRun exampleEnv [exampleInput true, exampleInput false, exampleInput false]
      (Receiver.start exampleHead exampleConfigs
        [.message exampleHead.toBytes [[1]], .timeout, .message exampleHead.toBytes [[2]]])).map
        (fun st ↦ (st.handedOver.length, (heldRows st.packetGroup).length)) = some (1, 1) := rfl
  obtain ⟨st, hrun, hst⟩ := Option.map_eq_some_iff.mp hlengths
  obtain ⟨hhandedOver, hheld⟩ := Prod.mk.inj hst
  exact ⟨st, hrun, hhandedOver, hheld, recvRun_conserves hrun⟩

end CppLearn.RecvEngine.PacketReceiver
