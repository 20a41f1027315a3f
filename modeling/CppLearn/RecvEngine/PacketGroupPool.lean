import CppLearn.Foundation.SharedPlaces
import CppLearn.RecvEngine.MemParquetWriter
import CppLearn.RecvEngine.RingQueue

/-!
# The pool of packet groups

`Configs::init` creates the packet groups once. From then on they go from the resource ring to the
receiver, through a work ring to a mem writer, and back. `groupStep` interleaves the thread of the
receiver, statement by statement, with those of the mem writers; the operations of the rings are
single steps. Groups are numbers here, and `memory` has what is behind them.

`Conserved` is the invariant: every group is in one place, and those on their way to a mem writer
have rows, so that the early return of `write_to_parquet_mem`, which would lose a group, is never
taken (`groups_conserved`).
-/

set_option autoImplicit false
set_option relaxedAutoImplicit false

namespace CppLearn.RecvEngine.PacketGroupPool

open Foundation.GuardedRun Foundation.LocalTime Foundation.SharedPlaces
open MemParquetWriter PacketDefine PacketReceiver RingQueue WorkRing

/-- `PACKET_GROUP_COUNT`. -/
def packetGroupCount : ℕ := workRingCacheCount * packetGroupWorkRingCount

/-! ### Handing an object to one of the rings -/

section WorkRings

variable {Object : Type*}

/-- Work rings with the function-local static index of `write_packet_group_work`. -/
structure WorkRings (Object : Type*) where
  ring : ℕ → RwRing Object
  idx : ℕ

/-- One turn of the loop in `write_packet_group_work`. -/
def tryRing (rings : WorkRings Object) (obj : Object) : Bool × WorkRings Object :=
  let ringIdx := rings.idx % packetGroupWorkRingCount
  match rwRingSpEnqueue (rings.ring ringIdx) obj with
  | (true, ring) => (true, { rings with ring := Function.update rings.ring ringIdx ring })
  | (false, _) => (false, { rings with idx := rings.idx + 1 })

/-- The loop over the rings still to be tried. -/
def tryRings : ℕ → WorkRings Object → Object → Bool × WorkRings Object
  | 0, rings, _ => (false, rings)
  | remaining + 1, rings, obj =>
    match tryRing rings obj with
    | (true, rings) => (true, rings)
    | (false, rings) => tryRings remaining rings obj

/-- The increment of the index at the end of `write_packet_group_work`. -/
def WorkRings.next (rings : WorkRings Object) : WorkRings Object :=
  { rings with idx := rings.idx + 1 }

/-- `Configs::write_packet_group_work`, whatever a group is. -/
def writeWork (rings : WorkRings Object) (obj : Object) : Bool × WorkRings Object :=
  let (ret, rings) := tryRings packetGroupWorkRingCount rings obj
  (ret, rings.next)

/-- A turn that fails leaves the rings as they were, and one that succeeds has changed one of them.
-/
theorem tryRing_cases (rings : WorkRings Object) (obj : Object) :
    tryRing rings obj = (false, rings.next) ∨
      ∃ id < packetGroupWorkRingCount, ∃ ring, rwRingSpEnqueue (rings.ring id) obj = (true, ring) ∧
        tryRing rings obj = (true, { rings with ring := Function.update rings.ring id ring }) := by
  rcases henqueue : rwRingSpEnqueue (rings.ring (rings.idx % packetGroupWorkRingCount)) obj with
    ⟨accepted | accepted, ring⟩
  · exact Or.inl (by rw [tryRing, henqueue]; rfl)
  · exact Or.inr ⟨_, Nat.mod_lt _ (Nat.succ_pos 3), ring, henqueue, by rw [tryRing, henqueue]⟩

theorem tryRings_false {remaining : ℕ} {rings rings' : WorkRings Object} {obj : Object}
    (hfalse : tryRings remaining rings obj = (false, rings')) : rings'.ring = rings.ring := by
  induction remaining generalizing rings with
  | zero =>
    cases hfalse
    rfl
  | succ remaining ih =>
    rw [tryRings] at hfalse
    rcases tryRing_cases rings obj with htry | ⟨id, _, ring, _, htry⟩
    · rw [htry] at hfalse
      exact @ih rings.next hfalse
    · rw [htry] at hfalse
      cases hfalse

/-- `write_packet_group_work` leaves every ring as it was where it returns false. -/
theorem ring_writeWork_of_false {rings rings' : WorkRings Object} {obj : Object}
    (hfalse : writeWork rings obj = (false, rings')) : rings'.ring = rings.ring := by
  rcases htry : tryRings packetGroupWorkRingCount rings obj with ⟨ret, tried⟩
  rw [writeWork, htry] at hfalse
  cases hfalse
  show tried.ring = rings.ring
  exact tryRings_false htry

/-- The function by which the receiver hands over the groups themselves. -/
theorem offerPacketGroup_eq (remaining : ℕ) (rings : WorkRings PacketGroup) (pg : PacketGroup) :
    offerPacketGroup remaining ⟨rings.ring, rings.idx⟩ pg =
      ((tryRings remaining rings pg).1,
        ⟨(tryRings remaining rings pg).2.ring, (tryRings remaining rings pg).2.idx⟩) := by
  induction remaining generalizing rings with
  | zero => rfl
  | succ remaining ih =>
    rw [offerPacketGroup, tryRings, tryRing]
    rcases henqueue : rwRingSpEnqueue (rings.ring (rings.idx % packetGroupWorkRingCount)) pg with
      ⟨accepted | accepted, ring⟩
    · simp only
      exact ih rings.next
    · simp only

theorem writePacketGroupWork_eq (rings : WorkRings PacketGroup) (pg : PacketGroup) :
    writePacketGroupWork ⟨rings.ring, rings.idx⟩ pg =
      ((writeWork rings pg).1, ⟨(writeWork rings pg).2.ring, (writeWork rings pg).2.idx⟩) := by
  rw [writePacketGroupWork, offerPacketGroup_eq]
  rfl

end WorkRings

/-! ### The threads -/

/-- Where `recv_packet` calls `packet_group_flush_to_mem`: at a change of the day, with whether a
head has been received, or at its end. -/
inductive FlushSite
  | dayChange (headed : Bool)
  | final
  deriving DecidableEq

/-- Where the receiver stands in `recv_packet`: at the call of `zmq_recv` for a head, at the test
for a group, at the call for a payload, at the flush test, or in the loop of
`write_packet_group_work` with the turns left. -/
inductive RecvPc
  | receiving
  | acquiring (headed : Bool)
  | adding (headed : Bool)
  | flushTest
  | offering (remaining : ℕ) (site : FlushSite)
  deriving DecidableEq

/-- The statement after a flush. -/
def FlushSite.pc : FlushSite → RecvPc
  | .dayChange headed => .acquiring headed
  | .final => .receiving

/-- What is behind the groups, the resource ring, the work rings, the receiver and the mem writers.
-/
structure GroupRun where
  memory : ℕ → PacketGroup
  pool : List ℕ
  rings : WorkRings ℕ
  recvPc : RecvPc
  packetGroup : Option ℕ
  packetHeader : PacketHead
  doPacketGroupFlush : Bool
  memWriters : ℕ → MemWriter ℕ

/-- After `Configs::init`, before any thread has run. -/
def GroupRun.start (memory : ℕ → PacketGroup) (rings : ℕ → RwRing ℕ) (packetHeader : PacketHead) :
    GroupRun :=
  { memory := memory
    pool := List.range packetGroupCount
    rings := ⟨rings, 0⟩
    recvPc := .receiving
    packetGroup := none
    packetHeader := packetHeader
    doPacketGroupFlush := false
    memWriters := fun _ ↦ .start }

/-- The statements of the receiver with what the calls of `zmq_recv` give, its timer, the two
operations of a mem writer on the rings of groups, and its other steps. -/
inductive GroupEvent
  | recvHead (found : Option Part) (stale : Tm × Tm)
  | acquire
  | recvPayload (found : Option Part)
  | flushTest
  | offer
  | timer
  | read (id : ℕ)
  | giveBack (id : ℕ)
  | mem (id : ℕ) (event : MemEvent ℕ)

/-- `packet_group_flush_to_mem`. A group without rows stays with the receiver. -/
def flushFrom (s : GroupRun) (group : ℕ) (site : FlushSite) : GroupRun :=
  { s with
    recvPc :=
      if (s.memory group).addRows ≠ 0 then .offering packetGroupWorkRingCount site else site.pc }

/-- The receiver has received a head, or nothing, and tests whether the day has changed. -/
def recvHead (env : RecvEnv) (s : GroupRun) (found : Option Part) (stale : Tm × Tm) : GroupRun :=
  let s := { s with packetHeader := storeHead s.packetHeader found }
  let site := FlushSite.dayChange (decide (found.map List.length = some packetHeaderLen))
  match s.packetGroup with
  | none => { s with recvPc := site.pc }
  | some group =>
    if env.enableSecondLevelDir &&
        isDifferentDay env.zone stale (s.memory group).startTime s.packetHeader.time.toInt then
      flushFrom s group site
    else { s with recvPc := site.pc }

/-- The receiver takes a group from the resource ring if it has none, and resets it. -/
def acquireGroup (s : GroupRun) (headed : Bool) : GroupRun :=
  match s.packetGroup with
  | some _ => { s with recvPc := .adding headed }
  | none =>
    match mrmwRingScDequeue s.pool with
    | (some group, pool) =>
      { s with
        recvPc := .adding headed
        packetGroup := some group
        pool := pool
        memory := Function.update s.memory group (resetPacketGroup (s.memory group)) }
    | (none, _) => s

/-- The payload after a head goes into the next row of the group. -/
def addPayload (s : GroupRun) (group : ℕ) (part : Part) : GroupRun :=
  let pg := addToPacketGroup (storePayload (s.memory group) part) s.packetHeader part.length
  { s with
    recvPc := .flushTest
    memory := Function.update s.memory group pg
    doPacketGroupFlush := s.doPacketGroupFlush || pg.addRows == maxPacketCount }

/-- A turn of the loop in `write_packet_group_work`, and its end: on success the receiver is without
a group, otherwise it calls again. -/
def offerGroup (s : GroupRun) (group : ℕ) (site : FlushSite) : ℕ → GroupRun
  | 0 =>
    { s with recvPc := .offering packetGroupWorkRingCount site, rings := s.rings.next }
  | remaining + 1 =>
    match tryRing s.rings group with
    | (true, rings) =>
      { s with
        recvPc := site.pc
        rings := rings.next
        packetGroup := none
        doPacketGroupFlush := false }
    | (false, rings) => { s with recvPc := .offering remaining site, rings := rings }

/-- A step of the receiver or its timer. -/
def recvStep (env : RecvEnv) (s : GroupRun) (event : GroupEvent) : Option GroupRun :=
  match s.recvPc, event with
  | .receiving, .recvHead found stale => some (recvHead env s found stale)
  | .acquiring headed, .acquire => some (acquireGroup s headed)
  | .adding headed, .recvPayload found =>
    match s.packetGroup, found with
    | some group, some part =>
      if headed then some (addPayload s group part) else some { s with recvPc := .flushTest }
    | _, _ => some { s with recvPc := .flushTest }
  | .flushTest, .flushTest =>
    match s.packetGroup with
    | some group =>
      if s.doPacketGroupFlush then some (flushFrom s group .final)
      else some { s with recvPc := .receiving }
    | none => none
  | .offering remaining site, .offer => s.packetGroup.map fun group ↦ offerGroup s group site remaining
  | _, .timer => some { s with doPacketGroupFlush := true }
  | _, _ => none

/-- A mem writer reads its work ring. -/
def readStep (env : RecvEnv) (s : GroupRun) (id : ℕ) : Option GroupRun :=
  let (found, ring) := rwRingScDequeue (s.rings.ring id)
  (memStep env s.memory (s.memWriters id) (.read found)).map fun w ↦
    { s with
      rings := { s.rings with ring := Function.update s.rings.ring id ring }
      memWriters := Function.update s.memWriters id w }

/-- A mem writer gives back a group. -/
def giveBackStep (env : RecvEnv) (s : GroupRun) (id : ℕ) : Option GroupRun :=
  match (s.memWriters id).pc with
  | .givingBack group =>
    let (accepted, pool) := mrmwRingSpEnqueue packetGroupCount s.pool group
    (memStep env s.memory (s.memWriters id) (.giveBack accepted)).map fun w ↦
      { s with pool := pool, memWriters := Function.update s.memWriters id w }
  | _ => none

/-- One step of one thread. -/
def groupStep (env : RecvEnv) (s : GroupRun) (event : GroupEvent) : Option GroupRun :=
  match event with
  | .read id => if id < packetGroupWorkRingCount then readStep env s id else none
  | .giveBack id => if id < packetGroupWorkRingCount then giveBackStep env s id else none
  | .mem id event =>
    if id < packetGroupWorkRingCount ∧ event.isLocal .groups then
      (memStep env s.memory (s.memWriters id) event).map fun w ↦
        { s with memWriters := Function.update s.memWriters id w }
    else none
  | event => recvStep env s event

/-! ### Where the groups are -/

/-- The group that a mem writer has. -/
def Back.group : Back ℕ → Option ℕ
  | .done => none
  | .opening group _ _ => some group

/-- The group that a mem writer has, by the statement at which it stands. -/
def heldGroup : Pc ℕ → Option ℕ
  | .grouped group _ _ => some group
  | .opening group _ _ => some group
  | .writing group => some group
  | .givingBack group => some group
  | .flushing _ back => Back.group back
  | .closed back => Back.group back
  | .enqueuing _ back => Back.group back
  | _ => none

/-- The groups in a work ring and with its mem writer. -/
def heldGroups (s : GroupRun) (id : ℕ) : List ℕ :=
  ringContents (s.rings.ring id) ++ (heldGroup (s.memWriters id).pc).toList

/-- All places where groups are: the resource ring, the receiver, the work rings and mem writers. -/
def groupPlaces (s : GroupRun) : List ℕ :=
  places (s.pool ++ s.packetGroup.toList) packetGroupWorkRingCount (heldGroups s)

/-- Whether the receiver is in the loop of `write_packet_group_work`. -/
def RecvPc.isOffering : RecvPc → Bool
  | .offering _ _ => true
  | _ => false

theorem heldGroup_pc (back : Back ℕ) : heldGroup back.pc = Back.group back := by
  cases back <;> rfl

/-- Assumes: a writer whose group, if it is at the statement that writes it, has rows. Its steps
away from the rings of groups leave it the group it has. -/
theorem heldGroup_localMove {env : RecvEnv} {view : ℕ → PacketGroup} {w next : MemWriter ℕ}
    {event : MemEvent ℕ} (hrows : ∀ group, heldGroup w.pc = some group → (view group).addRows ≠ 0)
    (hlocal : event.isLocal .groups = true) (hmove : MemMove env view w event next) :
    heldGroup next.pc = heldGroup w.pc := by
  cases hmove with
  | readNone | readSome | giveBack | giveBackWait => cases hlocal
  | writeNothing advance group hpc hnone =>
    exact (hrows group (by rw [hpc]; rfl) hnone).elim
  | openWait | enqueueWait | timerTest | timerSet => rfl
  | enqueue chunk back hpc =>
    rw [hpc]
    exact heldGroup_pc back
  | _ => rw [‹w.pc = _›]; rfl

/-! ### What a step does to the groups -/

/-- The steps of the receiver, by what they do to the groups. -/
inductive RecvMove (s next : GroupRun) : Prop
  | quiet (hmemory : next.memory = s.memory) (hpool : next.pool = s.pool)
      (hrings : next.rings.ring = s.rings.ring) (hgroup : next.packetGroup = s.packetGroup)
      (hoffering : next.recvPc.isOffering = true → s.recvPc.isOffering = true ∨
        ∃ group, s.packetGroup = some group ∧ (s.memory group).addRows ≠ 0)
  | acquire (group : ℕ) (hnone : s.packetGroup = none) (hpool : s.pool = group :: next.pool)
      (hrings : next.rings.ring = s.rings.ring) (hgroup : next.packetGroup = some group)
      (hmemory : ∀ other, other ≠ group → next.memory other = s.memory other)
      (hoffering : next.recvPc.isOffering = false)
  | add (group : ℕ) (hsome : s.packetGroup = some group) (hpool : next.pool = s.pool)
      (hrings : next.rings.ring = s.rings.ring) (hgroup : next.packetGroup = some group)
      (hmemory : ∀ other, other ≠ group → next.memory other = s.memory other)
      (hoffering : next.recvPc.isOffering = false)
  | handOver (group id : ℕ) (ring : RwRing ℕ) (hid : id < packetGroupWorkRingCount)
      (hoffered : s.recvPc.isOffering = true) (hsome : s.packetGroup = some group)
      (hmemory : next.memory = s.memory) (hpool : next.pool = s.pool)
      (henqueue : rwRingSpEnqueue (s.rings.ring id) group = (true, ring))
      (hrings : next.rings.ring = Function.update s.rings.ring id ring)
      (hgroup : next.packetGroup = none) (hoffering : next.recvPc.isOffering = false)

theorem FlushSite.isOffering_pc (site : FlushSite) : site.pc.isOffering = false := by
  cases site <;> rfl

section RecvMoves

variable {env : RecvEnv} {s next : GroupRun}

/-- A flush starts to hand over only a group with rows. -/
theorem addRows_ne_of_flushFrom {group : ℕ} {site : FlushSite}
    (hoffering : (flushFrom s group site).recvPc.isOffering = true) :
    (s.memory group).addRows ≠ 0 := by
  intro hrows
  rw [flushFrom, if_neg (not_not.mpr hrows), site.isOffering_pc] at hoffering
  cases hoffering

theorem recvHead_move (found : Option Part) (stale : Tm × Tm) :
    RecvMove s (recvHead env s found stale) := by
  have hquiet : ∀ site : FlushSite, RecvMove s
      { s with packetHeader := storeHead s.packetHeader found, recvPc := site.pc } := fun site ↦
    .quiet rfl rfl rfl rfl fun hoffering ↦
      (Bool.false_ne_true (site.isOffering_pc.symm.trans hoffering)).elim
  simp only [recvHead]
  split
  · exact hquiet _
  · next group hgroup =>
    split_ifs
    · exact .quiet rfl rfl rfl rfl fun hoffering ↦
        Or.inr ⟨group, hgroup, addRows_ne_of_flushFrom hoffering⟩
    · exact hquiet _

theorem acquireGroup_move (headed : Bool) : RecvMove s (acquireGroup s headed) := by
  rcases hgroup : s.packetGroup with _ | group
  · rcases hpool : s.pool with _ | ⟨group, pool⟩
    · simp only [acquireGroup, hgroup, mrmwRingScDequeue, hpool, List.head?_nil]
      exact .quiet rfl rfl rfl rfl Or.inl
    · simp only [acquireGroup, hgroup, mrmwRingScDequeue, hpool, List.head?_cons, List.tail_cons]
      exact .acquire group hgroup hpool rfl rfl (fun other hother ↦ Function.update_of_ne hother ..)
        rfl
  · simp only [acquireGroup, hgroup]
    exact .quiet rfl rfl rfl hgroup.symm fun hoffering ↦ (Bool.false_ne_true hoffering).elim

theorem offerGroup_move {group : ℕ} (hgroup : s.packetGroup = some group) {remaining : ℕ}
    {site : FlushSite} (hpc : s.recvPc = .offering remaining site) :
    RecvMove s (offerGroup s group site remaining) := by
  have hoffered : s.recvPc.isOffering = true := by
    rw [hpc]
    rfl
  rcases remaining with _ | remaining
  · exact .quiet rfl rfl rfl rfl fun _ ↦ Or.inl hoffered
  · rcases tryRing_cases s.rings group with htry | ⟨id, hid, ring, henqueue, htry⟩
    · simp only [offerGroup, htry]
      exact .quiet rfl rfl rfl rfl fun _ ↦ Or.inl hoffered
    · simp only [offerGroup, htry]
      exact .handOver group id ring hid hoffered hgroup rfl rfl henqueue rfl rfl site.isOffering_pc

/-- The receiver changes the rings only by handing over the group it has. -/
theorem RecvMove.ring_eq (hmove : RecvMove s next) (hkept : next.packetGroup = s.packetGroup) :
    next.rings.ring = s.rings.ring := by
  cases hmove with
  | quiet _ _ hrings => exact hrings
  | acquire _ _ _ hrings => exact hrings
  | add _ _ _ hrings => exact hrings
  | handOver group _ _ _ _ hsome _ _ _ _ hnone => cases hnone.symm.trans (hkept.trans hsome)

/-- Every step of the receiver is one of the moves. -/
theorem recvStep_move {event : GroupEvent} (htaken : recvStep env s event = some next) :
    RecvMove s next ∧ next.memWriters = s.memWriters := by
  unfold recvStep at htaken
  split at htaken
  · next found stale hpc =>
    cases htaken
    refine ⟨recvHead_move found stale, ?_⟩
    simp only [recvHead]
    split
    · rfl
    · split_ifs <;> rfl
  · next headed hpc =>
    cases htaken
    refine ⟨acquireGroup_move headed, ?_⟩
    rw [acquireGroup]
    split
    · rfl
    · split <;> rfl
  · next headed found hpc =>
    have hquiet : RecvMove s { s with recvPc := .flushTest } :=
      .quiet rfl rfl rfl rfl fun hoffering ↦ (Bool.false_ne_true hoffering).elim
    split at htaken
    · next group part hgroup =>
      split_ifs at htaken <;> cases htaken
      · exact ⟨.add group hgroup rfl rfl hgroup
          (fun other hother ↦ Function.update_of_ne hother ..) rfl, rfl⟩
      · exact ⟨hquiet, rfl⟩
    · cases htaken
      exact ⟨hquiet, rfl⟩
  · next hpc =>
    split at htaken
    · next group hgroup =>
      split_ifs at htaken <;> cases htaken
      · exact ⟨.quiet rfl rfl rfl rfl fun hoffering ↦
          Or.inr ⟨group, hgroup, addRows_ne_of_flushFrom hoffering⟩, rfl⟩
      · exact ⟨.quiet rfl rfl rfl rfl fun hoffering ↦ (Bool.false_ne_true hoffering).elim, rfl⟩
    · cases htaken
  · next remaining site hpc =>
    obtain ⟨group, hgroup, rfl⟩ := Option.map_eq_some_iff.mp htaken
    refine ⟨offerGroup_move hgroup hpc, ?_⟩
    rcases remaining with _ | remaining
    · rfl
    · rw [offerGroup]
      split <;> rfl
  · cases htaken
    exact ⟨.quiet rfl rfl rfl rfl Or.inl, rfl⟩
  · cases htaken

end RecvMoves

/-! ### The invariant -/

/-- The invariant: the work rings are queues, every group is in one place, and the groups that the
receiver hands over, those in the work rings and those with mem writers have rows. -/
structure Conserved (s : GroupRun) : Prop where
  queue : ∀ id < packetGroupWorkRingCount, ∃ contents, Queue (s.rings.ring id) contents
  once : (groupPlaces s).Perm (List.range packetGroupCount)
  filled : ∀ id < packetGroupWorkRingCount, ∀ group ∈ heldGroups s id,
    (s.memory group).addRows ≠ 0
  offered : s.recvPc.isOffering = true → ∀ group, s.packetGroup = some group →
    (s.memory group).addRows ≠ 0

section Steps

variable {env : RecvEnv} {s next : GroupRun}

theorem Conserved.nodup (h : Conserved s) : (groupPlaces s).Nodup :=
  h.once.nodup_iff.mpr List.nodup_range

/-- A group of the resource ring or the receiver is not on its way to a mem writer. -/
theorem Conserved.not_held (h : Conserved s) {group : ℕ}
    (hgroup : group ∈ s.pool ++ s.packetGroup.toList) {id : ℕ} (hid : id < packetGroupWorkRingCount) :
    group ∉ heldGroups s id :=
  fun hheld ↦ not_mem_pool_of_held h.nodup hid hheld hgroup

/-- Assumes: a step of the receiver that leaves the work rings alone, and of the groups changes only
one that the receiver or the resource ring has. -/
theorem Conserved.of_memory (h : Conserved s) (hwriters : next.memWriters = s.memWriters)
    (hrings : next.rings.ring = s.rings.ring)
    (hpool : (next.pool ++ next.packetGroup.toList).Perm (s.pool ++ s.packetGroup.toList))
    (hmemory : ∀ group, group ∉ s.pool ++ s.packetGroup.toList →
      next.memory group = s.memory group)
    (hoffered : next.recvPc.isOffering = true → ∀ group, next.packetGroup = some group →
      (next.memory group).addRows ≠ 0) : Conserved next := by
  have hheld : heldGroups next = heldGroups s := by
    funext id
    rw [heldGroups, heldGroups, hwriters, hrings]
  refine ⟨fun id hid ↦ ?_, ?_, fun id hid group hgroup ↦ ?_, hoffered⟩
  · rw [hrings]
    exact h.queue id hid
  · rw [groupPlaces, hheld]
    exact (hpool.append_right _).trans h.once
  · rw [hheld] at hgroup
    rw [hmemory group fun hmem ↦ h.not_held hmem hid hgroup]
    exact h.filled id hid group hgroup

/-- Assumes: a step that changes one work ring and its mem writer only, and the groups there are and
those of the resource ring and the receiver are together what they were. -/
theorem Conserved.of_ring (h : Conserved s) {id : ℕ} (hid : id < packetGroupWorkRingCount)
    (hmemory : next.memory = s.memory)
    (hothers : ∀ other, other ≠ id → heldGroups next other = heldGroups s other ∧
      next.rings.ring other = s.rings.ring other)
    (hqueue : ∃ contents, Queue (next.rings.ring id) contents)
    (hmoved : (next.pool ++ next.packetGroup.toList ++ heldGroups next id).Perm
      (s.pool ++ s.packetGroup.toList ++ heldGroups s id))
    (hfilled : ∀ group ∈ heldGroups next id, (s.memory group).addRows ≠ 0)
    (hoffered : next.recvPc.isOffering = true → ∀ group, next.packetGroup = some group →
      (s.memory group).addRows ≠ 0) : Conserved next := by
  refine ⟨fun other hother ↦ ?_, ?_, fun other hother group hgroup ↦ ?_, ?_⟩
  · by_cases heq : other = id
    · rw [heq]
      exact hqueue
    · rw [(hothers other heq).2]
      exact h.queue other hother
  · exact (perm_places hid (fun other hother ↦ (hothers other hother).1) hmoved).trans h.once
  · rw [hmemory]
    by_cases heq : other = id
    · rw [heq] at hgroup
      exact hfilled group hgroup
    · rw [(hothers other heq).1] at hgroup
      exact h.filled other hother group hgroup
  · rw [hmemory]
    exact hoffered

/-- The steps of the receiver keep the invariant. -/
theorem Conserved.recvMove (h : Conserved s) (hmove : RecvMove s next)
    (hwriters : next.memWriters = s.memWriters) : Conserved next := by
  cases hmove with
  | quiet hmemory hpool hrings hgroup hoffering =>
    refine h.of_memory hwriters hrings (by rw [hpool, hgroup]) (fun _ _ ↦ by rw [hmemory]) ?_
    intro hnext group hsome
    rw [hmemory]
    rw [hgroup] at hsome
    rcases hoffering hnext with hoffered | ⟨group', hsome', hrows⟩
    · exact h.offered hoffered group hsome
    · obtain rfl := Option.some.inj (hsome'.symm.trans hsome)
      exact hrows
  | acquire group hnone hpool hrings hgroup hmemory hoffering =>
    refine h.of_memory hwriters hrings ?_ (fun other hother ↦ hmemory other ?_) ?_
    · rw [hgroup, hnone, hpool, Option.toList_some, Option.toList_none, List.append_nil]
      exact List.perm_append_singleton group next.pool
    · rintro rfl
      exact hother (by rw [hpool]; exact List.mem_append_left _ (List.mem_cons_self ..))
    · intro hnext
      rw [hoffering] at hnext
      cases hnext
  | add group hsome hpool hrings hgroup hmemory hoffering =>
    refine h.of_memory hwriters hrings (by rw [hpool, hgroup, hsome])
      (fun other hother ↦ hmemory other ?_) ?_
    · rintro rfl
      exact hother (by rw [hsome]; exact List.mem_append_right _ (List.mem_singleton.mpr rfl))
    · intro hnext
      rw [hoffering] at hnext
      cases hnext
  | handOver group id ring hid hoffered hsome hmemory hpool henqueue hrings hgroup hoffering =>
    obtain ⟨contents, hqueue⟩ := h.queue id hid
    have hqueue' := hqueue.enqueue henqueue
    have hring : next.rings.ring id = ring := by
      rw [hrings, Function.update_self]
    have hheld : heldGroups next id =
        contents ++ ([group] ++ (heldGroup (s.memWriters id).pc).toList) := by
      rw [heldGroups, hwriters, hring, hqueue'.ringContents_eq, List.append_assoc]
    have hheld' : heldGroups s id = contents ++ (heldGroup (s.memWriters id).pc).toList := by
      rw [heldGroups, hqueue.ringContents_eq]
    refine h.of_ring hid hmemory (fun other hother ↦ ?_) ⟨_, hring ▸ hqueue'⟩ ?_ ?_ ?_
    · have hsame : next.rings.ring other = s.rings.ring other := by
        rw [hrings, Function.update_of_ne hother]
      rw [heldGroups, heldGroups, hwriters, hsame]
      exact ⟨rfl, rfl⟩
    · rw [hheld, hheld', hpool, hgroup, hsome, Option.toList_none, Option.toList_some,
        List.append_nil, List.append_assoc]
      refine List.Perm.append_left _ ?_
      rw [← List.append_assoc, ← List.append_assoc]
      exact List.perm_append_comm.append_right _
    · intro other hother
      rw [hheld, List.mem_append, List.mem_append, List.mem_singleton] at hother
      rcases hother with hmem | rfl | hmem
      · exact h.filled id hid other (hheld' ▸ List.mem_append_left _ hmem)
      · exact h.offered hoffered other hsome
      · exact h.filled id hid other (hheld' ▸ List.mem_append_right _ hmem)
    · intro hnext
      rw [hoffering] at hnext
      cases hnext

/-- A step of a mem writer away from the rings of groups. -/
theorem Conserved.mem (h : Conserved s) {id : ℕ} (hid : id < packetGroupWorkRingCount)
    {event : MemEvent ℕ} (hlocal : event.isLocal .groups = true) {w : MemWriter ℕ}
    (htaken : memStep env s.memory (s.memWriters id) event = some w) :
    Conserved { s with memWriters := Function.update s.memWriters id w } := by
  have hrows : ∀ group, heldGroup (s.memWriters id).pc = some group →
      (s.memory group).addRows ≠ 0 := by
    intro group hgroup
    refine h.filled id hid group (List.mem_append_right _ ?_)
    rw [hgroup]
    exact List.mem_singleton.mpr rfl
  have hsame := heldGroup_localMove hrows hlocal (memStep_move htaken)
  have hheld : heldGroups { s with memWriters := Function.update s.memWriters id w } id =
      heldGroups s id := by
    simp only [heldGroups, Function.update_self, hsame]
  refine h.of_ring hid rfl (fun other hother ↦ ⟨?_, rfl⟩) (h.queue id hid) ?_ ?_ h.offered
  · simp only [heldGroups, Function.update_of_ne hother]
  · rw [hheld]
  · rw [hheld]
    exact h.filled id hid

/-- A mem writer that reads its work ring has the oldest group of it. -/
theorem Conserved.read (h : Conserved s) {id : ℕ} (hid : id < packetGroupWorkRingCount)
    (htaken : readStep env s id = some next) : Conserved next := by
  obtain ⟨contents, hqueue⟩ := h.queue id hid
  rcases hdequeue : rwRingScDequeue (s.rings.ring id) with ⟨found, ring⟩
  rw [readStep, hdequeue] at htaken
  obtain ⟨w, hmem, rfl⟩ := Option.map_eq_some_iff.mp htaken
  have hfacts : (∃ contents, Queue ring contents) ∧
      (ringContents ring ++ (heldGroup w.pc).toList).Perm (heldGroups s id) := by
    rw [heldGroups, hqueue.ringContents_eq]
    cases memStep_move hmem with
    | readNone hpc =>
      obtain rfl := hqueue.dequeue_none hdequeue
      rw [hqueue.ringContents_eq, hpc]
      exact ⟨⟨contents, hqueue⟩, List.Perm.refl _⟩
    | readSome group hpc =>
      obtain ⟨rest, rfl, hring⟩ := hqueue.dequeue hdequeue
      rw [hring.ringContents_eq, hpc]
      refine ⟨⟨rest, hring⟩, ?_⟩
      show (rest ++ [group]).Perm (group :: rest ++ [])
      rw [List.append_nil]
      exact List.perm_append_singleton group rest
  set next : GroupRun :=
    { s with
      rings := { s.rings with ring := Function.update s.rings.ring id ring }
      memWriters := Function.update s.memWriters id w } with hnext
  have hheld : (heldGroups next id).Perm (heldGroups s id) := by
    have hnextHeld : heldGroups next id = ringContents ring ++ (heldGroup w.pc).toList := by
      simp only [hnext, heldGroups, Function.update_self]
    rw [hnextHeld]
    exact hfacts.2
  refine h.of_ring hid rfl (fun other hother ↦ ?_) ?_ (hheld.append_left _)
    (fun group hgroup ↦ h.filled id hid group (hheld.mem_iff.mp hgroup)) h.offered
  · constructor
    · simp only [hnext, heldGroups, Function.update_of_ne hother]
    · simp only [hnext, Function.update_of_ne hother]
  · simp only [hnext, Function.update_self]
    exact hfacts.1

/-- A mem writer that has written a group gives it back to the resource ring. -/
theorem Conserved.giveBack (h : Conserved s) {id : ℕ} (hid : id < packetGroupWorkRingCount)
    (htaken : giveBackStep env s id = some next) : Conserved next := by
  unfold giveBackStep at htaken
  split at htaken
  · next group hpc =>
    rcases henqueue : mrmwRingSpEnqueue packetGroupCount s.pool group with ⟨accepted, pool⟩
    rw [henqueue] at htaken
    obtain ⟨w, hmem, rfl⟩ := Option.map_eq_some_iff.mp htaken
    set next : GroupRun :=
      { s with pool := pool, memWriters := Function.update s.memWriters id w } with hnext
    have hheldBefore : heldGroups s id = ringContents (s.rings.ring id) ++ [group] := by
      rw [heldGroups, hpc]
      rfl
    have hheld : heldGroups next id = ringContents (s.rings.ring id) ++ (heldGroup w.pc).toList := by
      simp only [hnext, heldGroups, Function.update_self]
    have hmoved : (pool ++ (heldGroup w.pc).toList).Perm (s.pool ++ [group]) ∧
        ∀ other ∈ heldGroup w.pc, other = group := by
      cases memStep_move hmem with
      | giveBack =>
        rw [eq_append_of_mrmwRingSpEnqueue henqueue]
        refine ⟨?_, fun other hother ↦ (Option.not_mem_none _ hother).elim⟩
        show (s.pool ++ [group] ++ []).Perm (s.pool ++ [group])
        rw [List.append_nil]
      | giveBackWait =>
        have hpool : pool = s.pool := eq_of_mrmwRingSpEnqueue_false henqueue
        rw [hpool, hpc]
        exact ⟨List.Perm.refl _, fun other hother ↦ (Option.some.inj hother).symm⟩
    refine h.of_ring hid rfl (fun other hother ↦ ⟨?_, rfl⟩) (h.queue id hid) ?_ ?_ h.offered
    · simp only [hnext, heldGroups, Function.update_of_ne hother]
    · rw [hheld, hheldBefore]
      calc
        _ = pool ++ s.packetGroup.toList ++
            (ringContents (s.rings.ring id) ++ (heldGroup w.pc).toList) := rfl
        List.Perm _ (pool ++ (heldGroup w.pc).toList ++
            (s.packetGroup.toList ++ ringContents (s.rings.ring id))) := by
          rw [List.append_assoc, List.append_assoc, ← List.append_assoc s.packetGroup.toList]
          exact List.perm_append_comm.append_left pool
        List.Perm _ (s.pool ++ [group] ++
            (s.packetGroup.toList ++ ringContents (s.rings.ring id))) :=
          hmoved.1.append_right _
        List.Perm _ (s.pool ++ s.packetGroup.toList ++
            (ringContents (s.rings.ring id) ++ [group])) := by
          rw [List.append_assoc, List.append_assoc, ← List.append_assoc s.packetGroup.toList]
          exact List.perm_append_comm.append_left s.pool
    · intro other hother
      rw [hheld, List.mem_append, Option.mem_toList] at hother
      refine h.filled id hid other ?_
      rw [hheldBefore, List.mem_append, List.mem_singleton]
      exact hother.imp_right (hmoved.2 other)
  · cases htaken

/-- Every step keeps the invariant. -/
theorem Conserved.step (h : Conserved s) {event : GroupEvent}
    (htaken : groupStep env s event = some next) : Conserved next := by
  have hrecv : recvStep env s event = some next → Conserved next := fun hrecv ↦
    h.recvMove (recvStep_move hrecv).1 (recvStep_move hrecv).2
  cases event with
  | read id =>
    simp only [groupStep] at htaken
    split_ifs at htaken with hid
    exact h.read hid htaken
  | giveBack id =>
    simp only [groupStep] at htaken
    split_ifs at htaken with hid
    exact h.giveBack hid htaken
  | mem id event =>
    simp only [groupStep] at htaken
    split_ifs at htaken with hid
    obtain ⟨w, hmem, rfl⟩ := Option.map_eq_some_iff.mp htaken
    exact h.mem hid.1 hid.2 hmem
  | _ => exact hrecv htaken

end Steps

/-- After `Configs::init` all groups are in the resource ring. -/
theorem conserved_start {memory : ℕ → PacketGroup} {rings : ℕ → RwRing ℕ}
    {packetHeader : PacketHead} (hrings : ∀ id < packetGroupWorkRingCount, Queue (rings id) []) :
    Conserved (.start memory rings packetHeader) := by
  have hheld : ∀ id < packetGroupWorkRingCount,
      heldGroups (.start memory rings packetHeader) id = [] := by
    intro id hid
    have hring : ringContents (rings id) = [] := (hrings id hid).ringContents_eq
    show ringContents (rings id) ++ [] = []
    rw [hring, List.append_nil]
  refine ⟨fun id hid ↦ ⟨[], hrings id hid⟩, ?_, fun id hid group hgroup ↦ ?_, fun hoffering ↦ ?_⟩
  · have hnone : (List.range packetGroupWorkRingCount).flatMap
        (heldGroups (.start memory rings packetHeader)) = [] :=
      List.flatMap_eq_nil_iff.mpr fun id hid ↦ hheld id (List.mem_range.mp hid)
    rw [groupPlaces, places, hnone, List.append_nil]
    exact List.Perm.of_eq (List.append_nil _)
  · rw [hheld id hid] at hgroup
    cases hgroup
  · cases hoffering

/-- In every state of every interleaving each group is in one place, so that no two mem writers have
the same group. A mem writer writes only groups with rows, so that the early return is never taken.
And a call of `write_packet_group_work` that returns false has left every ring as it was, as does
every turn of its loop that has not handed over the group. -/
theorem groups_conserved {env : RecvEnv} {memory : ℕ → PacketGroup} {rings : ℕ → RwRing ℕ}
    {data : ℕ → Option (ℕ → Option ℕ)} {packetHeader : PacketHead}
    (hrings : ∀ id < packetGroupWorkRingCount,
      createRwRing (data id) workRingCacheCount = some (rings id))
    {s : GroupRun} (hrun : Reachable (groupStep env) (.start memory rings packetHeader) s) :
    (∀ group < packetGroupCount, (groupPlaces s).count group = 1) ∧
      (∀ id < packetGroupWorkRingCount, ∀ other < packetGroupWorkRingCount, other ≠ id →
        ∀ group ∈ heldGroups s id, group ∉ heldGroups s other) ∧
      (∀ id < packetGroupWorkRingCount, ∀ group, (s.memWriters id).pc = .writing group →
        (s.memory group).addRows ≠ 0) ∧
      (∀ group rings, writeWork s.rings group = (false, rings) → rings.ring = s.rings.ring) ∧
      ∀ next, groupStep env s .offer = some next → next.packetGroup = s.packetGroup →
        next.rings.ring = s.rings.ring := by
  have hconserved : Conserved s := by
    refine hrun.invariant (conserved_start fun id hid ↦ ?_) fun _ _ _ h _ htaken ↦ h.step htaken
    exact @queue_create _ _ _ 1 (by omega) (hrings id hid)
  refine ⟨fun group hgroup ↦ ?_, fun id hid other hother hne group hgroup ↦ ?_,
    fun id hid group hpc ↦ ?_, fun group rings hfalse ↦ ring_writeWork_of_false hfalse,
    fun next htaken hgroup ↦ ?_⟩
  · rw [hconserved.once.count_eq]
    exact List.count_eq_one_of_mem List.nodup_range (List.mem_range.mpr hgroup)
  · exact not_mem_held_of_held hconserved.nodup hid hother hne hgroup
  · refine hconserved.filled id hid group (List.mem_append_right _ ?_)
    rw [hpc]
    exact List.mem_singleton.mpr rfl
  · exact (recvStep_move htaken).1.ring_eq hgroup

/-- A packet comes in, the timer has its group handed over, and mem writer 0 writes it. -/
def oneGroup : List GroupEvent :=
  [.recvHead (some (List.replicate 24 0)) exampleTm, .acquire, .recvPayload (some [1, 2]), .timer,
    .flushTest, .offer, .read 0, .mem 0 (.testDay exampleTm), .mem 0 (.openFile (some 5) 4),
    .mem 0 (.write 100)]

/-- The work ring that `init` creates for every mem writer. -/
def groupRing : RwRing ℕ :=
  { size := 2
    mask := 1
    consIndx := 0
    prodIndx := 0
    objs := fun _ ↦ none }

/-- Group 0 is with mem writer 0 and no other. -/
theorem groups_conserved_oneGroup :
    ∃ s : GroupRun, Reachable (groupStep exampleEnv)
        (.start (fun _ ↦ exampleGroup) (fun _ ↦ groupRing) (.ofBytes [])) s ∧
      heldGroups s 0 = [0] ∧ (groupPlaces s).count 0 = 1 ∧ 0 ∉ heldGroups s 1 := by
  obtain ⟨s, hexecute, hheld⟩ : ∃ s, execute (groupStep exampleEnv) anyEvent
      (.start (fun _ ↦ exampleGroup) (fun _ ↦ groupRing) (.ofBytes [])) oneGroup = some s ∧
        heldGroups s 0 = [0] := ⟨_, rfl, rfl⟩
  have hrun := run_of_execute hexecute
  have hconserved := @groups_conserved _ _ _ (fun _ ↦ some fun _ ↦ none) _ (fun _ _ ↦ rfl) _ hrun
  refine ⟨s, hrun, hheld, hconserved.1 0 (by decide), ?_⟩
  exact hconserved.2.1 0 (by decide) 1 (by decide) (by decide) 0 (by simp [hheld])

end CppLearn.RecvEngine.PacketGroupPool
