import Mathlib.Order.CompletePartialOrder
import Mathlib.Order.Interval.Set.Defs
import CppLearn.Foundation.GuardedRun
import CppLearn.RecvEngine.PacketReceiver

/-!
# Payload slots

A packet group lies at the beginning of a bucket, with one slot of `MAX_PACKET_LENGTH` bytes for the
payload of every row behind it (`payloadPtrs`). The receiver records what `zmq_recv` returns as the
length of a payload, which is the length of the message part and not of what was stored.

The rows of a group never pass `MAX_PACKET_COUNT`: a full group is handed over in the call that fills
it (`RowsFit`). A recorded payload lies in its slot exactly if its part fits the slot, so that the
slices of all groups are apart and in their buckets exactly in the runs without a longer part
(`slotsInside_iff`).
-/

set_option autoImplicit false
set_option relaxedAutoImplicit false

namespace CppLearn.RecvEngine.PayloadSlots

open Foundation.GuardedRun
open PacketDefine PacketReceiver

/-! ### The bucket of a group -/

/-- `sizeof(PacketGroup)`: four words, and for every row the entries of the eight arrays. -/
def sizeofPacketGroup : ℕ := 4 * 8 + maxPacketCount * (8 + 6 * 4 + 16)

/-- What `Configs::init` allocates for a group. -/
def bucketSize : ℕ := sizeofPacketGroup + maxPacketCount * maxPacketLength

/-- The loop of `Configs::init` over the slots of a group, with what `bucket` has come to. -/
def initPayloadPtrs : ℕ → ℕ → List ℕ
  | 0, _ => []
  | remaining + 1, bucket => bucket :: initPayloadPtrs remaining (bucket + maxPacketLength)

/-- The values `payload_values[j].ptr` of the group in a bucket. -/
def payloadPtrs (bucket : ℕ) : List ℕ :=
  initPayloadPtrs maxPacketCount (bucket + sizeofPacketGroup)

theorem getElem?_initPayloadPtrs {remaining indx : ℕ} (hindx : indx < remaining) (bucket : ℕ) :
    (initPayloadPtrs remaining bucket)[indx]? = some (bucket + indx * maxPacketLength) := by
  induction remaining generalizing indx bucket with
  | zero => cases hindx
  | succ remaining ih =>
    cases indx with
    | zero => simp [initPayloadPtrs]
    | succ indx =>
      rw [initPayloadPtrs, List.getElem?_cons_succ, ih (Nat.lt_of_succ_lt_succ hindx)]
      congr 1
      rw [Nat.succ_mul]
      omega

/-- `[ptr, ptr + len)` of a row of the group in a bucket. -/
def slice (bucket : ℕ) (pg : PacketGroup) (indx : ℕ) : Set ℕ :=
  let ptr := (payloadPtrs bucket).getD indx 0
  Set.Ico ptr (ptr + (pg.payloadValues indx).len)

theorem slice_eq {pg : PacketGroup} {indx : ℕ} (hindx : indx < maxPacketCount) (bucket : ℕ) :
    slice bucket pg indx = Set.Ico (bucket + sizeofPacketGroup + indx * maxPacketLength)
      (bucket + sizeofPacketGroup + indx * maxPacketLength + (pg.payloadValues indx).len) := by
  have hptr : (payloadPtrs bucket).getD indx 0 =
      bucket + sizeofPacketGroup + indx * maxPacketLength := by
    rw [List.getD_eq_getElem?_getD, payloadPtrs, getElem?_initPayloadPtrs hindx, Option.getD_some]
  rw [slice, hptr]

/-- The rows of a group have their entries in the arrays, their lengths are those of a slot, and
their slices are apart from one another and in the bucket. -/
structure GroupInside (pg : PacketGroup) : Prop where
  row : ∀ indx < pg.addRows, indx < maxPacketCount
  len : ∀ indx < pg.addRows, (pg.payloadValues indx).len ≤ maxPacketLength
  disjoint : ∀ bucket, ∀ first < pg.addRows, ∀ second < pg.addRows, first ≠ second →
    Disjoint (slice bucket pg first) (slice bucket pg second)
  inside : ∀ bucket, ∀ indx < pg.addRows,
    slice bucket pg indx ⊆ Set.Ico bucket (bucket + bucketSize)

/-- Rows whose payloads fit their slots have slices apart and in the bucket. -/
theorem groupInside_of_len {pg : PacketGroup} (hrows : pg.addRows ≤ maxPacketCount)
    (hlen : ∀ indx < pg.addRows, (pg.payloadValues indx).len ≤ maxPacketLength) :
    GroupInside pg where
  row indx hindx := hindx.trans_le hrows
  len := hlen
  disjoint bucket first hfirst second hsecond hne := by
    have hfirstLen := hlen first hfirst
    have hsecondLen := hlen second hsecond
    rw [slice_eq (hfirst.trans_le hrows), slice_eq (hsecond.trans_le hrows), Set.disjoint_left]
    rintro address ⟨hge, hlt⟩ ⟨hge', hlt'⟩
    rw [maxPacketLength] at *
    omega
  inside bucket indx hindx := by
    have hindxLen := hlen indx hindx
    have hindxLt := hindx.trans_le hrows
    rw [slice_eq hindxLt]
    rintro address ⟨hge, hlt⟩
    have hsize : bucketSize = sizeofPacketGroup + maxPacketCount * maxPacketLength := rfl
    rw [Set.mem_Ico, hsize]
    rw [maxPacketCount] at hindxLt
    rw [maxPacketLength] at *
    rw [maxPacketCount]
    omega

/-! ### Rows of a group -/

/-- The groups that a receiver has handed over or holds. -/
def groups (st : Receiver) : List PacketGroup := st.handedOver ++ st.packetGroup.toList

/-- The groups handed over are at most full, and the one held has room for a row. -/
structure RowsFit (held : Option PacketGroup) (st : Receiver) : Prop where
  held : ∀ pg, held = some pg → pg.addRows < maxPacketCount
  handedOver : ∀ pg ∈ st.handedOver, pg.addRows ≤ maxPacketCount

/-- What holds between two calls. -/
def Kept (st : Receiver) : Prop := Conserved st ∧ RowsFit st.packetGroup st

section Rows

variable {env : RecvEnv} {input : RecvInput} {pg : PacketGroup} {st next : Receiver}

/-- What a flush changes. -/
theorem packetGroupFlushToMem_eq {attempts : List (List ℕ)}
    (hflush : packetGroupFlushToMem attempts pg st = some next) :
    (pg.addRows ≠ 0 ∧ next.packetGroup = none ∧ next.handedOver = st.handedOver ++ [pg] ∨
      pg.addRows = 0 ∧ next.packetGroup = some pg ∧ next.handedOver = st.handedOver) ∧
      next.accepted = st.accepted ∧ next.socket = st.socket ∧
      next.packetHeader = st.packetHeader := by
  unfold packetGroupFlushToMem at hflush
  split_ifs at hflush with hrows
  · obtain ⟨configs, -, rfl⟩ := Option.map_eq_some_iff.mp hflush
    exact ⟨.inl ⟨by simpa using hrows, rfl, rfl⟩, rfl, rfl, rfl⟩
  · cases hflush
    exact ⟨.inr ⟨by simpa using hrows, rfl, rfl⟩, rfl, rfl, rfl⟩

/-- A flush of a group that is at most full leaves room in the group held. -/
theorem RowsFit.flush (h : ∀ pg ∈ st.handedOver, pg.addRows ≤ maxPacketCount)
    (hrows : pg.addRows ≤ maxPacketCount) {attempts : List (List ℕ)}
    (hflush : packetGroupFlushToMem attempts pg st = some next) :
    RowsFit next.packetGroup next := by
  obtain ⟨⟨-, hheld, hhandedOver⟩ | ⟨hnone, hheld, hhandedOver⟩, -⟩ :=
    packetGroupFlushToMem_eq hflush
  · refine ⟨fun other hother ↦ ?_, fun other hother ↦ ?_⟩
    · rw [hheld] at hother
      cases hother
    · rw [hhandedOver] at hother
      rcases List.mem_append.mp hother with hother | hother
      · exact h other hother
      · rw [List.mem_singleton.mp hother]
        exact hrows
  · refine ⟨fun other hother ↦ ?_, hhandedOver ▸ h⟩
    rw [hheld] at hother
    cases hother
    rw [hnone]
    decide

theorem RowsFit.dayChangeFlush (h : RowsFit st.packetGroup st)
    (hflush : dayChangeFlush env input st = some next) : RowsFit next.packetGroup next := by
  unfold PacketReceiver.dayChangeFlush at hflush
  split at hflush
  · cases hflush
    exact h
  · next pg hpg =>
    split_ifs at hflush
    · exact RowsFit.flush h.handedOver (h.held pg hpg).le hflush
    · cases hflush
      exact h

theorem RowsFit.heldPacketGroup (h : RowsFit st.packetGroup st) (input : RecvInput) :
    (heldPacketGroup input st).addRows < maxPacketCount := by
  unfold PacketReceiver.heldPacketGroup
  split
  · show 0 < maxPacketCount
    decide
  · next pg hpg => exact h.held pg hpg

/-- The payload makes the group held at most full, and a full group is flagged. -/
theorem recvPayload_rows (hrows : pg.addRows < maxPacketCount) :
    (recvPayload pg st).1.addRows ≤ maxPacketCount ∧
      ((recvPayload pg st).1.addRows < maxPacketCount ∨
        (recvPayload pg st).2.doPacketGroupFlush = true) ∧
      (recvPayload pg st).2.handedOver = st.handedOver := by
  unfold recvPayload
  split
  · exact ⟨hrows.le, .inl hrows, rfl⟩
  · next part socket hrecv =>
    have hnext : (addToPacketGroup (storePayload pg part) st.packetHeader part.length).addRows =
        pg.addRows + 1 := rfl
    refine ⟨hnext ▸ hrows, ?_, rfl⟩
    by_cases hfull : pg.addRows + 1 = maxPacketCount
    · exact .inr (by simp [hnext, hfull])
    · exact .inl (by rw [hnext]; omega)

theorem RowsFit.finalFlush (h : ∀ pg ∈ st.handedOver, pg.addRows ≤ maxPacketCount)
    (hrows : pg.addRows ≤ maxPacketCount)
    (hfull : pg.addRows < maxPacketCount ∨ st.doPacketGroupFlush = true)
    (hflush : finalFlush input pg st = some next) : RowsFit next.packetGroup next := by
  unfold PacketReceiver.finalFlush at hflush
  split_ifs at hflush with hflag
  · exact RowsFit.flush h hrows hflush
  · cases hflush
    refine ⟨?_, h⟩
    rintro _ ⟨⟩
    exact hfull.resolve_right hflag

/-- One call of `recv_packet` keeps the groups at most full. -/
theorem RowsFit.recvPacket (h : RowsFit st.packetGroup st)
    (hrecv : recvPacket env input st = some next) : RowsFit next.packetGroup next := by
  simp only [PacketReceiver.recvPacket, Option.bind_eq_bind, Option.bind_eq_some_iff] at hrecv
  obtain ⟨flushed, hday, last, hfinal, hnext⟩ := hrecv
  cases hnext
  have hflushed : RowsFit flushed.packetGroup flushed := by
    refine RowsFit.dayChangeFlush ?_ hday
    exact ⟨h.held, h.handedOver⟩
  have hheld := hflushed.heldPacketGroup input
  have hlast : RowsFit last.packetGroup last := by
    split_ifs at hfinal
    · obtain ⟨hrows, hfull, hhandedOver⟩ := @recvPayload_rows _ flushed hheld
      refine RowsFit.finalFlush (hhandedOver ▸ hflushed.handedOver) hrows ?_ hfinal
      exact hfull.imp_right fun hflag ↦ by rw [onTimeout, hflag]; rfl
    · refine RowsFit.finalFlush ?_ hheld.le (.inl hheld) hfinal
      exact hflushed.handedOver
  exact ⟨hlast.held, hlast.handedOver⟩

end Rows

/-! ### Parts that fit a slot -/

/-- The part that a call takes as a payload: the next one after a part with the length of a head. -/
def payloadPart (socket : ZmqSocket) : Option Part :=
  if (zmqRecv socket).1.map List.length = some packetHeaderLen then
    (zmqRecv (zmqRecv socket).2).1
  else none

/-- The payload that a call takes has at most `MAX_PACKET_LENGTH` bytes. -/
def PayloadFits (st : Receiver) (_ : RecvInput) : Prop :=
  ∀ part ∈ payloadPart st.socket, part.length ≤ maxPacketLength

section Accepted

variable {env : RecvEnv} {input : RecvInput} {pg : PacketGroup} {st next : Receiver}

theorem dayChangeFlush_eq (hflush : dayChangeFlush env input st = some next) :
    next.accepted = st.accepted ∧ next.socket = st.socket ∧
      next.packetHeader = st.packetHeader := by
  unfold dayChangeFlush at hflush
  split at hflush
  · cases hflush
    exact ⟨rfl, rfl, rfl⟩
  · split_ifs at hflush
    · exact (packetGroupFlushToMem_eq hflush).2
    · cases hflush
      exact ⟨rfl, rfl, rfl⟩

theorem finalFlush_accepted (hflush : finalFlush input pg st = some next) :
    next.accepted = st.accepted := by
  unfold finalFlush at hflush
  split_ifs at hflush
  · exact (packetGroupFlushToMem_eq hflush).2.1
  · cases hflush
    rfl

theorem recvPayload_accepted (pg : PacketGroup) (st : Receiver) :
    (recvPayload pg st).2.accepted =
      st.accepted ++ ((zmqRecv st.socket).1.map fun part ↦ (st.packetHeader, part)).toList := by
  unfold recvPayload
  split
  · next socket hrecv => simp [hrecv]
  · next part socket hrecv => simp [hrecv]

/-- A call accepts the payload it takes, under the head it has received. -/
theorem recvPacket_accepted (hrecv : recvPacket env input st = some next) :
    next.accepted = st.accepted ++ ((payloadPart st.socket).map fun part ↦
      (storeHead st.packetHeader (zmqRecv st.socket).1, part)).toList := by
  simp only [recvPacket, Option.bind_eq_bind, Option.bind_eq_some_iff] at hrecv
  obtain ⟨flushed, hday, last, hfinal, hnext⟩ := hrecv
  cases hnext
  obtain ⟨haccepted, hsocket, hheader⟩ := dayChangeFlush_eq hday
  have haccepted : flushed.accepted = st.accepted := haccepted
  have hsocket : flushed.socket = (zmqRecv st.socket).2 := hsocket
  have hheader : flushed.packetHeader = storeHead st.packetHeader (zmqRecv st.socket).1 := hheader
  show last.accepted = _
  rw [payloadPart]
  split_ifs at hfinal ⊢ with hhead
  · rw [finalFlush_accepted hfinal]
    show (recvPayload (heldPacketGroup input flushed) flushed).2.accepted = _
    rw [recvPayload_accepted, haccepted, hsocket, hheader]
  · rw [finalFlush_accepted hfinal]
    show flushed.accepted = _
    rw [haccepted, Option.map_none, Option.toList_none, List.append_nil]

end Accepted

/-- Every group handed over or held is inside its bucket. -/
def SlotsInside (st : Receiver) : Prop := ∀ pg ∈ groups st, GroupInside pg

/-- The rows of all groups are the packets accepted. -/
theorem flatMap_rows_groups {st : Receiver} (h : Conserved st) :
    (groups st).flatMap PacketGroup.rows =
      st.accepted.map fun packet ↦ rowOfPacket packet.1 packet.2 := by
  rw [← h.rows_eq, groups, List.flatMap_append, heldRows]
  cases st.packetGroup <;> simp

/-- The slots are kept exactly if every packet accepted fits one. -/
theorem slotsInside_iff_accepted {st : Receiver} (h : Conserved st)
    (hrows : RowsFit st.packetGroup st) :
    SlotsInside st ↔ ∀ packet ∈ st.accepted, packet.2.length ≤ maxPacketLength := by
  have hall : (∀ pg ∈ groups st, ∀ row ∈ pg.rows, row.len ≤ maxPacketLength) ↔
      ∀ packet ∈ st.accepted, packet.2.length ≤ maxPacketLength := by
    have hflat := flatMap_rows_groups h
    calc (∀ pg ∈ groups st, ∀ row ∈ pg.rows, row.len ≤ maxPacketLength)
        ↔ ∀ row ∈ (groups st).flatMap PacketGroup.rows, row.len ≤ maxPacketLength := by
          simp only [List.mem_flatMap]
          exact ⟨fun hlen row ⟨pg, hpg, hrow⟩ ↦ hlen pg hpg row hrow,
            fun hlen pg hpg row hrow ↦ hlen row ⟨pg, hpg, hrow⟩⟩
      _ ↔ ∀ packet ∈ st.accepted, packet.2.length ≤ maxPacketLength := by
          rw [hflat, List.forall_mem_map]
          rfl
  rw [← hall]
  constructor
  · intro hinside pg hpg row hrow
    obtain ⟨indx, hindx, rfl⟩ := List.mem_map.mp hrow
    exact (hinside pg hpg).len indx (List.mem_range.mp hindx)
  · intro hlen pg hpg
    refine groupInside_of_len ?_ fun indx hindx ↦
      hlen pg hpg _ (List.mem_map_of_mem (List.mem_range.mpr hindx))
    rcases List.mem_append.mp hpg with hpg | hpg
    · exact hrows.handedOver pg hpg
    · exact (hrows.held pg (Option.mem_toList.mp hpg)).le

/-- One call of `recv_packet`. -/
def recvStep (env : RecvEnv) (st : Receiver) (input : RecvInput) : Option Receiver :=
  recvPacket env input st

/-- After any calls every row of every group handed over or held has an index under
`MAX_PACKET_COUNT` and a length of at most `MAX_PACKET_LENGTH`, with slices apart and in the bucket
of the group, exactly if every call has taken a payload of at most `MAX_PACKET_LENGTH` bytes or
none. -/
theorem slotsInside_iff {env : RecvEnv} {packetHeader : PacketHead} {configs : Configs}
    {arrivals : List Arrival} {st : Receiver}
    (hrun : Reachable (recvStep env) (.start packetHeader configs arrivals) st) :
    SlotsInside st ↔ Run (recvStep env) PayloadFits (.start packetHeader configs arrivals) st := by
  have hstart : Kept (.start packetHeader configs arrivals) :=
    ⟨conserved_start packetHeader configs arrivals, fun _ hpg ↦ (Option.some_ne_none _ hpg.symm).elim,
      fun _ hpg ↦ (List.not_mem_nil hpg).elim⟩
  have hknown : ∀ state, Reachable (recvStep env) (.start packetHeader configs arrivals) state →
      Kept state := fun state hstate ↦
    hstate.invariant hstart fun _ _ _ h _ htaken ↦ ⟨h.1.recvPacket htaken, h.2.recvPacket htaken⟩
  refine run_iff hknown (fun _ hpg ↦ (List.not_mem_nil hpg).elim)
    (fun state input next h htaken ↦ ?_) hrun
  rw [slotsInside_iff_accepted h.1 h.2,
    slotsInside_iff_accepted (h.1.recvPacket htaken) (h.2.recvPacket htaken),
    recvPacket_accepted htaken, List.forall_mem_append]
  refine and_congr_right fun _ ↦ ?_
  simp [PayloadFits]

/-- A receiver to which one packet is sent, its payload of the given length. -/
def payloadOfLength (length : ℕ) : Receiver :=
  .start exampleHead exampleConfigs [.message exampleHead.toBytes [List.replicate length 1]]

/-- A payload that fills its slot. -/
theorem slotsInside_fullSlot :
    ∃ st, Reachable (recvStep exampleEnv) (payloadOfLength maxPacketLength) st ∧
      st.accepted.length = 1 ∧ SlotsInside st := by
  obtain ⟨st, htaken, hlength⟩ : ∃ st, recvStep exampleEnv (payloadOfLength maxPacketLength)
      (exampleInput false) = some st ∧ st.accepted.length = 1 := ⟨_, rfl, rfl⟩
  have hfits : PayloadFits (payloadOfLength maxPacketLength) (exampleInput false) := by
    have hpart : payloadPart (payloadOfLength maxPacketLength).socket =
        some (List.replicate maxPacketLength 1) := rfl
    rintro part hmem
    rw [hpart] at hmem
    cases hmem
    exact List.length_replicate.le
  have hrun : Run (recvStep exampleEnv) PayloadFits (payloadOfLength maxPacketLength) st :=
    .tail _ .refl hfits htaken
  have hany := hrun.mono fun _ _ _ ↦ trivial
  exact ⟨st, hany, hlength, (slotsInside_iff hany).mpr hrun⟩

/-- A payload of one byte more is recorded with its whole length, which reaches into the next slot. -/
theorem not_slotsInside_longPayload :
    ¬ ∀ st, Reachable (recvStep exampleEnv) (payloadOfLength 1537) st → SlotsInside st := by
  intro hinside
  obtain ⟨st, pg, htaken, hgroups, hrows, hlen⟩ : ∃ st pg, recvStep exampleEnv
      (payloadOfLength 1537) (exampleInput false) = some st ∧ groups st = [pg] ∧ pg.addRows = 1 ∧
        (pg.payloadValues 0).len = (List.replicate 1537 (1 : BitVec 8)).length :=
    ⟨_, _, rfl, rfl, rfl, rfl⟩
  have hgroup := hinside st (.tail _ .refl trivial htaken) pg
    (by rw [hgroups]; exact List.mem_singleton.mpr rfl)
  have hle := hgroup.len 0 (by rw [hrows]; exact Nat.one_pos)
  rw [hlen, List.length_replicate, maxPacketLength] at hle
  omega

end CppLearn.RecvEngine.PayloadSlots
