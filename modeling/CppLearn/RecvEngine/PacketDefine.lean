import Mathlib.Data.List.Basic
import Mathlib.Logic.Function.Basic
import CppLearn.Foundation.ByteOrder

/-!
# Packet heads and packet groups

The records of `packet_define.h`: the `PacketHead` that the capture program sends in front of every
packet, and the `PacketGroup` in which the receiver collects packets. A group is a structure of
arrays, of which the first `addRows` entries count; `PacketGroup.rows` reads them as rows. A head
travels as its bytes in memory, and `PacketHead.ofBytes_toBytes` is the round trip.
-/

set_option autoImplicit false
set_option relaxedAutoImplicit false

namespace CppLearn.RecvEngine.PacketDefine

open Foundation.ByteOrder

/-- `MAX_PACKET_COUNT`, the number of packets a group can hold. -/
def maxPacketCount : ℕ := 100000

/-- `MAX_PACKET_LENGTH`, the bytes of one payload slot. -/
def maxPacketLength : ℕ := 1536

/-- `PACKET_GROUP_WORK_RING_COUNT`. -/
def packetGroupWorkRingCount : ℕ := 4

/-- `WORK_RING_CACHE_COUNT`, the size of a work ring of packet groups. -/
def workRingCacheCount : ℕ := 2

/-! ### The head of a packet -/

/-- `PacketHead`. -/
structure PacketHead where
  time : BitVec 64
  sip : BitVec 32
  dip : BitVec 32
  sp : BitVec 16
  dp : BitVec 16
  dsize : BitVec 16
  ipProto : BitVec 16
  deriving DecidableEq

/-- `PACKET_HEADER_LEN`, the size of a `PacketHead`. -/
def packetHeaderLen : ℕ := 24

/-- The bytes of a head in memory. -/
def PacketHead.toBytes (ph : PacketHead) : List Byte :=
  bytesOfWord 8 ph.time ++ bytesOfWord 4 ph.sip ++ bytesOfWord 4 ph.dip ++ bytesOfWord 2 ph.sp ++
    bytesOfWord 2 ph.dp ++ bytesOfWord 2 ph.dsize ++ bytesOfWord 2 ph.ipProto

/-- The head whose bytes in memory are given. -/
def PacketHead.ofBytes (bytes : List Byte) : PacketHead :=
  { time := wordOfBytes 64 (bytes.take 8)
    sip := wordOfBytes 32 ((bytes.drop 8).take 4)
    dip := wordOfBytes 32 ((bytes.drop 12).take 4)
    sp := wordOfBytes 16 ((bytes.drop 16).take 2)
    dp := wordOfBytes 16 ((bytes.drop 18).take 2)
    dsize := wordOfBytes 16 ((bytes.drop 20).take 2)
    ipProto := wordOfBytes 16 ((bytes.drop 22).take 2) }

theorem PacketHead.length_toBytes (ph : PacketHead) : ph.toBytes.length = packetHeaderLen := by
  simp [PacketHead.toBytes, packetHeaderLen]

/-- A head read from its own bytes is the head. -/
theorem PacketHead.ofBytes_toBytes (ph : PacketHead) : PacketHead.ofBytes ph.toBytes = ph := by
  have hword : 2 ^ 64 = 256 ^ 8 ∧ 2 ^ 32 = 256 ^ 4 ∧ 2 ^ 16 = 256 ^ 2 := by decide
  simp [PacketHead.ofBytes, PacketHead.toBytes, List.drop_append, List.take_of_length_le,
    List.drop_of_length_le, wordOfBytes_bytesOfWord hword.1, wordOfBytes_bytesOfWord hword.2.1,
    wordOfBytes_bytesOfWord hword.2.2]

/-! ### Packet groups -/

/-- The second of a packet, as `add_to_packet_group` takes it from the head's time. -/
def packetSecond (time : BitVec 64) : ℤ := (time >>> 32).toNat

theorem packetSecond_eq (time : BitVec 64) :
    packetSecond time = ((time.toNat / 2 ^ 32 : ℕ) : ℤ) := by
  rw [packetSecond, BitVec.toNat_ushiftRight, Nat.shiftRight_eq_div_pow]

/-- One entry of `payload_values`: the recorded length, and the bytes of the slot `ptr` points
to. -/
structure PayloadValue where
  len : ℕ
  slot : List Byte
  deriving DecidableEq

/-- `PacketGroup`. -/
structure PacketGroup where
  addRows : ℕ
  startTime : ℤ
  endTime : ℤ
  dataSize : ℕ
  timeValues : ℕ → BitVec 64
  sipValues : ℕ → BitVec 32
  dipValues : ℕ → BitVec 32
  sportValues : ℕ → BitVec 32
  dportValues : ℕ → BitVec 32
  dsizeValues : ℕ → BitVec 32
  protoValues : ℕ → BitVec 32
  payloadValues : ℕ → PayloadValue

/-- One row of a group: an entry of each array, with as much of the recorded payload as lies in the
slot of the row. -/
structure PacketRow where
  time : BitVec 64
  sip : BitVec 32
  dip : BitVec 32
  sport : BitVec 32
  dport : BitVec 32
  dsize : BitVec 32
  proto : BitVec 32
  len : ℕ
  payload : List Byte
  deriving DecidableEq

/-- The second of a row. -/
def PacketRow.second (row : PacketRow) : ℤ := packetSecond row.time

/-- The entry of every array at one index. -/
def PacketGroup.row (pg : PacketGroup) (indx : ℕ) : PacketRow :=
  { time := pg.timeValues indx
    sip := pg.sipValues indx
    dip := pg.dipValues indx
    sport := pg.sportValues indx
    dport := pg.dportValues indx
    dsize := pg.dsizeValues indx
    proto := pg.protoValues indx
    len := (pg.payloadValues indx).len
    payload := (pg.payloadValues indx).slot.take (min (pg.payloadValues indx).len maxPacketLength) }

/-- The first `addRows` rows. -/
def PacketGroup.rows (pg : PacketGroup) : List PacketRow :=
  (List.range pg.addRows).map pg.row

/-- The row of a packet: the fields of its head, the length of its payload, and as much of the
payload as a slot holds. -/
def rowOfPacket (ph : PacketHead) (payload : List Byte) : PacketRow :=
  { time := ph.time
    sip := ph.sip
    dip := ph.dip
    sport := ph.sp.setWidth 32
    dport := ph.dp.setWidth 32
    dsize := ph.dsize.setWidth 32
    proto := ph.ipProto.setWidth 32
    len := payload.length
    payload := payload.take maxPacketLength }

end CppLearn.RecvEngine.PacketDefine
