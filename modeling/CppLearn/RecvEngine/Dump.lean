import CppLearn.RecvEngine.PacketDefine

/-!
# The capture program

`dump` hands every captured frame to `PacketProcess`, which cuts it to 1514 bytes, decodes its
Ethernet, IPv4 and TCP or UDP headers and sends a `PacketHead` followed by the frame. The decoders
advance `data` and shrink `dsize` over the captured bytes; a read outside them makes the model
undefined. `addresses_of_decodeEther` says what they leave of a frame that carries an IPv4 packet: the
addresses as the words that stand in it. `Inside` is the invariant with which no read is undefined.
-/

set_option autoImplicit false
set_option relaxedAutoImplicit false

namespace CppLearn.RecvEngine.Dump

open Foundation.ByteOrder
open PacketDefine

/-! ### Constants -/

/-- `ETHERNET_HEADER_LEN`. -/
def ethernetHeaderLen : ℕ := 14

/-- `ETHERNET_TYPE_IP`. -/
def ethernetTypeIp : BitVec 16 := 0x0800

/-- `IPV4_HEADER_LEN`. -/
def ipv4HeaderLen : BitVec 16 := 20

/-- `TCP_HEADER_LEN` and `TCP_OPTLENMAX`. -/
def tcpHeaderLen : BitVec 16 := 20

@[inherit_doc tcpHeaderLen] def tcpOptlenmax : BitVec 16 := 40

/-- `UDP_HEADER_LEN`. -/
def udpHeaderLen : BitVec 16 := 8

/-- `IPPROTO_TCP` and `IPPROTO_UDP`. -/
def ipprotoTcp : BitVec 8 := 6

@[inherit_doc ipprotoTcp] def ipprotoUdp : BitVec 8 := 17

/-- The most bytes of a frame that `PacketProcess` keeps. -/
def maxCaplen : ℕ := 1514

/-! ### The packet being decoded -/

/-- `pcap_pkthdr`. -/
structure PcapPkthdr where
  tvSec : BitVec 64
  tvUsec : BitVec 64
  caplen : BitVec 32

/-- `Packet`. The pointers into the frame are offsets, and the null pointer is no offset. -/
structure Packet where
  src : BitVec 32
  dst : BitVec 32
  sp : BitVec 16
  dp : BitVec 16
  ipProto : BitVec 16
  dsize : BitVec 16
  data : ℕ
  pkth : PcapPkthdr
  pkt : List Byte
  ethh : Option ℕ
  ip4h : Option ℕ
  tcph : Option ℕ
  udph : Option ℕ

/-- The captured bytes of the frame, `[pkt, pkt + caplen)`. -/
def Packet.captured (p : Packet) : List Byte := p.pkt.take p.pkth.caplen.toNat

/-- The byte at an offset, undefined outside the captured bytes. -/
def loadByte (p : Packet) (offset : ℕ) : Option Byte := p.captured[offset]?

/-- The word of `count` bytes at an offset, undefined outside the captured bytes. -/
def loadWord (width count : ℕ) (p : Packet) (offset : ℕ) : Option (BitVec width) :=
  if offset + count ≤ p.captured.length then
    some (wordOfBytes width ((p.captured.drop offset).take count))
  else none

/-- `decode_tcp`. -/
def decodeTcp (p : Packet) : Option (Bool × Packet) :=
  if p.dsize < tcpHeaderLen then some (false, { p with tcph := none })
  else do
    let tcph := p.data
    let thOffx2 ← loadByte p (tcph + 12)
    let hlen : BitVec 16 := (thOffx2 &&& 0xf0).setWidth 16 >>> 2
    if hlen < tcpHeaderLen ∨ p.dsize < hlen ∨ tcpHeaderLen + tcpOptlenmax < hlen then
      return (false, { p with tcph := none })
    else
      let thSport ← loadWord 16 2 p tcph
      let thDport ← loadWord 16 2 p (tcph + 2)
      return (true, { p with
        tcph := some tcph
        sp := ntohs thSport
        dp := ntohs thDport
        data := p.data + hlen.toNat
        dsize := p.dsize - hlen })

/-- `decode_udp`. -/
def decodeUdp (p : Packet) : Option (Bool × Packet) :=
  if p.dsize < udpHeaderLen then some (false, { p with udph := none })
  else do
    let udph := p.data
    let udplen := ntohs (← loadWord 16 2 p (udph + 4))
    if udplen < udpHeaderLen ∨ p.dsize < udplen then
      return (false, { p with udph := none })
    else
      let uhSport ← loadWord 16 2 p udph
      let uhDport ← loadWord 16 2 p (udph + 2)
      return (true, { p with
        udph := some udph
        sp := ntohs uhSport
        dp := ntohs uhDport
        data := p.data + udpHeaderLen.toNat
        dsize := udplen - udpHeaderLen })

/-- The decoder of the protocol above IPv4, whose result `decode_ipv4` drops. -/
def decodeTransport (proto : Byte) (p : Packet) : Option Packet :=
  if proto = ipprotoTcp then (decodeTcp p).map Prod.snd
  else if proto = ipprotoUdp then (decodeUdp p).map Prod.snd
  else some p

/-- `decode_ipv4`. -/
def decodeIpv4 (p : Packet) : Option (Bool × Packet) :=
  if p.dsize < ipv4HeaderLen then some (false, { p with ip4h := none })
  else do
    let ip4h := p.data
    let ipVerhl ← loadByte p ip4h
    if (ipVerhl &&& 0xf0) >>> 4 ≠ 4 then return (false, { p with ip4h := none })
    else
      let hlen : BitVec 16 := (ipVerhl &&& 0x0f).setWidth 16 <<< 2
      let ipLen := ntohs (← loadWord 16 2 p (ip4h + 2))
      if hlen < ipv4HeaderLen ∨ ipLen < hlen ∨ p.dsize < ipLen then
        return (false, { p with ip4h := none })
      else
        let src ← loadWord 32 4 p (ip4h + 12)
        let dst ← loadWord 32 4 p (ip4h + 16)
        let ipProto ← loadByte p (ip4h + 9)
        let p ← decodeTransport ipProto { p with
          ip4h := some ip4h
          data := p.data + hlen.toNat
          dsize := ipLen - hlen
          src := src
          dst := dst
          ipProto := ipProto.setWidth 16 }
        return (true, p)

/-- `decode_ether`. The two null tests are left out: `PacketProcess` has set both pointers. -/
def decodeEther (p : Packet) : Option (Bool × Packet) :=
  if p.pkth.caplen.toNat < ethernetHeaderLen then some (false, { p with ethh := none })
  else do
    let ethType ← loadWord 16 2 p 12
    let p := { p with
      ethh := some 0
      data := ethernetHeaderLen
      dsize := (p.pkth.caplen - BitVec.ofNat 32 ethernetHeaderLen).setWidth 16 }
    if ntohs ethType = ethernetTypeIp then
      let (_, p) ← decodeIpv4 p
      return (true, p)
    else return (true, p)

/-- `decode`, without its counters and its printing: the head and the frame that it sends.
`curTime` is `g_cur_time`. -/
def decode (curTime : BitVec 64) (p : Packet) : Option (PacketHead × List Byte) := do
  let (_, p) ← decodeEther p
  let ph : PacketHead :=
    { time := curTime
      sip := p.src
      dip := p.dst
      sp := p.sp
      dp := p.dp
      dsize := p.pkth.caplen.setWidth 16
      ipProto := p.ipProto }
  return (ph, p.captured)

/-- `PacketProcess` on the header and the bytes that the capture library passes. -/
def packetProcess (pkthdr : PcapPkthdr) (pkt : List Byte) : Option (PacketHead × List Byte) :=
  let caplen :=
    if BitVec.ofNat 32 maxCaplen < pkthdr.caplen then BitVec.ofNat 32 maxCaplen
    else pkthdr.caplen
  decode pkthdr.tvSec
    { src := 0
      dst := 0
      sp := 0
      dp := 0
      ipProto := 0
      dsize := 0
      data := 0
      pkth := { pkthdr with caplen := caplen }
      pkt := pkt
      ethh := none
      ip4h := none
      tcph := none
      udph := none }

/-! ### Reads inside the captured bytes -/

/-- The data still to be decoded lies inside the captured bytes. -/
def Inside (p : Packet) : Prop := p.data + p.dsize.toNat ≤ p.captured.length

theorem loadWord_of_inside {p : Packet} (h : Inside p) (width count offset : ℕ)
    (hoffset : offset + count ≤ p.dsize.toNat) :
    loadWord width count p (p.data + offset) =
      some (wordOfBytes width ((p.captured.drop (p.data + offset)).take count)) := by
  have hle : p.data + offset + count ≤ p.captured.length := by
    unfold Inside at h
    omega
  rw [loadWord, if_pos hle]

/-! ### What the decoders leave -/

/-- The two packets are decodings of one frame that agree on its addresses. -/
structure SameAddresses (p q : Packet) : Prop where
  src_eq : q.src = p.src
  dst_eq : q.dst = p.dst
  pkth_eq : q.pkth = p.pkth
  pkt_eq : q.pkt = p.pkt

theorem sameAddresses_of_decodeTcp {p q : Packet} {ok : Bool}
    (hdecode : decodeTcp p = some (ok, q)) : SameAddresses p q := by
  unfold decodeTcp at hdecode
  split_ifs at hdecode
  · cases hdecode
    exact ⟨rfl, rfl, rfl, rfl⟩
  · simp only [Option.bind_eq_bind, Option.bind_eq_some_iff] at hdecode
    obtain ⟨thOffx2, -, hdecode⟩ := hdecode
    split_ifs at hdecode
    · cases hdecode
      exact ⟨rfl, rfl, rfl, rfl⟩
    · simp only [Option.bind_eq_some_iff] at hdecode
      obtain ⟨thSport, -, thDport, -, hdecode⟩ := hdecode
      cases hdecode
      exact ⟨rfl, rfl, rfl, rfl⟩

theorem sameAddresses_of_decodeUdp {p q : Packet} {ok : Bool}
    (hdecode : decodeUdp p = some (ok, q)) : SameAddresses p q := by
  unfold decodeUdp at hdecode
  split_ifs at hdecode
  · cases hdecode
    exact ⟨rfl, rfl, rfl, rfl⟩
  · simp only [Option.bind_eq_bind, Option.bind_eq_some_iff] at hdecode
    obtain ⟨udplen, -, hdecode⟩ := hdecode
    split_ifs at hdecode
    · cases hdecode
      exact ⟨rfl, rfl, rfl, rfl⟩
    · simp only [Option.bind_eq_some_iff] at hdecode
      obtain ⟨uhSport, -, uhDport, -, hdecode⟩ := hdecode
      cases hdecode
      exact ⟨rfl, rfl, rfl, rfl⟩

theorem sameAddresses_of_decodeTransport {proto : Byte} {p q : Packet}
    (hdecode : decodeTransport proto p = some q) : SameAddresses p q := by
  unfold decodeTransport at hdecode
  split_ifs at hdecode
  · obtain ⟨⟨ok, q⟩, htcp, rfl⟩ := Option.map_eq_some_iff.mp hdecode
    exact sameAddresses_of_decodeTcp htcp
  · obtain ⟨⟨ok, q⟩, hudp, rfl⟩ := Option.map_eq_some_iff.mp hdecode
    exact sameAddresses_of_decodeUdp hudp
  · cases hdecode
    exact ⟨rfl, rfl, rfl, rfl⟩

/-- The header of an IPv4 packet whose whole length lies in the data, its first byte and its
length field as they stand in memory. -/
structure Ipv4Header (p : Packet) (ipVerhl : Byte) (ipLen : BitVec 16) : Prop where
  dsize_ge : ipv4HeaderLen ≤ p.dsize
  ipVerhl_eq : loadByte p p.data = some ipVerhl
  version_eq : (ipVerhl &&& 0xf0) >>> 4 = 4
  ipLen_eq : loadWord 16 2 p (p.data + 2) = some ipLen
  header_ge : ipv4HeaderLen ≤ (ipVerhl &&& 0x0f).setWidth 16 <<< 2
  header_le : (ipVerhl &&& 0x0f).setWidth 16 <<< 2 ≤ ntohs ipLen
  ipLen_le : ntohs ipLen ≤ p.dsize

/-- Where `decode_ipv4` meets an IPv4 header the addresses are the words at their place in it. -/
theorem addresses_of_decodeIpv4 {p q : Packet} {ok : Bool}
    (hdecode : decodeIpv4 p = some (ok, q)) :
    q.pkth = p.pkth ∧ q.pkt = p.pkt ∧ ∀ ipVerhl ipLen, Ipv4Header p ipVerhl ipLen →
      loadWord 32 4 p (p.data + 12) = some q.src ∧
        loadWord 32 4 p (p.data + 16) = some q.dst := by
  unfold decodeIpv4 at hdecode
  split_ifs at hdecode with hshort
  · cases hdecode
    refine ⟨rfl, rfl, fun ipVerhl ipLen header ↦ ?_⟩
    exact absurd hshort (BitVec.not_lt.mpr header.dsize_ge)
  · simp only [Option.bind_eq_bind, Option.bind_eq_some_iff] at hdecode
    obtain ⟨ipVerhl, hipVerhl, hdecode⟩ := hdecode
    split_ifs at hdecode with hversion
    · cases hdecode
      refine ⟨rfl, rfl, fun ipVerhl' ipLen header ↦ ?_⟩
      obtain rfl := Option.some.inj (hipVerhl.symm.trans header.ipVerhl_eq)
      exact absurd header.version_eq hversion
    · simp only [Option.bind_eq_some_iff] at hdecode
      obtain ⟨ipLen, hipLen, hdecode⟩ := hdecode
      split_ifs at hdecode with hlen
      · cases hdecode
        refine ⟨rfl, rfl, fun ipVerhl' ipLen' header ↦ absurd hlen ?_⟩
        obtain rfl := Option.some.inj (hipVerhl.symm.trans header.ipVerhl_eq)
        obtain rfl := Option.some.inj (hipLen.symm.trans header.ipLen_eq)
        simp only [not_or, BitVec.not_lt]
        exact ⟨header.header_ge, header.header_le, header.ipLen_le⟩
      · simp only [Option.bind_eq_some_iff] at hdecode
        obtain ⟨src, hsrc, dst, hdst, ipProto, -, r, htransport, hdecode⟩ := hdecode
        cases hdecode
        have same := sameAddresses_of_decodeTransport htransport
        refine ⟨same.pkth_eq, same.pkt_eq, fun _ _ _ ↦ ?_⟩
        rw [same.src_eq, same.dst_eq]
        exact ⟨hsrc, hdst⟩
/-! ### Captured frames -/

/-- A frame as the capture library passes it: its time, and bytes whose number is its `caplen`. -/
structure Frame where
  tvSec : BitVec 64
  tvUsec : BitVec 64
  bytes : List Byte
  length_lt : bytes.length < 2 ^ 32

/-- The header that comes with the frame. -/
def Frame.pkthdr (frame : Frame) : PcapPkthdr :=
  { tvSec := frame.tvSec, tvUsec := frame.tvUsec, caplen := BitVec.ofNat 32 frame.bytes.length }

/-- The bytes of the frame that are kept. -/
def Frame.kept (frame : Frame) : List Byte := frame.bytes.take maxCaplen

/-- The frame with its first bytes an Ethernet header and an IPv4 header, addresses included, of a
packet whose whole length is kept. -/
structure Ipv4Frame (kept src dst : List Byte) : Prop where
  ethType_eq : (kept.drop 12).take 2 = [0x08, 0x00]
  header : ∃ ipVerhl high low : Byte,
    kept[14]? = some ipVerhl ∧ (kept.drop 16).take 2 = [high, low] ∧
      (ipVerhl &&& 0xf0) >>> 4 = 4 ∧ 20 ≤ 4 * (ipVerhl &&& 0x0f).toNat ∧
      4 * (ipVerhl &&& 0x0f).toNat ≤ 256 * high.toNat + low.toNat ∧
      14 + (256 * high.toNat + low.toNat) ≤ kept.length
  src_eq : (kept.drop 26).take 4 = src
  dst_eq : (kept.drop 30).take 4 = dst

/-- The packet that `PacketProcess` decodes, its capture length cut. -/
def Frame.packet (frame : Frame) : Packet :=
  { src := 0
    dst := 0
    sp := 0
    dp := 0
    ipProto := 0
    dsize := 0
    data := 0
    pkth := { frame.pkthdr with
      caplen :=
        if BitVec.ofNat 32 maxCaplen < frame.pkthdr.caplen then BitVec.ofNat 32 maxCaplen
        else frame.pkthdr.caplen }
    pkt := frame.bytes
    ethh := none
    ip4h := none
    tcph := none
    udph := none }

theorem packetProcess_frame (frame : Frame) :
    packetProcess frame.pkthdr frame.bytes = decode frame.tvSec frame.packet := rfl

/-- The capture length after the cut is the number of bytes kept. -/
theorem toNat_caplen_packet (frame : Frame) :
    frame.packet.pkth.caplen.toNat = frame.kept.length := by
  have hlt := frame.length_lt
  have hlength : (BitVec.ofNat 32 frame.bytes.length).toNat = frame.bytes.length := by
    rw [BitVec.toNat_ofNat, Nat.mod_eq_of_lt hlt]
  have hcaplen : frame.packet.pkth.caplen =
      if BitVec.ofNat 32 maxCaplen < BitVec.ofNat 32 frame.bytes.length then
        BitVec.ofNat 32 maxCaplen
      else BitVec.ofNat 32 frame.bytes.length := rfl
  have hmax : (BitVec.ofNat 32 maxCaplen).toNat = maxCaplen := rfl
  rw [hcaplen, Frame.kept, List.length_take]
  by_cases hlong : BitVec.ofNat 32 maxCaplen < BitVec.ofNat 32 frame.bytes.length
  · rw [if_pos hlong, hmax]
    have := BitVec.lt_def.mp hlong
    omega
  · rw [if_neg hlong, hlength]
    have := BitVec.le_def.mp (BitVec.not_lt.mp hlong)
    omega

theorem captured_packet (frame : Frame) : frame.packet.captured = frame.kept := by
  have hcaplen := toNat_caplen_packet frame
  rw [Packet.captured, hcaplen, Frame.kept, List.length_take]
  change frame.bytes.take _ = _
  rw [List.take_eq_take_iff]
  omega

theorem length_kept_le (frame : Frame) : frame.kept.length ≤ 1514 := by simp [Frame.kept, maxCaplen]

/-- The packet of a frame behind its Ethernet header. -/
def Frame.behindEther (frame : Frame) : Packet :=
  { frame.packet with
    ethh := some 0
    data := ethernetHeaderLen
    dsize := (frame.packet.pkth.caplen - BitVec.ofNat 32 ethernetHeaderLen).setWidth 16 }

theorem captured_behindEther (frame : Frame) : frame.behindEther.captured = frame.kept :=
  captured_packet frame

section BehindEther

variable {frame : Frame}

theorem loadWord_behindEther (width count offset : ℕ)
    (hoffset : offset + count ≤ frame.kept.length) :
    loadWord width count frame.behindEther offset =
      some (wordOfBytes width ((frame.kept.drop offset).take count)) := by
  rw [loadWord, captured_behindEther, if_pos hoffset]

theorem ethernetHeaderLen_le_caplen (hlength : 14 ≤ frame.kept.length) :
    BitVec.ofNat 32 ethernetHeaderLen ≤ frame.packet.pkth.caplen := by
  rw [BitVec.le_def, toNat_caplen_packet]
  exact hlength

theorem loadWord_ethType (hlength : 14 ≤ frame.kept.length) :
    loadWord 16 2 frame.packet 12 = some (wordOfBytes 16 ((frame.kept.drop 12).take 2)) := by
  rw [loadWord, captured_packet, if_pos hlength]

/-- The cut capture length fits the 16 bits of `dsize`. -/
theorem toNat_dsize_behindEther (hlength : 14 ≤ frame.kept.length) :
    frame.behindEther.dsize.toNat = frame.kept.length - 14 := by
  have hle := ethernetHeaderLen_le_caplen hlength
  have hkept := length_kept_le frame
  show ((frame.packet.pkth.caplen - BitVec.ofNat 32 ethernetHeaderLen).setWidth 16).toNat = _
  rw [BitVec.toNat_setWidth, BitVec.toNat_sub_of_le hle, toNat_caplen_packet]
  show (frame.kept.length - 14) % 2 ^ 16 = _
  omega

theorem inside_behindEther (hlength : 14 ≤ frame.kept.length) : Inside frame.behindEther := by
  rw [Inside, captured_behindEther, toNat_dsize_behindEther hlength]
  show 14 + (frame.kept.length - 14) ≤ frame.kept.length
  omega

end BehindEther

/-- The header length that `decode_ipv4` computes from the low half of the first byte. -/
theorem toNat_headerLen (ipVerhl : Byte) :
    ((ipVerhl &&& 0x0f).setWidth 16 <<< 2 : BitVec 16).toNat =
      4 * (ipVerhl &&& 0x0f).toNat := by
  have hlt := (ipVerhl &&& 0x0f).isLt
  rw [BitVec.toNat_shiftLeft, BitVec.toNat_setWidth, Nat.shiftLeft_eq]
  omega

/-- A frame that carries an IPv4 packet has its header behind the Ethernet header. -/
theorem ipv4Header_of_ipv4Frame {frame : Frame} {src dst : List Byte}
    (hframe : Ipv4Frame frame.kept src dst) :
    ∃ ipVerhl ipLen, Ipv4Header frame.behindEther ipVerhl ipLen := by
  obtain ⟨ipVerhl, high, low, hipVerhl, hipLen, hversion, hge, hle, htotal⟩ := hframe.header
  have hlength : 14 ≤ frame.kept.length := by omega
  have hdsize := toNat_dsize_behindEther hlength
  have hlen := toNat_ntohs_wordOfBytes high low
  refine ⟨ipVerhl, wordOfBytes 16 [high, low],
    { dsize_ge := ?_, ipVerhl_eq := ?_, version_eq := hversion, ipLen_eq := ?_
      header_ge := ?_, header_le := ?_, ipLen_le := ?_ }⟩
  · rw [BitVec.le_def, hdsize]
    show 20 ≤ frame.kept.length - 14
    omega
  · rw [loadByte, captured_behindEther]
    exact hipVerhl
  · rw [← hipLen]
    exact loadWord_behindEther 16 2 16 (by omega)
  · rw [BitVec.le_def, toNat_headerLen]
    exact hge
  · rw [BitVec.le_def, toNat_headerLen, hlen]
    exact hle
  · rw [BitVec.le_def, hlen, hdsize]
    omega

/-- What `decode_ether` leaves of a frame: its header and its bytes, and of a frame that carries an
IPv4 packet the addresses as the words at their place in it. -/
theorem addresses_of_decodeEther {frame : Frame} {ok : Bool} {q : Packet}
    (hdecode : decodeEther frame.packet = some (ok, q)) :
    q.pkth = frame.packet.pkth ∧ q.pkt = frame.bytes ∧ ∀ src dst, Ipv4Frame frame.kept src dst →
      q.src = wordOfBytes 32 src ∧ q.dst = wordOfBytes 32 dst := by
  have hcaplen := toNat_caplen_packet frame
  unfold decodeEther at hdecode
  split_ifs at hdecode with hshort
  · cases hdecode
    refine ⟨rfl, rfl, fun src dst hframe ↦ ?_⟩
    obtain ⟨ipVerhl, -, -, hipVerhl, -⟩ := hframe.header
    have := (List.getElem?_eq_some_iff.mp hipVerhl).1
    rw [hcaplen, ethernetHeaderLen] at hshort
    omega
  · rw [hcaplen, ethernetHeaderLen] at hshort
    simp only [loadWord_ethType (Nat.not_lt.mp hshort), Option.bind_eq_bind, Option.bind_some]
      at hdecode
    split_ifs at hdecode with hip
    · obtain ⟨⟨ok', r⟩, hipv4, hdecode⟩ := Option.bind_eq_some_iff.mp hdecode
      cases hdecode
      obtain ⟨hpkth, hpkt, haddress⟩ := addresses_of_decodeIpv4 (p := frame.behindEther) hipv4
      refine ⟨hpkth, hpkt, fun src dst hframe ↦ ?_⟩
      obtain ⟨ipVerhl, ipLen, header⟩ := ipv4Header_of_ipv4Frame hframe
      obtain ⟨hsrc, hdst⟩ := haddress ipVerhl ipLen header
      obtain ⟨_, _, _, -, -, -, hge, hle, htotal⟩ := hframe.header
      rw [← hframe.src_eq, ← hframe.dst_eq]
      constructor
      · exact Option.some.inj (hsrc.symm.trans (loadWord_behindEther 32 4 26 (by omega)))
      · exact Option.some.inj (hdst.symm.trans (loadWord_behindEther 32 4 30 (by omega)))
    · cases hdecode
      refine ⟨rfl, rfl, fun src dst hframe ↦ absurd ?_ hip⟩
      rw [hframe.ethType_eq]
      decide

end CppLearn.RecvEngine.Dump
