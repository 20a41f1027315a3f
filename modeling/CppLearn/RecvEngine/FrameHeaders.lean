import CppLearn.RecvEngine.Dump

/-!
# The headers of a frame

What the decoders of `dump` accept, byte by byte, and what they leave. `Ipv4Packet`, `TcpHeader` and
`UdpHeader` say of the captured bytes that a header stands at an offset and that its packet lies in the
bytes there are. A decoder that meets its header moves `data` behind it and cuts `dsize` to the rest of
the packet; one that does not leaves both.

Every read of the decoders is inside the captured bytes, and no subtraction of theirs wraps
(`decodeEther_inside`): the decoders with subtractions that fail instead have the same result. So
every frame is sent, with what `packetProcess_spec` says of its time, length and addresses. The
ports are those of a TCP or UDP header that is all there, and zero where there is none
(`ports_exact`). The fragment offset is not looked at, so that any fragment is taken for one with such
a header.
-/

set_option autoImplicit false
set_option relaxedAutoImplicit false

namespace CppLearn.RecvEngine.FrameHeaders

open Foundation.ByteOrder
open Dump PacketDefine

/-! ### The decoders by their subtractions -/

/-- A subtraction of lengths, undefined where it is not to be made. -/
abbrev Subtract := {width : ℕ} → BitVec width → BitVec width → Option (BitVec width)

/-- The subtraction of the code. -/
def wrapping : Subtract := fun a b ↦ some (a - b)

/-- Subtraction without wrapping. -/
def within : Subtract := fun a b ↦ if b ≤ a then some (a - b) else none

/-- `decode_tcp` -/
def decodeTcpBy (subtract : Subtract) (p : Packet) : Option (Bool × Packet) :=
  if p.dsize < tcpHeaderLen then some (false, { p with tcph := none })
  else do
    let tcph := p.data
    let thOffx2 ← loadByte p (tcph + 12)
    let hlen : BitVec 16 := (thOffx2 &&& 0xf0).setWidth 16 >>> 2
    if hlen < tcpHeaderLen ∨ p.dsize < hlen ∨ tcpHeaderLen + tcpOptlenmax < hlen then
      return (false, { p with tcph := none })
    else
      let thSport ← loadWord 16 2 p tcph
      let thDport ← loadWord 16 2 p (tcph + 2)
      let dsize ← subtract p.dsize hlen
      return (true, { p with
        tcph := some tcph
        sp := ntohs thSport
        dp := ntohs thDport
        data := p.data + hlen.toNat
        dsize := dsize })

/-- `decode_udp` -/
def decodeUdpBy (subtract : Subtract) (p : Packet) : Option (Bool × Packet) :=
  if p.dsize < udpHeaderLen then some (false, { p with udph := none })
  else do
    let udph := p.data
    let udplen := ntohs (← loadWord 16 2 p (udph + 4))
    if udplen < udpHeaderLen ∨ p.dsize < udplen then
      return (false, { p with udph := none })
    else
      let uhSport ← loadWord 16 2 p udph
      let uhDport ← loadWord 16 2 p (udph + 2)
      let dsize ← subtract udplen udpHeaderLen
      return (true, { p with
        udph := some udph
        sp := ntohs uhSport
        dp := ntohs uhDport
        data := p.data + udpHeaderLen.toNat
        dsize := dsize })

/-- The decoder of the protocol above IPv4. -/
def decodeTransportBy (subtract : Subtract) (proto : Byte) (p : Packet) : Option Packet :=
  if proto = ipprotoTcp then (decodeTcpBy subtract p).map Prod.snd
  else if proto = ipprotoUdp then (decodeUdpBy subtract p).map Prod.snd
  else some p

/-- `decode_ipv4` -/
def decodeIpv4By (subtract : Subtract) (p : Packet) : Option (Bool × Packet) :=
  if p.dsize < ipv4HeaderLen then some (false, { p with ip4h := none })
  else do
    let ip4h := p.data
    let ipVerhl ← loadByte p ip4h
    if (ipVerhl &&& 0xf0) >>> 4 ≠ 4 then return (false, { p with ip4h := none })
    else
      let hlen : BitVec 16 := (ipVerhl &&& 0x0f).setWidth 16 <<< 2
      let ipLen := ntohs (← loadWord 16 2 p (ip4h + 2))
      if hlen < ipv4HeaderLen ∨ ipLen < hlen ∨ p.dsize < ipLen then
        return (false, { p with ip4h := none })
      else
        let dsize ← subtract ipLen hlen
        let src ← loadWord 32 4 p (ip4h + 12)
        let dst ← loadWord 32 4 p (ip4h + 16)
        let ipProto ← loadByte p (ip4h + 9)
        let p ← decodeTransportBy subtract ipProto { p with
          ip4h := some ip4h
          data := p.data + hlen.toNat
          dsize := dsize
          src := src
          dst := dst
          ipProto := ipProto.setWidth 16 }
        return (true, p)

/-- `decode_ether` -/
def decodeEtherBy (subtract : Subtract) (p : Packet) : Option (Bool × Packet) :=
  if p.pkth.caplen.toNat < ethernetHeaderLen then some (false, { p with ethh := none })
  else do
    let dsize ← subtract p.pkth.caplen (BitVec.ofNat 32 ethernetHeaderLen)
    let ethType ← loadWord 16 2 p 12
    let p := { p with
      ethh := some 0
      data := ethernetHeaderLen
      dsize := dsize.setWidth 16 }
    if ntohs ethType = ethernetTypeIp then
      let (_, p) ← decodeIpv4By subtract p
      return (true, p)
    else return (true, p)

/-- With the subtraction of the code these are the decoders. -/
theorem decodeEtherBy_wrapping (p : Packet) : decodeEtherBy wrapping p = decodeEther p := rfl

/-- Subtractions that are defined where they do not wrap. -/
def Subtracts (subtract : Subtract) : Prop :=
  ∀ {width : ℕ} (a b : BitVec width), b ≤ a → subtract a b = some (a - b)

theorem subtracts_wrapping : Subtracts wrapping := fun _ _ _ ↦ rfl

theorem subtracts_within : Subtracts within := fun _ _ hle ↦ if_pos hle

/-! ### Headers in the captured bytes -/

/-- A TCP header of a length at an offset, in a packet with some bytes from there on. -/
structure TcpHeader (bytes : List Byte) (data size headerLen : ℕ) : Prop where
  headerLen_eq : headerLen = 4 * ((bytes.getD (data + 12) 0).toNat / 16)
  headerLen_ge : 20 ≤ headerLen
  headerLen_le : headerLen ≤ size

/-- A UDP header at an offset, of a datagram of a length. -/
structure UdpHeader (bytes : List Byte) (data size udpLen : ℕ) : Prop where
  udpLen_eq : udpLen = bigEndian16 bytes (data + 4)
  udpLen_ge : 8 ≤ udpLen
  udpLen_le : udpLen ≤ size

/-- A header of the protocol above IPv4 that has ports. -/
def TransportHeader (bytes : List Byte) (proto : Byte) (data size : ℕ) : Prop :=
  (proto = ipprotoTcp ∧ ∃ headerLen, TcpHeader bytes data size headerLen) ∨
    (proto = ipprotoUdp ∧ ∃ udpLen, UdpHeader bytes data size udpLen)

/-- An IPv4 packet at an offset, with the length of its header and its total length. -/
structure Ipv4Packet (bytes : List Byte) (data size headerLen totalLen : ℕ) : Prop where
  version_eq : (bytes.getD data 0).toNat / 16 = 4
  headerLen_eq : headerLen = 4 * ((bytes.getD data 0).toNat % 16)
  totalLen_eq : totalLen = bigEndian16 bytes (data + 2)
  headerLen_ge : 20 ≤ headerLen
  headerLen_le : headerLen ≤ totalLen
  totalLen_le : totalLen ≤ size

/-- The ports of a packet are those of its header where it has one, and those it had before where it
has none. -/
structure PortsOf (hasHeader : Prop) (bytes : List Byte) (data : ℕ) (p q : Packet) : Prop where
  header : hasHeader → q.sp.toNat = bigEndian16 bytes data ∧ q.dp.toNat = bigEndian16 bytes (data + 2)
  none : ¬ hasHeader → q.sp = p.sp ∧ q.dp = p.dp

/-- The two packets are decodings of one frame, the later one of data inside that of the earlier. -/
structure Narrowed (p q : Packet) : Prop where
  captured_eq : q.captured = p.captured
  ip4h_eq : q.ip4h = p.ip4h
  data_le : p.data ≤ q.data
  stop_le : q.data + q.dsize.toNat ≤ p.data + p.dsize.toNat

/-! ### The decoders, one by one -/

theorem loadByte_eq {p : Packet} {offset : ℕ} (hoffset : offset < p.captured.length) :
    loadByte p offset = some (p.captured.getD offset 0) := by
  rw [loadByte, List.getD_eq_getElem?_getD, List.getElem?_eq_getElem hoffset]
  rfl

/-- The length of a TCP header as the code computes it. -/
theorem toNat_dataOffset (thOffx2 : Byte) :
    ((thOffx2 &&& 0xf0).setWidth 16 >>> 2 : BitVec 16).toNat = 4 * (thOffx2.toNat / 16) := by
  have hlt := thOffx2.isLt
  rw [BitVec.toNat_ushiftRight, BitVec.toNat_setWidth, toNat_and_high, Nat.shiftRight_eq_div_pow]
  omega

/-- The length of an IPv4 header as the code computes it. -/
theorem toNat_ihl (ipVerhl : Byte) :
    ((ipVerhl &&& 0x0f).setWidth 16 <<< 2 : BitVec 16).toNat = 4 * (ipVerhl.toNat % 16) := by
  rw [toNat_headerLen, toNat_and_low]

theorem version_eq_iff (ipVerhl : Byte) :
    (ipVerhl &&& 0xf0) >>> 4 = 4 ↔ ipVerhl.toNat / 16 = 4 := by
  have hlt := ipVerhl.isLt
  have hhigh : ((ipVerhl &&& 0xf0) >>> 4).toNat = ipVerhl.toNat / 16 := by
    rw [BitVec.toNat_ushiftRight, toNat_and_high, Nat.shiftRight_eq_div_pow]
    omega
  rw [← hhigh]
  exact BitVec.toNat_inj.symm

section Transport

variable {p : Packet}

/-- A packet that a decoder leaves as it is, but for the pointers to the headers. -/
theorem left_of_rejected {hasHeader : Prop} (hnone : ¬ hasHeader) (tcph udph : Option ℕ) :
    Narrowed p { p with tcph := tcph, udph := udph } ∧
      PortsOf hasHeader p.captured p.data p { p with tcph := tcph, udph := udph } :=
  ⟨⟨rfl, rfl, le_rfl, le_rfl⟩, ⟨fun hheader ↦ absurd hheader hnone, fun _ ↦ ⟨rfl, rfl⟩⟩⟩

/-- The packet behind a header that begins with two ports. -/
def behindPorts (p : Packet) (tcph udph : Option ℕ) (headerLen : ℕ) (rest : BitVec 16) : Packet :=
  { p with
    tcph := tcph
    udph := udph
    sp := ntohs (wordOfBytes 16 ((p.captured.drop p.data).take 2))
    dp := ntohs (wordOfBytes 16 ((p.captured.drop (p.data + 2)).take 2))
    data := p.data + headerLen
    dsize := rest }

theorem left_of_accepted (h : Inside p) {hasHeader : Prop} (hheader : hasHeader)
    (tcph udph : Option ℕ) {headerLen : ℕ} {rest : BitVec 16} (hheaderLen : 4 ≤ headerLen)
    (hrest : headerLen + rest.toNat ≤ p.dsize.toNat) :
    Narrowed p (behindPorts p tcph udph headerLen rest) ∧
      PortsOf hasHeader p.captured p.data p (behindPorts p tcph udph headerLen rest) := by
  unfold Inside at h
  refine ⟨⟨rfl, rfl, Nat.le_add_right .., ?_⟩,
    ⟨fun _ ↦ ⟨?_, ?_⟩, fun hnone ↦ absurd hheader hnone⟩⟩
  · show p.data + headerLen + rest.toNat ≤ p.data + p.dsize.toNat
    omega
  · exact toNat_ntohs_drop (by omega)
  · exact toNat_ntohs_drop (by omega)

/-- The three tests of `decode_tcp`: the third fails for no byte. -/
theorem tcpTest_iff {thOffx2 : Byte} (hthOffx2 : p.captured.getD (p.data + 12) 0 = thOffx2)
    {hlen : BitVec 16} (hhlen : (thOffx2 &&& 0xf0).setWidth 16 >>> 2 = hlen) :
    ¬ (hlen < tcpHeaderLen ∨ p.dsize < hlen ∨ tcpHeaderLen + tcpOptlenmax < hlen) ↔
      TcpHeader p.captured p.data p.dsize.toNat hlen.toNat := by
  have hvalue : hlen.toNat = 4 * (thOffx2.toNat / 16) := by rw [← hhlen, toNat_dataOffset]
  have hbyte := thOffx2.isLt
  simp only [not_or, BitVec.not_lt, BitVec.le_def]
  constructor
  · rintro ⟨hge, hle, -⟩
    exact ⟨by rw [hthOffx2, hvalue], hge, hle⟩
  · intro header
    refine ⟨header.headerLen_ge, header.headerLen_le, ?_⟩
    show hlen.toNat ≤ 60
    omega

theorem decodeTcpBy_spec (h : Inside p) :
    ∃ ok q, (∀ subtract : Subtract, Subtracts subtract → decodeTcpBy subtract p = some (ok, q)) ∧
      Narrowed p q ∧ PortsOf (∃ headerLen, TcpHeader p.captured p.data p.dsize.toNat headerLen)
        p.captured p.data p q := by
  have hinside : p.data + p.dsize.toNat ≤ p.captured.length := h
  by_cases hshort : p.dsize < tcpHeaderLen
  · have hsize : p.dsize.toNat < 20 := BitVec.lt_def.mp hshort
    refine ⟨false, { p with tcph := none }, fun subtract _ ↦ ?_, left_of_rejected ?_ none p.udph⟩
    · rw [decodeTcpBy, if_pos hshort]
    · rintro ⟨headerLen, header⟩
      have := header.headerLen_ge.trans header.headerLen_le
      omega
  · have hsize : 20 ≤ p.dsize.toNat := BitVec.le_def.mp (BitVec.not_lt.mp hshort)
    obtain ⟨thOffx2, hthOffx2⟩ : ∃ thOffx2, p.captured.getD (p.data + 12) 0 = thOffx2 := ⟨_, rfl⟩
    obtain ⟨hlen, hhlen⟩ : ∃ hlen : BitVec 16, (thOffx2 &&& 0xf0).setWidth 16 >>> 2 = hlen :=
      ⟨_, rfl⟩
    have hoffset : loadByte p (p.data + 12) = some thOffx2 := by
      rw [loadByte_eq (by omega), hthOffx2]
    have hsport := loadWord_of_inside h 16 2 0 (by omega)
    have hdport := loadWord_of_inside h 16 2 2 (by omega)
    rw [Nat.add_zero] at hsport
    have htest := tcpTest_iff hthOffx2 hhlen
    by_cases hheader : TcpHeader p.captured p.data p.dsize.toNat hlen.toNat
    · have hle : hlen ≤ p.dsize := BitVec.le_def.mpr hheader.headerLen_le
      have hge := hheader.headerLen_ge
      have hrest : hlen.toNat + (p.dsize - hlen).toNat ≤ p.dsize.toNat := by
        rw [BitVec.toNat_sub_of_le hle, Nat.add_sub_of_le hheader.headerLen_le]
      refine ⟨true, behindPorts p (some p.data) p.udph hlen.toNat (p.dsize - hlen),
        fun subtract hsubtract ↦ ?_,
        left_of_accepted h ⟨_, hheader⟩ _ _ (by omega) hrest⟩
      · simp only [decodeTcpBy, if_neg hshort, hoffset, Option.bind_eq_bind, Option.bind_some, hhlen,
          if_neg (htest.mpr hheader), hsport, hdport, hsubtract _ _ hle]
        rfl
    · refine ⟨false, { p with tcph := none }, fun subtract _ ↦ ?_,
        left_of_rejected ?_ none p.udph⟩
      · simp only [decodeTcpBy, if_neg hshort, hoffset, Option.bind_eq_bind, Option.bind_some, hhlen,
          if_pos (not_not.mp (mt htest.mp hheader))]
        rfl
      · rintro ⟨headerLen, header⟩
        have hlen_eq : headerLen = hlen.toNat := by
          rw [header.headerLen_eq, hthOffx2, ← hhlen, toNat_dataOffset]
        exact hheader (hlen_eq ▸ header)

theorem udpTest_iff {udplen : BitVec 16}
    (hudplen : udplen.toNat = bigEndian16 p.captured (p.data + 4)) :
    ¬ (udplen < udpHeaderLen ∨ p.dsize < udplen) ↔
      UdpHeader p.captured p.data p.dsize.toNat udplen.toNat := by
  simp only [not_or, BitVec.not_lt, BitVec.le_def]
  constructor
  · rintro ⟨hge, hle⟩
    exact ⟨hudplen, hge, hle⟩
  · intro header
    exact ⟨header.udpLen_ge, header.udpLen_le⟩

theorem decodeUdpBy_spec (h : Inside p) :
    ∃ ok q, (∀ subtract : Subtract, Subtracts subtract → decodeUdpBy subtract p = some (ok, q)) ∧
      Narrowed p q ∧ PortsOf (∃ udpLen, UdpHeader p.captured p.data p.dsize.toNat udpLen)
        p.captured p.data p q := by
  have hinside : p.data + p.dsize.toNat ≤ p.captured.length := h
  by_cases hshort : p.dsize < udpHeaderLen
  · have hsize : p.dsize.toNat < 8 := BitVec.lt_def.mp hshort
    refine ⟨false, { p with udph := none }, fun subtract _ ↦ ?_, left_of_rejected ?_ p.tcph none⟩
    · rw [decodeUdpBy, if_pos hshort]
    · rintro ⟨udpLen, header⟩
      have := header.udpLen_ge.trans header.udpLen_le
      omega
  · have hsize : 8 ≤ p.dsize.toNat := BitVec.le_def.mp (BitVec.not_lt.mp hshort)
    have hsport := loadWord_of_inside h 16 2 0 (by omega)
    have hdport := loadWord_of_inside h 16 2 2 (by omega)
    have hlen := loadWord_of_inside h 16 2 4 (by omega)
    rw [Nat.add_zero] at hsport
    obtain ⟨udplen, hudplen⟩ : ∃ udplen,
        ntohs (wordOfBytes 16 ((p.captured.drop (p.data + 4)).take 2)) = udplen := ⟨_, rfl⟩
    have hvalue : udplen.toNat = bigEndian16 p.captured (p.data + 4) := by
      rw [← hudplen, toNat_ntohs_drop (by omega)]
    have htest := udpTest_iff hvalue
    by_cases hheader : UdpHeader p.captured p.data p.dsize.toNat udplen.toNat
    · have hge : udpHeaderLen ≤ udplen := BitVec.le_def.mpr hheader.udpLen_ge
      have hrest : udpHeaderLen.toNat + (udplen - udpHeaderLen).toNat ≤ p.dsize.toNat := by
        rw [BitVec.toNat_sub_of_le hge, Nat.add_sub_of_le (BitVec.le_def.mp hge)]
        exact hheader.udpLen_le
      refine ⟨true,
        behindPorts p p.tcph (some p.data) udpHeaderLen.toNat (udplen - udpHeaderLen),
        fun subtract hsubtract ↦ ?_,
        left_of_accepted h ⟨_, hheader⟩ _ _ (by decide) hrest⟩
      · simp only [decodeUdpBy, if_neg hshort, hlen, Option.bind_eq_bind, Option.bind_some, hudplen,
          if_neg (htest.mpr hheader), hsport, hdport, hsubtract _ _ hge]
        rfl
    · refine ⟨false, { p with udph := none }, fun subtract _ ↦ ?_,
        left_of_rejected ?_ p.tcph none⟩
      · simp only [decodeUdpBy, if_neg hshort, hlen, Option.bind_eq_bind, Option.bind_some, hudplen,
          if_pos (not_not.mp (mt htest.mp hheader))]
        rfl
      · rintro ⟨udpLen, header⟩
        exact hheader (header.udpLen_eq.trans hvalue.symm ▸ header)

theorem decodeTransportBy_spec (proto : Byte) (h : Inside p) :
    ∃ q, (∀ subtract : Subtract, Subtracts subtract → decodeTransportBy subtract proto p = some q) ∧
      Narrowed p q ∧ PortsOf (TransportHeader p.captured proto p.data p.dsize.toNat)
        p.captured p.data p q := by
  by_cases htcp : proto = ipprotoTcp
  · obtain ⟨ok, q, hdecode, hnarrowed, hports⟩ := decodeTcpBy_spec h
    have hne : proto ≠ ipprotoUdp := by rw [htcp]; decide
    have hiff : TransportHeader p.captured proto p.data p.dsize.toNat ↔
        ∃ headerLen, TcpHeader p.captured p.data p.dsize.toNat headerLen := by
      simp [TransportHeader, htcp, htcp ▸ hne]
    refine ⟨q, fun subtract hsubtract ↦ ?_, hnarrowed, ?_⟩
    · rw [decodeTransportBy, if_pos htcp, hdecode subtract hsubtract]
      rfl
    · rw [hiff]
      exact hports
  · by_cases hudp : proto = ipprotoUdp
    · obtain ⟨ok, q, hdecode, hnarrowed, hports⟩ := decodeUdpBy_spec h
      have hiff : TransportHeader p.captured proto p.data p.dsize.toNat ↔
          ∃ udpLen, UdpHeader p.captured p.data p.dsize.toNat udpLen := by
        simp [TransportHeader, hudp, hudp ▸ htcp]
      refine ⟨q, fun subtract hsubtract ↦ ?_, hnarrowed, ?_⟩
      · rw [decodeTransportBy, if_neg htcp, if_pos hudp, hdecode subtract hsubtract]
        rfl
      · rw [hiff]
        exact hports
    · have hnone : ¬ TransportHeader p.captured proto p.data p.dsize.toNat := by
        simp [TransportHeader, htcp, hudp]
      refine ⟨p, fun subtract _ ↦ ?_, ⟨rfl, rfl, le_rfl, le_rfl⟩,
        ⟨fun hheader ↦ absurd hheader hnone, fun _ ↦ ⟨rfl, rfl⟩⟩⟩
      rw [decodeTransportBy, if_neg htcp, if_neg hudp]

end Transport

/-! ### The IPv4 layer -/

section Ipv4

variable {p : Packet}

/-- The ports of a packet are those of the transport header of the IPv4 packet at an offset, where
both are there, and are left where either is not. -/
def Ipv4Ports (bytes : List Byte) (data size : ℕ) (p q : Packet) : Prop :=
  (∀ headerLen totalLen, Ipv4Packet bytes data size headerLen totalLen →
      PortsOf (TransportHeader bytes (bytes.getD (data + 9) 0) (data + headerLen)
        (totalLen - headerLen)) bytes (data + headerLen) p q) ∧
    ((∀ headerLen totalLen, ¬ Ipv4Packet bytes data size headerLen totalLen) →
      q.sp = p.sp ∧ q.dp = p.dp)

/-- What `decode_ipv4` leaves of a packet. -/
structure Ipv4Decoded (p q : Packet) : Prop where
  captured_eq : q.captured = p.captured
  stop_le : q.data + q.dsize.toNat ≤ p.data + p.dsize.toNat
  inside : ∀ ip4h, q.ip4h = some ip4h →
    ip4h ≤ q.data ∧ q.data + q.dsize.toNat ≤ ip4h + bigEndian16 p.captured (ip4h + 2)
  ports : Ipv4Ports p.captured p.data p.dsize.toNat p q

/-- The tests of `decode_ipv4` on the lengths of its header. -/
theorem ipv4Test_iff {ipVerhl : Byte} (hipVerhl : p.captured.getD p.data 0 = ipVerhl)
    (hversion : ipVerhl.toNat / 16 = 4) {hlen ipLen : BitVec 16}
    (hhlen : (ipVerhl &&& 0x0f).setWidth 16 <<< 2 = hlen)
    (hipLen : ipLen.toNat = bigEndian16 p.captured (p.data + 2)) :
    ¬ (hlen < ipv4HeaderLen ∨ ipLen < hlen ∨ p.dsize < ipLen) ↔
      Ipv4Packet p.captured p.data p.dsize.toNat hlen.toNat ipLen.toNat := by
  simp only [not_or, BitVec.not_lt, BitVec.le_def]
  constructor
  · rintro ⟨hge, hle, hfits⟩
    refine ⟨?_, ?_, hipLen, hge, hle, hfits⟩
    · rw [hipVerhl, hversion]
    · rw [hipVerhl, ← hhlen, toNat_ihl]
  · intro header
    exact ⟨header.headerLen_ge, header.headerLen_le, header.totalLen_le⟩

/-- A packet that `decode_ipv4` leaves as it is. -/
theorem ipv4Decoded_of_rejected
    (hnone : ∀ headerLen totalLen, ¬ Ipv4Packet p.captured p.data p.dsize.toNat headerLen totalLen) :
    Ipv4Decoded p { p with ip4h := none } where
  captured_eq := rfl
  stop_le := le_rfl
  inside _ hip4h := nomatch hip4h
  ports := ⟨fun headerLen totalLen header ↦ absurd header (hnone headerLen totalLen),
    fun _ ↦ ⟨rfl, rfl⟩⟩

/-- The packet that the decoder of the protocol above IPv4 gets. -/
def behindIpv4 (p : Packet) (hlen ipLen : BitVec 16) : Packet :=
  { p with
    ip4h := some p.data
    data := p.data + hlen.toNat
    dsize := ipLen - hlen
    src := wordOfBytes 32 ((p.captured.drop (p.data + 12)).take 4)
    dst := wordOfBytes 32 ((p.captured.drop (p.data + 16)).take 4)
    ipProto := (p.captured.getD (p.data + 9) 0).setWidth 16 }

section Accepted

variable {hlen ipLen : BitVec 16}

theorem toNat_dsize_behindIpv4
    (header : Ipv4Packet p.captured p.data p.dsize.toNat hlen.toNat ipLen.toNat) :
    (behindIpv4 p hlen ipLen).dsize.toNat = ipLen.toNat - hlen.toNat :=
  BitVec.toNat_sub_of_le (BitVec.le_def.mpr header.headerLen_le)

theorem inside_behindIpv4 (h : Inside p)
    (header : Ipv4Packet p.captured p.data p.dsize.toNat hlen.toNat ipLen.toNat) :
    Inside (behindIpv4 p hlen ipLen) := by
  have hheaderLe := header.headerLen_le
  have htotalLe := header.totalLen_le
  have hinside : p.data + p.dsize.toNat ≤ p.captured.length := h
  rw [Inside, toNat_dsize_behindIpv4 header]
  show p.data + hlen.toNat + (ipLen.toNat - hlen.toNat) ≤ p.captured.length
  omega

/-- A packet with an IPv4 header, after what the decoder of the protocol above has left. -/
theorem ipv4Decoded_of_accepted {q : Packet}
    (header : Ipv4Packet p.captured p.data p.dsize.toNat hlen.toNat ipLen.toNat)
    (hnarrowed : Narrowed (behindIpv4 p hlen ipLen) q)
    (hports : PortsOf (TransportHeader p.captured (p.captured.getD (p.data + 9) 0)
      (p.data + hlen.toNat) (ipLen.toNat - hlen.toNat)) p.captured (p.data + hlen.toNat)
      (behindIpv4 p hlen ipLen) q) :
    Ipv4Decoded p q := by
  have hheaderLe := header.headerLen_le
  have htotalLe := header.totalLen_le
  have hdata : p.data + hlen.toNat ≤ q.data := hnarrowed.data_le
  have hstop : q.data + q.dsize.toNat ≤ p.data + hlen.toNat + (ipLen.toNat - hlen.toNat) := by
    rw [← toNat_dsize_behindIpv4 header]
    exact hnarrowed.stop_le
  refine ⟨hnarrowed.captured_eq, by omega, fun ip4h hip4h ↦ ?_, ?_, ?_⟩
  · have hip4h' : p.data = ip4h := Option.some.inj (hnarrowed.ip4h_eq.symm.trans hip4h)
    rw [← hip4h', ← header.totalLen_eq]
    omega
  · intro headerLen totalLen other
    obtain rfl : headerLen = hlen.toNat := other.headerLen_eq.trans header.headerLen_eq.symm
    obtain rfl : totalLen = ipLen.toNat := other.totalLen_eq.trans header.totalLen_eq.symm
    exact ⟨hports.header, hports.none⟩
  · intro hnone
    exact absurd header (hnone _ _)

end Accepted

theorem decodeIpv4By_spec (h : Inside p) :
    ∃ ok q, (∀ subtract : Subtract, Subtracts subtract → decodeIpv4By subtract p = some (ok, q)) ∧
      Ipv4Decoded p q := by
  unfold Inside at h
  by_cases hshort : p.dsize < ipv4HeaderLen
  · have hsize : p.dsize.toNat < 20 := BitVec.lt_def.mp hshort
    refine ⟨false, { p with ip4h := none }, fun subtract _ ↦ ?_, ipv4Decoded_of_rejected ?_⟩
    · rw [decodeIpv4By, if_pos hshort]
    · intro headerLen totalLen header
      have := header.headerLen_ge.trans (header.headerLen_le.trans header.totalLen_le)
      omega
  · have hsize : 20 ≤ p.dsize.toNat := BitVec.le_def.mp (BitVec.not_lt.mp hshort)
    obtain ⟨ipVerhl, hipVerhl⟩ : ∃ ipVerhl, p.captured.getD p.data 0 = ipVerhl := ⟨_, rfl⟩
    have hfirst : loadByte p p.data = some ipVerhl := by rw [loadByte_eq (by omega), hipVerhl]
    by_cases hversion : (ipVerhl &&& 0xf0) >>> 4 = 4
    · have hlength := loadWord_of_inside h 16 2 2 (by omega)
      have hsrc := loadWord_of_inside h 32 4 12 (by omega)
      have hdst := loadWord_of_inside h 32 4 16 (by omega)
      have hproto : loadByte p (p.data + 9) = some (p.captured.getD (p.data + 9) 0) :=
        loadByte_eq (by omega)
      obtain ⟨hlen, hhlen⟩ : ∃ hlen : BitVec 16, (ipVerhl &&& 0x0f).setWidth 16 <<< 2 = hlen :=
        ⟨_, rfl⟩
      obtain ⟨ipLen, hipLen⟩ : ∃ ipLen,
          ntohs (wordOfBytes 16 ((p.captured.drop (p.data + 2)).take 2)) = ipLen := ⟨_, rfl⟩
      have hvalue : ipLen.toNat = bigEndian16 p.captured (p.data + 2) := by
        rw [← hipLen, toNat_ntohs_drop (by omega)]
      have htest := ipv4Test_iff hipVerhl ((version_eq_iff ipVerhl).mp hversion) hhlen hvalue
      by_cases hheader : Ipv4Packet p.captured p.data p.dsize.toNat hlen.toNat ipLen.toNat
      · have hle : hlen ≤ ipLen := BitVec.le_def.mpr hheader.headerLen_le
        obtain ⟨q, hdecode, hnarrowed, hports⟩ :=
          decodeTransportBy_spec (p.captured.getD (p.data + 9) 0) (inside_behindIpv4 h hheader)
        rw [toNat_dsize_behindIpv4 hheader] at hports
        refine ⟨true, q, fun subtract hsubtract ↦ ?_,
          ipv4Decoded_of_accepted hheader hnarrowed hports⟩
        have hbehind := hdecode subtract hsubtract
        simp only [behindIpv4] at hbehind
        simp only [decodeIpv4By, if_neg hshort, hfirst, Option.bind_eq_bind, Option.bind_some,
          hversion, ne_eq, not_true_eq_false, if_false, hhlen, hlength, hipLen,
          if_neg (htest.mpr hheader), hsubtract _ _ hle, hsrc, hdst, hproto, hbehind]
        rfl
      · refine ⟨false, { p with ip4h := none }, fun subtract _ ↦ ?_, ipv4Decoded_of_rejected ?_⟩
        · simp only [decodeIpv4By, if_neg hshort, hfirst, Option.bind_eq_bind, Option.bind_some,
            hversion, ne_eq, not_true_eq_false, if_false, hhlen, hlength, hipLen,
            if_pos (not_not.mp (mt htest.mp hheader))]
          rfl
        · intro headerLen totalLen header
          have hheaderLen : headerLen = hlen.toNat := by
            rw [header.headerLen_eq, hipVerhl, ← hhlen, toNat_ihl]
          have htotalLen : totalLen = ipLen.toNat := by rw [header.totalLen_eq, hvalue]
          exact hheader (hheaderLen ▸ htotalLen ▸ header)
    · refine ⟨false, { p with ip4h := none }, fun subtract _ ↦ ?_, ipv4Decoded_of_rejected ?_⟩
      · simp only [decodeIpv4By, if_neg hshort, hfirst, Option.bind_eq_bind, Option.bind_some, ne_eq,
          hversion, not_false_eq_true, if_true]
        rfl
      · intro headerLen totalLen header
        have := header.version_eq
        rw [hipVerhl] at this
        exact hversion ((version_eq_iff ipVerhl).mpr this)

end Ipv4

/-! ### Frames -/

/-- The kept bytes of a frame begin with the Ethernet header of an IPv4 packet. -/
def EthernetIpv4 (kept : List Byte) : Prop := 14 ≤ kept.length ∧ bigEndian16 kept 12 = 0x0800

/-- What `decode_ether` leaves of the packet of a frame. -/
structure EtherDecoded (frame : Frame) (q : Packet) : Prop where
  captured_eq : q.captured = frame.kept
  stop_le : q.data + q.dsize.toNat ≤ frame.kept.length
  inside : ∀ ip4h, q.ip4h = some ip4h →
    ip4h ≤ q.data ∧ q.data + q.dsize.toNat ≤ ip4h + bigEndian16 frame.kept (ip4h + 2)
  ports : EthernetIpv4 frame.kept → Ipv4Ports frame.kept 14 (frame.kept.length - 14) frame.packet q
  none : ¬ EthernetIpv4 frame.kept → q.sp = 0 ∧ q.dp = 0

theorem decodeEtherBy_spec (frame : Frame) :
    ∃ ok q, (∀ subtract : Subtract, Subtracts subtract →
      decodeEtherBy subtract frame.packet = some (ok, q)) ∧ EtherDecoded frame q := by
  have hcaplen := toNat_caplen_packet frame
  by_cases hshort : frame.packet.pkth.caplen.toNat < ethernetHeaderLen
  · have hnone : ¬ EthernetIpv4 frame.kept := by
      rintro ⟨hlength, -⟩
      rw [hcaplen, ethernetHeaderLen] at hshort
      omega
    refine ⟨false, { frame.packet with ethh := none }, fun subtract _ ↦ ?_,
      ⟨captured_packet frame, Nat.zero_le _, fun _ hip4h ↦ (Option.some_ne_none _ hip4h.symm).elim,
        fun hip ↦ absurd hip hnone, fun _ ↦ ⟨rfl, rfl⟩⟩⟩
    rw [decodeEtherBy, if_pos hshort]
  · have hlength : 14 ≤ frame.kept.length := by
      rw [hcaplen, ethernetHeaderLen] at hshort
      omega
    have hle := ethernetHeaderLen_le_caplen hlength
    have hethType := loadWord_ethType hlength
    have hcaptured := captured_behindEther frame
    have hdsize := toNat_dsize_behindEther hlength
    have hdata : frame.behindEther.data = 14 := rfl
    have htype : ntohs (wordOfBytes 16 ((frame.kept.drop 12).take 2)) = ethernetTypeIp ↔
        EthernetIpv4 frame.kept := by
      rw [← BitVec.toNat_inj, toNat_ntohs_drop (by omega), EthernetIpv4, and_iff_right hlength]
      rfl
    by_cases hip : EthernetIpv4 frame.kept
    · obtain ⟨ok, q, hdecode, decoded⟩ := decodeIpv4By_spec (inside_behindEther hlength)
      have hstop := decoded.stop_le
      have hslice := decoded.inside
      have hports := decoded.ports
      rw [hdata, hdsize] at hstop
      rw [hcaptured] at hslice
      rw [hcaptured, hdata, hdsize] at hports
      refine ⟨true, q, fun subtract hsubtract ↦ ?_,
        ⟨decoded.captured_eq.trans hcaptured, by omega, hslice, fun _ ↦ ?_,
          fun hnone ↦ absurd hip hnone⟩⟩
      · have hbehind := hdecode subtract hsubtract
        simp only [Frame.behindEther] at hbehind
        simp only [decodeEtherBy, if_neg hshort, hsubtract _ _ hle, hethType, Option.bind_eq_bind,
          Option.bind_some, if_pos (htype.mpr hip), hbehind]
        rfl
      · refine ⟨fun headerLen totalLen header ↦ ?_, hports.2⟩
        have hof := hports.1 headerLen totalLen header
        exact ⟨hof.header, hof.none⟩
    · refine ⟨true, frame.behindEther, fun subtract hsubtract ↦ ?_,
        ⟨hcaptured, by omega, fun _ hip4h ↦ (Option.some_ne_none _ hip4h.symm).elim,
          fun h ↦ absurd h hip, fun _ ↦ ⟨rfl, rfl⟩⟩⟩
      simp only [decodeEtherBy, if_neg hshort, hsubtract _ _ hle, hethType, Option.bind_eq_bind,
        Option.bind_some, if_neg (mt htype.mp hip)]
      rfl

/-- For a frame of any bytes the decoders read no byte outside those kept and make no subtraction
that wraps, and the data that they leave lies in the kept bytes, and in those of the IPv4 packet
where its header is accepted. -/
theorem decodeEther_inside (frame : Frame) :
    ∃ ok q, decodeEther frame.packet = some (ok, q) ∧
      decodeEtherBy within frame.packet = some (ok, q) ∧
      q.data + q.dsize.toNat ≤ frame.kept.length ∧
      ∀ ip4h, q.ip4h = some ip4h →
        ip4h ≤ q.data ∧ q.data + q.dsize.toNat ≤ ip4h + bigEndian16 frame.kept (ip4h + 2) := by
  obtain ⟨ok, q, hdecode, decoded⟩ := decodeEtherBy_spec frame
  refine ⟨ok, q, ?_, hdecode within subtracts_within, decoded.stop_le, decoded.inside⟩
  rw [← decodeEtherBy_wrapping]
  exact hdecode wrapping subtracts_wrapping

/-- Every captured frame is sent: its head has the time and the length of the frame, and the
addresses of a frame that carries an IPv4 packet, as the words they are in memory. -/
theorem packetProcess_spec (frame : Frame) :
    ∃ ph, packetProcess frame.pkthdr frame.bytes = some (ph, frame.kept) ∧
      ph.time = frame.tvSec ∧ ph.dsize = BitVec.ofNat 16 frame.kept.length ∧
      ∀ src dst, Ipv4Frame frame.kept src dst →
        ph.sip = wordOfBytes 32 src ∧ ph.dip = wordOfBytes 32 dst := by
  obtain ⟨ok, q, hdecode, decoded⟩ := decodeEtherBy_spec frame
  have hether : decodeEther frame.packet = some (ok, q) := hdecode wrapping subtracts_wrapping
  obtain ⟨hpkth, -, haddress⟩ := addresses_of_decodeEther hether
  have hdsize : q.pkth.caplen.setWidth 16 = BitVec.ofNat 16 frame.kept.length := by
    apply BitVec.eq_of_toNat_eq
    rw [hpkth, BitVec.toNat_setWidth, toNat_caplen_packet, BitVec.toNat_ofNat]
  rw [packetProcess_frame, decode, hether]
  exact ⟨_, by simp [decoded.captured_eq]; rfl, rfl, hdsize, haddress⟩

/-! ### Ports -/

/-- The kept bytes of a frame are those of an IPv4 packet with a whole TCP or UDP header at an
offset. -/
def TransportAt (kept : List Byte) (offset : ℕ) : Prop :=
  EthernetIpv4 kept ∧ ∃ headerLen totalLen,
    Ipv4Packet kept 14 (kept.length - 14) headerLen totalLen ∧ offset = 14 + headerLen ∧
      TransportHeader kept (kept.getD 23 0) offset (totalLen - headerLen)

/-- The fragment offset of the IPv4 packet in a frame. -/
def fragmentOffset (kept : List Byte) : ℕ := bigEndian16 kept 20 % 2 ^ 13

/-- The ports sent for a frame are those of the transport header where the frame carries one, and
zero where it does not. -/
def PortsExact (frame : Frame) (carries : ℕ → Prop) : Prop :=
  ∃ ph, packetProcess frame.pkthdr frame.bytes = some (ph, frame.kept) ∧
    (∀ offset, carries offset → ph.sp.toNat = bigEndian16 frame.kept offset ∧
      ph.dp.toNat = bigEndian16 frame.kept (offset + 2)) ∧
    ((∀ offset, ¬ carries offset) → ph.sp = 0 ∧ ph.dp = 0)

/-- The ports sent for a frame are exact, fragments taken for packets with a header. -/
theorem ports_exact (frame : Frame) : PortsExact frame (TransportAt frame.kept) := by
  obtain ⟨ok, q, hdecode, decoded⟩ := decodeEtherBy_spec frame
  have hether : decodeEther frame.packet = some (ok, q) := hdecode wrapping subtracts_wrapping
  rw [PortsExact, packetProcess_frame, decode, hether]
  refine ⟨_, by simp [decoded.captured_eq]; rfl, ?_, ?_⟩
  · rintro _ ⟨hip, headerLen, totalLen, header, rfl, htransport⟩
    exact ((decoded.ports hip).1 headerLen totalLen header).header htransport
  · intro hnone
    by_cases hip : EthernetIpv4 frame.kept
    · obtain ⟨hpacket, hother⟩ := decoded.ports hip
      by_cases hheader : ∃ headerLen totalLen,
          Ipv4Packet frame.kept 14 (frame.kept.length - 14) headerLen totalLen
      · obtain ⟨headerLen, totalLen, header⟩ := hheader
        refine (hpacket headerLen totalLen header).none fun htransport ↦ ?_
        exact hnone _ ⟨hip, headerLen, totalLen, header, rfl, htransport⟩
      · exact hother fun headerLen totalLen header ↦ hheader ⟨headerLen, totalLen, header⟩
    · exact decoded.none hip

/-- A frame with a later fragment of an IPv4 packet of UDP, whose data reads like a UDP header. -/
def fragmentFrame : Frame :=
  { tvSec := 0
    tvUsec := 0
    bytes := [0, 0, 0, 0, 0, 0, 0, 0, 0, 0, 0, 0, 8, 0] ++
      [0x45, 0, 0, 28, 0, 0, 0, 185, 64, 17, 0, 0, 10, 0, 0, 1, 10, 0, 0, 2] ++
      [0, 1, 0, 2, 0, 8, 0, 0]
    length_lt := by decide }

/-- The ports of a fragment that carries no transport header are not zero. -/
theorem not_portsExact_fragment :
    ¬ PortsExact fragmentFrame fun offset ↦
      TransportAt fragmentFrame.kept offset ∧ fragmentOffset fragmentFrame.kept = 0 := by
  rintro ⟨ph, hprocess, -, hzero⟩
  have hfragment : fragmentOffset fragmentFrame.kept ≠ 0 := by decide
  have hports : (packetProcess fragmentFrame.pkthdr fragmentFrame.bytes).map (·.1.sp) = some 1 := by
    decide +kernel
  rw [hprocess, Option.map_some, (hzero fun _ h ↦ hfragment h.2).1] at hports
  exact absurd hports (by decide)

end CppLearn.RecvEngine.FrameHeaders
