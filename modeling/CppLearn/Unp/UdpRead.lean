import CppLearn.Unp.Checksum

/-!
# Captured datagrams

`udp_read` finds the IP datagram in a captured frame and `udp_check` looks at its header. They return
the captures that hold a UDP datagram behind an intact header, and read outside of a capture exactly if
it ends in the link-layer header (`udpRead_wellFormed`): its length less that of the header is negative
then, and `udp_check` compares it as a `size_t`.

What `udp_write` sends and IP completes is returned as it was sent, and `test_udp` finds out whether it
has a checksum. With one word of the header changed on the way it is not returned
(`udpRead_udpWrite`).
-/

set_option autoImplicit false
set_option relaxedAutoImplicit false

namespace CppLearn.Unp.UdpRead

open Foundation.ByteOrder Foundation.OnesComplement Checksum

/-! ### The functions -/

/-- `datalink`, with the values that `udp_read` supports. -/
inductive Datalink
  | null
  | en10mb
  | slip
  | ppp
  | other (value : ℤ)

/-- The calls of `err_quit`, with the values that they print. -/
inductive Quit
  /-- "Ethernet type %x not IP" -/
  | etherType (type : ℕ)
  /-- "unsupported datalink (%d)" -/
  | datalink (value : ℤ)
  /-- "len = %d" -/
  | len (len : ℤ)
  /-- "ip_v = %d" -/
  | version (ipV : ℕ)
  /-- "ip_hl = %d" -/
  | headerLength (ipHl : ℕ)
  /-- "len = %d, hlen = %d" -/
  | lengths (len : ℤ) (hlen : ℕ)
  /-- "ip checksum error" -/
  | checksum
  /-- "not a UDP packet" -/
  | protocol

/-- A call returns the datagram, ends the process or reads a byte that is not of the capture. -/
inductive Outcome
  | returned (ui : List Byte)
  | quit (error : Quit)
  | outside

/-- An `int` where it is compared with a `sizeof`. -/
def sizeT (len : ℤ) : ℕ := (len % 18446744073709551616).toNat

/-- `ip_sum` is overwritten with the checksum, which is zero. -/
def clearSum (ip : List Byte) : List Byte := (ip.set 10 0).set 11 0

/-- `udp_check` from `ip_v` on, which with `ip_hl` is the first byte. -/
def checkHeader (order : Order) (first : Byte) (ptr : List Byte) (len : ℤ) : Outcome :=
  let ipV := first.toNat / 16
  let ipHl := first.toNat % 16
  let hlen := ipHl * 4
  if ipV ≠ 4 then .quit (.version ipV)
  else if hlen < 20 then .quit (.headerLength ipHl)
  else if sizeT len < hlen + 8 then .quit (.lengths len hlen)
  else if ptr.length < hlen then .outside
  else if inCksum order (ptr.take hlen) ≠ 0 then .quit .checksum
  else if ptr.getD 9 0 = ipprotoUdp then .returned (clearSum ptr)
  else .quit .protocol

/-- `udp_check`. The bytes are those of the capture from `ptr` on. -/
def udpCheck (order : Order) (ptr : List Byte) (len : ℤ) : Outcome :=
  if sizeT len < 28 then .quit (.len len)
  else
    match ptr.head? with
    | some first => checkHeader order first ptr len
    | none => .outside

/-- `udp_read`, for the capture that `next_pcap` returns. -/
def udpRead (order : Order) (datalink : Datalink) (ptr : List Byte) : Outcome :=
  match datalink with
  | .null => udpCheck order (ptr.drop 4) (ptr.length - 4)
  | .en10mb =>
    match ptr.drop 12 with
    | high :: low :: _ =>
      if word .big high low ≠ 0x0800 then .quit (.etherType (word .big high low))
      else udpCheck order (ptr.drop 14) (ptr.length - 14)
    | _ => .outside
  | .slip => udpCheck order (ptr.drop 24) (ptr.length - 24)
  | .ppp => udpCheck order (ptr.drop 24) (ptr.length - 24)
  | .other value => .quit (.datalink value)

/-- `snaplen`. -/
def snaplen : ℕ := 200

/-- `next_pcap`: what is captured of a frame. That `libpcap` cuts it so is a condition of the results. -/
def nextPcap (frame : List Byte) : List Byte := frame.take snaplen

/-- `test_udp` prints that the checksums are on: `ui_sum` is not zero. -/
def checksumsOn (ui : List Byte) : Bool := (ui.drop 26).take 2 ≠ [0, 0]

/-! ### Headers -/

/-- The bytes in front of the IP datagram. -/
def Datalink.headerLength : Datalink → ℕ
  | .null => 4
  | .en10mb => 14
  | .slip => 24
  | .ppp => 24
  | .other _ => 0

theorem Datalink.headerLength_le (datalink : Datalink) : datalink.headerLength ≤ 24 := by
  unfold headerLength
  split <;> decide

/-- The link-layer headers of the frames that carry IP. -/
def Datalink.CarriesIp : Datalink → List Byte → Prop
  | .en10mb, header => header.length = 14 ∧ header.drop 12 = [8, 0]
  | .other _, _ => False
  | datalink, header => header.length = datalink.headerLength

/-- The bytes are an IP header, with its options. -/
structure IsIpHeader (header : List Byte) : Prop where
  first : ∃ first, header.head? = some first ∧ first.toNat / 16 = 4 ∧
    header.length = first.toNat % 16 * 4
  length : 20 ≤ header.length

/-- An intact header of a UDP datagram. -/
structure IsUdpHeader (header : List Byte) : Prop extends IsIpHeader header where
  verifies : inCksum .big header = 0
  protocol : header.getD 9 0 = ipprotoUdp

variable {order : Order} {datalink : Datalink} {header body ptr ui : List Byte}

theorem sizeT_natCast {length : ℕ} (hle : length ≤ snaplen) : sizeT length = length := by
  rw [snaplen] at hle
  rw [sizeT]
  omega

/-- What `udp_check` does behind a header that has the right form. -/
theorem udpCheck_append (hheader : IsIpHeader header) (hbody : 8 ≤ body.length)
    (hle : (header ++ body).length ≤ snaplen) :
    udpCheck order (header ++ body) (header ++ body).length =
      if inCksum order header ≠ 0 then .quit .checksum
      else if header.getD 9 0 = ipprotoUdp then .returned (clearSum (header ++ body))
      else .quit .protocol := by
  have hsize := sizeT_natCast hle
  have hmin := hheader.length
  obtain ⟨first, hfirst, hversion, hwords⟩ := hheader.first
  have htake : (header ++ body).take header.length = header := List.take_left' rfl
  have hprotocol : (header ++ body).getD 9 0 = header.getD 9 0 := by
    rw [List.getD_eq_getElem?_getD, List.getD_eq_getElem?_getD, List.getElem?_append_left (by omega)]
  have hhead : (header ++ body).head? = some first := by
    rw [List.head?_append, hfirst]
    rfl
  have hlength : (header ++ body).length = header.length + body.length := List.length_append
  rw [udpCheck, hsize, if_neg (by omega), hhead]
  simp only [checkHeader, hsize, ← hwords, htake, hprotocol]
  rw [if_neg (not_not.mpr hversion), if_neg (by omega), if_neg (by omega), if_neg (by omega)]

/-- Hosts of both byte orders agree about a header. -/
theorem IsIpHeader.inCksum_iff (hheader : IsIpHeader header) (order : Order) :
    inCksum order header = 0 ↔ inCksum .big header = 0 := by
  obtain ⟨first, -, -, hwords⟩ := hheader.first
  refine inCksum_order ?_ order .big
  rw [maxPacket]
  omega

/-- A capture that `udp_check` returns is in two parts. -/
theorem exists_of_udpCheck_returned (hle : ptr.length ≤ snaplen)
    (hreturned : udpCheck order ptr ptr.length = .returned ui) :
    ∃ header body, ptr = header ++ body ∧ IsIpHeader header ∧ 8 ≤ body.length := by
  have hsize := sizeT_natCast hle
  rw [udpCheck, hsize] at hreturned
  split_ifs at hreturned with hlen
  cases hhead : ptr.head? with
  | none =>
    rw [hhead] at hreturned
    cases hreturned
  | some first =>
    rw [hhead] at hreturned
    simp only [checkHeader, hsize] at hreturned
    split_ifs at hreturned with hversion hhlen hlengths houtside
    have htake : (ptr.take (first.toNat % 16 * 4)).length = first.toNat % 16 * 4 := by
      rw [List.length_take]
      omega
    have hpos : first.toNat % 16 * 4 ≠ 0 := by omega
    refine ⟨ptr.take (first.toNat % 16 * 4), ptr.drop (first.toNat % 16 * 4),
      (List.take_append_drop ..).symm, ⟨⟨first, ?_, not_not.mp hversion, htake⟩, by omega⟩, ?_⟩
    · rw [List.head?_take, if_neg hpos, hhead]
    · rw [List.length_drop]
      omega

/-- `udp_check` on a whole capture returns what has an intact header. -/
theorem udpCheck_returned_iff (hle : ptr.length ≤ snaplen) :
    udpCheck order ptr ptr.length = .returned ui ↔
      ∃ header body, ptr = header ++ body ∧ IsUdpHeader header ∧ 8 ≤ body.length ∧ ui = clearSum ptr := by
  constructor
  · intro hreturned
    obtain ⟨header, body, rfl, hheader, hbody⟩ := exists_of_udpCheck_returned hle hreturned
    rw [udpCheck_append hheader hbody hle] at hreturned
    split_ifs at hreturned with hverifies hprotocol
    injection hreturned with heq
    exact ⟨header, body, rfl, ⟨hheader, (hheader.inCksum_iff order).mp (not_not.mp hverifies), hprotocol⟩,
      hbody, heq.symm⟩
  · rintro ⟨header, body, rfl, hheader, hbody, rfl⟩
    have hverifies := (hheader.inCksum_iff order).mpr hheader.verifies
    rw [udpCheck_append hheader.toIsIpHeader hbody hle, if_neg (not_not.mpr hverifies),
      if_pos hheader.protocol]

/-- It reads nothing outside of it. -/
theorem udpCheck_ne_outside (hle : ptr.length ≤ snaplen) :
    udpCheck order ptr ptr.length ≠ .outside := by
  intro houtside
  have hsize := sizeT_natCast hle
  rw [udpCheck, hsize] at houtside
  split_ifs at houtside with hlen
  cases hhead : ptr.head? with
  | none =>
    rw [List.head?_eq_none_iff.mp hhead] at hlen
    exact hlen (by decide)
  | some first =>
    rw [hhead] at houtside
    simp only [checkHeader, hsize] at houtside
    split_ifs at houtside with hversion hhlen hlengths hshort
    omega

/-! ### Link-layer headers -/

theorem length_sub_cast {skip : ℕ} (hskip : skip ≤ ptr.length) :
    (ptr.length : ℤ) - skip = (ptr.drop skip).length := by
  rw [List.length_drop]
  omega

theorem length_drop_le {skip : ℕ} (hle : ptr.length ≤ snaplen) : (ptr.drop skip).length ≤ snaplen := by
  rw [List.length_drop]
  omega

/-- Without the whole link-layer header the length is negative, and passes for a long one. -/
theorem udpCheck_drop_outside_iff {skip : ℕ} (hskip : skip ≤ 24) (hle : ptr.length ≤ snaplen) :
    udpCheck order (ptr.drop skip) (ptr.length - skip) = .outside ↔ ptr.length < skip := by
  by_cases hshort : ptr.length < skip
  · have hnone : ptr.drop skip = [] := List.drop_eq_nil_of_le (Nat.le_of_lt hshort)
    have hsize : ¬ sizeT (ptr.length - skip) < 28 := by
      rw [sizeT]
      omega
    rw [udpCheck, if_neg hsize, hnone]
    exact ⟨fun _ ↦ hshort, fun _ ↦ rfl⟩
  · rw [length_sub_cast (not_lt.mp hshort)]
    exact ⟨fun houtside ↦ absurd houtside (udpCheck_ne_outside (length_drop_le hle)),
      fun hlt ↦ absurd hlt hshort⟩

/-- What is returned behind a link-layer header. -/
theorem exists_of_udpCheck_drop {skip : ℕ} (hskip : skip ≤ 24) (hle : ptr.length ≤ snaplen)
    (hreturned : udpCheck order (ptr.drop skip) (ptr.length - skip) = .returned ui) :
    ∃ linkHeader header body, ptr = linkHeader ++ (header ++ body) ∧ linkHeader.length = skip ∧
      IsUdpHeader header ∧ 8 ≤ body.length ∧ ui = clearSum (header ++ body) := by
  have hlong : ¬ ptr.length < skip := by
    intro hshort
    rw [(udpCheck_drop_outside_iff hskip hle).mpr hshort] at hreturned
    cases hreturned
  rw [length_sub_cast (not_lt.mp hlong), udpCheck_returned_iff (length_drop_le hle)] at hreturned
  obtain ⟨header, body, hparts, hheader, hbody, rfl⟩ := hreturned
  refine ⟨ptr.take skip, header, body, ?_, ?_, hheader, hbody, by rw [hparts]⟩
  · rw [← hparts, List.take_append_drop]
  · rw [List.length_take]
    omega

theorem word_big_eq_iff (high low : Byte) : word .big high low = 0x0800 ↔ high = 8 ∧ low = 0 := by
  have hlow := low.isLt
  have height : (8 : Byte).toNat = 8 := rfl
  have hzero : (0 : Byte).toNat = 0 := rfl
  rw [← BitVec.toNat_inj, ← BitVec.toNat_inj, height, hzero, word]
  omega

theorem Datalink.CarriesIp.length {linkHeader : List Byte} (hcarries : datalink.CarriesIp linkHeader) :
    linkHeader.length = datalink.headerLength := by
  cases datalink with
  | null => exact hcarries
  | slip => exact hcarries
  | ppp => exact hcarries
  | en10mb => exact hcarries.1
  | other value => exact hcarries.elim

/-- `udp_check` sees what is behind the header of the link layer. -/
theorem udpRead_append {linkHeader : List Byte} (hcarries : datalink.CarriesIp linkHeader)
    (order : Order) (ptr : List Byte) :
    udpRead order datalink (linkHeader ++ ptr) = udpCheck order ptr ptr.length := by
  have hlink := hcarries.length
  have hlong : linkHeader.length ≤ (linkHeader ++ ptr).length := by
    rw [List.length_append]
    omega
  have hcheck : udpCheck order ((linkHeader ++ ptr).drop linkHeader.length)
      ((linkHeader ++ ptr).length - linkHeader.length) = udpCheck order ptr ptr.length := by
    rw [length_sub_cast hlong, List.drop_left' rfl]
  rw [hlink] at hcheck
  cases datalink with
  | null => exact hcheck
  | slip => exact hcheck
  | ppp => exact hcheck
  | en10mb =>
    have hdrop : (linkHeader ++ ptr).drop 12 = 8 :: 0 :: ptr := by
      rw [List.drop_append_of_le_length (by rw [hcarries.1]; decide), hcarries.2]
      rfl
    simp only [udpRead, hdrop]
    exact hcheck
  | other value => exact hcarries.elim

theorem udpRead_outside_iff (hle : ptr.length ≤ snaplen) :
    udpRead order datalink ptr = .outside ↔ ptr.length < datalink.headerLength := by
  cases datalink with
  | null => exact udpCheck_drop_outside_iff (by decide) hle
  | slip => exact udpCheck_drop_outside_iff (by decide) hle
  | ppp => exact udpCheck_drop_outside_iff (by decide) hle
  | en10mb =>
    have hlength := @List.length_drop Byte 12 ptr
    simp only [udpRead, Datalink.headerLength]
    rcases hdrop : ptr.drop 12 with _ | ⟨high, _ | ⟨low, rest⟩⟩
    · rw [hdrop, List.length_nil] at hlength
      exact ⟨fun _ ↦ by omega, fun _ ↦ rfl⟩
    · rw [hdrop, List.length_singleton] at hlength
      exact ⟨fun _ ↦ by omega, fun _ ↦ rfl⟩
    · rw [hdrop, List.length_cons, List.length_cons] at hlength
      have hlong : ¬ ptr.length < 14 := by omega
      by_cases htype : word .big high low = 0x0800
      · simp only [htype, ne_eq, not_true_eq_false, if_false]
        exact udpCheck_drop_outside_iff (by decide) hle
      · simp only [htype, ne_eq, not_false_eq_true, if_true, reduceCtorEq, hlong]
  | other value =>
    exact ⟨fun houtside ↦ (by cases houtside), fun hlt ↦ absurd hlt (Nat.not_lt_zero _)⟩

/-- The frames that are returned: an Ethernet type other than that of IP ends the process. -/
theorem udpRead_returned_iff (hle : ptr.length ≤ snaplen) :
    udpRead order datalink ptr = .returned ui ↔
      ∃ linkHeader header body, ptr = linkHeader ++ (header ++ body) ∧ datalink.CarriesIp linkHeader ∧
        IsUdpHeader header ∧ 8 ≤ body.length ∧ ui = clearSum (header ++ body) := by
  constructor
  · intro hreturned
    cases datalink with
    | null => exact exists_of_udpCheck_drop (by decide) hle hreturned
    | slip => exact exists_of_udpCheck_drop (by decide) hle hreturned
    | ppp => exact exists_of_udpCheck_drop (by decide) hle hreturned
    | en10mb =>
      simp only [udpRead] at hreturned
      rcases hdrop : ptr.drop 12 with _ | ⟨high, _ | ⟨low, rest⟩⟩
      · rw [hdrop] at hreturned
        cases hreturned
      · rw [hdrop] at hreturned
        cases hreturned
      · rw [hdrop] at hreturned
        simp only at hreturned
        split_ifs at hreturned with htype
        obtain ⟨linkHeader, header, body, rfl, hlink, hheader⟩ :=
          @exists_of_udpCheck_drop order ptr ui 14 (by decide) hle hreturned
        obtain ⟨high', low', hpair⟩ := List.length_eq_two.mp
          (show (linkHeader.drop 12).length = 2 by rw [List.length_drop, hlink])
        rw [List.drop_append_of_le_length (by omega), hpair] at hdrop
        injection hdrop with hhigh hrest
        injection hrest with hlow
        subst hhigh hlow
        obtain ⟨rfl, rfl⟩ := (word_big_eq_iff high' low').mp (not_not.mp htype)
        exact ⟨linkHeader, header, body, rfl, ⟨hlink, hpair⟩, hheader⟩
    | other value => cases hreturned
  · rintro ⟨linkHeader, header, body, rfl, hcarries, hheader, hbody, rfl⟩
    have hbodyLe : (header ++ body).length ≤ snaplen := by
      rw [List.length_append] at hle
      omega
    rw [udpRead_append hcarries, udpCheck_returned_iff hbodyLe]
    exact ⟨header, body, rfl, hheader, hbody, rfl⟩

/-- `udp_read` returns the captures of frames that carry a UDP datagram behind an intact IP header,
whatever the byte order of the host. It reads outside of the capture exactly if the frame ends in the
link-layer header. -/
theorem udpRead_wellFormed (order : Order) (datalink : Datalink) (frame : List Byte) :
    (udpRead order datalink (nextPcap frame) = .outside ↔ frame.length < datalink.headerLength) ∧
      ∀ ui, udpRead order datalink (nextPcap frame) = .returned ui ↔
        ∃ linkHeader header body, nextPcap frame = linkHeader ++ (header ++ body) ∧
          datalink.CarriesIp linkHeader ∧ IsUdpHeader header ∧ 8 ≤ body.length ∧
            ui = clearSum (header ++ body) := by
  have hle : (nextPcap frame).length ≤ snaplen := List.length_take_le ..
  refine ⟨?_, fun ui ↦ udpRead_returned_iff hle⟩
  have hheader := datalink.headerLength_le
  have hlength : (nextPcap frame).length = min 200 frame.length := List.length_take
  rw [udpRead_outside_iff hle]
  omega

/-! ### What `udp_write` sends -/

/-- The header that is sent: IP sets `ip_id`, and `ip_sum` to the checksum. That the kernel completes it
so is a condition of the results. -/
def completed (order : Order) (id header : List Byte) : List Byte :=
  let before := header.take 4 ++ (id ++ (header.drop 6).take 4)
  let after := header.drop 12
  before ++ store order (inCksum order (before ++ [0, 0] ++ after)).toNat ++ after

/-- The datagram that is sent. -/
def ipOutput (order : Order) (id datagram : List Byte) : List Byte :=
  completed order id (datagram.take 20) ++ datagram.drop 20

theorem ipOutput_udpWrite (sender : Order) (zerosum : Bool) (source dest : SockaddrIn)
    (data id : List Byte) :
    ipOutput sender id (udpWrite sender zerosum source dest data) =
      completed sender id (ipHeader sender source dest data.length) ++
        udpPart sender source dest (uiSum sender zerosum source dest data) data := by
  have hlength : (ipHeader sender source dest data.length).length = 20 := by
    simp only [ipHeader, List.length_append, List.length_cons, List.length_nil, length_uiLen,
      length_store, source.length_sinAddr, dest.length_sinAddr]
  rw [ipOutput, udpWrite, List.take_left' hlength, List.drop_left' hlength]

/-- The header that `udp_write` fills in. -/
theorem exists_ipHeader (sender : Order) (source dest : SockaddrIn) (userlen : ℕ) :
    ∃ len len' rest, ipHeader sender source dest userlen =
      [0x45, 0, len, len', 0, 0, 0, 0, 64, ipprotoUdp] ++ rest ∧ rest.length = 10 := by
  obtain ⟨len, len', hlen⟩ := List.length_eq_two.mp
    (length_store sender (htons sender (BitVec.ofNat 16 (28 + userlen))).toNat)
  refine ⟨len, len', uiLen sender userlen ++ (source.sinAddr ++ dest.sinAddr), ?_, ?_⟩
  · rw [ipHeader, hlen]
    rfl
  · rw [List.length_append, List.length_append, length_uiLen, source.length_sinAddr, dest.length_sinAddr]

/-- The header that is sent is intact. -/
theorem isUdpHeader_completed (sender : Order) (source dest : SockaddrIn) (userlen : ℕ) {id : List Byte}
    (hid : id.length = 2) :
    IsUdpHeader (completed sender id (ipHeader sender source dest userlen)) ∧
      (completed sender id (ipHeader sender source dest userlen)).length = 20 := by
  obtain ⟨len, len', rest, hheader, hrest⟩ := exists_ipHeader sender source dest userlen
  obtain ⟨id₁, id₂, rfl⟩ := List.length_eq_two.mp hid
  have hafter : (rest.drop 2).length = 8 := by rw [List.length_drop, hrest]
  have hcompleted : completed sender [id₁, id₂] (ipHeader sender source dest userlen) =
      [0x45, 0, len, len', id₁, id₂, 0, 0, 64, ipprotoUdp] ++ store sender (inCksum sender
        ([0x45, 0, len, len', id₁, id₂, 0, 0, 64, ipprotoUdp] ++ [0, 0] ++ rest.drop 2)).toNat ++
          rest.drop 2 := by
    rw [hheader]
    rfl
  rw [hcompleted]
  generalize hfilled : store sender (inCksum sender
    ([0x45, 0, len, len', id₁, id₂, 0, 0, 64, ipprotoUdp] ++ [0, 0] ++ rest.drop 2)).toNat = filled
  have hlength : ([0x45, 0, len, len', id₁, id₂, 0, 0, 64, ipprotoUdp] ++ filled ++
      rest.drop 2).length = 20 := by
    rw [List.length_append, List.length_append, ← hfilled, length_store, hafter]
    rfl
  refine ⟨⟨⟨⟨0x45, rfl, rfl, hlength⟩, Nat.le_of_eq hlength.symm⟩, ?_, rfl⟩, hlength⟩
  rw [← hfilled]
  refine inCksum_put sender .big (by simp only [List.length_cons, List.length_nil]) ?_
  rw [hafter]
  simp only [List.length_cons, List.length_nil, maxPacket]
  decide

/-- A frame is captured with its headers. -/
theorem nextPcap_frame {linkHeader : List Byte} (hlink : linkHeader.length ≤ 24)
    (hheader : header.length = 20) (udp : List Byte) :
    nextPcap (linkHeader ++ (header ++ udp)) =
      linkHeader ++ (header ++ udp.take (snaplen - linkHeader.length - 20)) := by
  rw [nextPcap, List.take_append, List.take_append, snaplen, hheader,
    List.take_of_length_le (by omega), List.take_of_length_le (by omega)]

/-- A header with a word changed does not verify. -/
theorem udpRead_changed {linkHeader before after : List Byte} {value value' : BitVec 16}
    (hcarries : datalink.CarriesIp linkHeader)
    (hheader : IsUdpHeader (before ++ store .big value.toNat ++ after))
    (heven : before.length % 2 = 0) (hbefore : 2 ≤ before.length)
    (hne : value.toNat % 65535 ≠ value'.toNat % 65535) (hbody : 8 ≤ body.length)
    (hle : (before ++ store .big value'.toNat ++ after ++ body).length ≤ snaplen) :
    udpRead order datalink (linkHeader ++ (before ++ store .big value'.toNat ++ after ++ body)) =
      .quit .checksum := by
  have hlengthEq : (before ++ store .big value'.toNat ++ after).length =
      (before ++ store .big value.toNat ++ after).length := by
    simp only [List.length_append, length_store]
  have hpacket : before.length + 2 + after.length ≤ maxPacket := by
    simp only [List.length_append, length_store, snaplen] at hle
    rw [maxPacket]
    omega
  have hchanged : IsIpHeader (before ++ store .big value'.toNat ++ after) := by
    obtain ⟨first, hfirst, hversion, hwords⟩ := hheader.first
    refine ⟨⟨first, ?_, hversion, hlengthEq.trans hwords⟩, hlengthEq ▸ hheader.length⟩
    obtain ⟨byte, rest, rfl⟩ := List.exists_cons_of_length_pos (show 0 < before.length by omega)
    exact hfirst
  have hfails : inCksum order (before ++ store .big value'.toNat ++ after) ≠ 0 := by
    rw [ne_eq, hchanged.inCksum_iff order]
    exact inCksum_put_ne heven hpacket hheader.verifies hne
  rw [udpRead_append hcarries, udpCheck_append hchanged hbody hle, if_pos hfails]

theorem drop_clearSum (ip : List Byte) : (clearSum ip).drop 20 = ip.drop 20 := by
  rw [clearSum, List.drop_set_of_lt (by decide), List.drop_set_of_lt (by decide)]

theorem length_udpPart {source dest : SockaddrIn} {sum data : List Byte} (hsum : sum.length = 2) :
    (udpPart order source dest sum data).length = 8 + data.length := by
  simp only [udpPart, List.length_append, length_uiLen, source.length_sinPort, dest.length_sinPort, hsum]
  omega

theorem udpPart_sum {source dest : SockaddrIn} {sum data : List Byte} (hsum : sum.length = 2) :
    ((udpPart order source dest sum data).drop 6).take 2 = sum := by
  have hports : (source.sinPort ++ (dest.sinPort ++ uiLen order data.length)).length = 6 := by
    simp only [List.length_append, length_uiLen, source.length_sinPort, dest.length_sinPort]
  have hparts : udpPart order source dest sum data =
      (source.sinPort ++ (dest.sinPort ++ uiLen order data.length)) ++ (sum ++ data) := by
    simp only [udpPart, List.append_assoc]
  rw [hparts, List.drop_left' hports, List.take_left' hsum]

/-- Assumes: IP sends what `ipOutput` says, with an identification of two bytes, and the frame's first
bytes are a header of the link layer. A host of either byte order returns what `udp_write` sent, as far as it is captured, and
`test_udp` finds a checksum unless `zerosum` was set. With a word of the IP header changed that is not
the first one, other than between the two zeros, the process ends. -/
theorem udpRead_udpWrite (sender receiver : Order) (zerosum : Bool) (source dest : SockaddrIn)
    (data : List Byte) {id linkHeader : List Byte} {datalink : Datalink} (hid : id.length = 2)
    (hcarries : datalink.CarriesIp linkHeader) :
    (∃ ui, udpRead receiver datalink (nextPcap (linkHeader ++
        ipOutput sender id (udpWrite sender zerosum source dest data))) = .returned ui ∧
      ui.drop 20 = (udpPart sender source dest (uiSum sender zerosum source dest data) data).take
        (snaplen - linkHeader.length - 20) ∧
      checksumsOn ui = !zerosum) ∧
    ∀ before after (value value' : BitVec 16),
      completed sender id (ipHeader sender source dest data.length) =
        before ++ store .big value.toNat ++ after →
      before.length % 2 = 0 → 2 ≤ before.length → value.toNat % 65535 ≠ value'.toNat % 65535 →
      udpRead receiver datalink (nextPcap (linkHeader ++ (before ++ store .big value'.toNat ++ after ++
        udpPart sender source dest (uiSum sender zerosum source dest data) data))) =
          .quit .checksum := by
  have hlink : linkHeader.length ≤ 24 := hcarries.length ▸ datalink.headerLength_le
  obtain ⟨hheader, hlength⟩ := isUdpHeader_completed sender source dest data.length hid
  have hsum := length_uiSum sender zerosum source dest data
  have hudpSum := @udpPart_sum sender source dest _ data hsum
  have hudpLength := @length_udpPart sender source dest _ data hsum
  rw [ipOutput_udpWrite]
  generalize udpPart sender source dest (uiSum sender zerosum source dest data) data = udp at *
  have hsnap : snaplen = 200 := rfl
  have htakeLength : (udp.take (snaplen - linkHeader.length - 20)).length =
      min (snaplen - linkHeader.length - 20) (8 + data.length) := by rw [List.length_take, hudpLength]
  constructor
  · rw [nextPcap_frame hlink hlength, udpRead_append hcarries]
    generalize completed sender id (ipHeader sender source dest data.length) = header at *
    have hle : (header ++ udp.take (snaplen - linkHeader.length - 20)).length ≤ snaplen := by
      rw [List.length_append, htakeLength]
      omega
    have hdrop : (clearSum (header ++ udp.take (snaplen - linkHeader.length - 20))).drop 20 =
        udp.take (snaplen - linkHeader.length - 20) := by
      rw [drop_clearSum, List.drop_left' hlength]
    refine ⟨_, (udpCheck_returned_iff hle).mpr ⟨_, _, rfl, hheader, by omega, rfl⟩, hdrop, ?_⟩
    have hfield : ((clearSum (header ++ udp.take (snaplen - linkHeader.length - 20))).drop 26).take 2 =
        uiSum sender zerosum source dest data := by
      have hdrop26 : (clearSum (header ++ udp.take (snaplen - linkHeader.length - 20))).drop 26 =
          (udp.take (snaplen - linkHeader.length - 20)).drop 6 :=
        List.drop_drop.symm.trans (congrArg (List.drop 6) hdrop)
      have hmin : min 2 (snaplen - linkHeader.length - 20 - 6) = 2 := by omega
      rw [← hudpSum, hdrop26, List.drop_take, List.take_take, hmin]
    have hzeros := @uiSum_eq_zeros_iff sender source dest data zerosum
    rw [checksumsOn, hfield]
    cases zerosum with
    | true => exact decide_eq_false (not_not.mpr (hzeros.mpr rfl))
    | false => exact decide_eq_true fun heq ↦ Bool.false_ne_true (hzeros.mp heq)
  · intro before after value value' hparts heven hbefore hne
    rw [hparts] at hheader hlength
    have hchanged : (before ++ store .big value'.toNat ++ after).length = 20 := by
      rw [← hlength]
      simp only [List.length_append, length_store]
    rw [nextPcap_frame hlink hchanged]
    refine udpRead_changed hcarries hheader heven hbefore hne (by omega) ?_
    rw [List.length_append, htakeLength, hchanged]
    omega

theorem udpRead_udpWrite_length :
    udpRead .big .ppp (nextPcap (List.replicate 24 0 ++ ([0x45, 0] ++ store .big 32 ++
      (completed .little [18, 52] (ipHeader .little ⟨[127, 0, 0, 1], [0, 53], rfl, rfl⟩
        ⟨[10, 0, 0, 2], [4, 210], rfl, rfl⟩ 3)).drop 4 ++
      udpPart .little ⟨[127, 0, 0, 1], [0, 53], rfl, rfl⟩ ⟨[10, 0, 0, 2], [4, 210], rfl, rfl⟩
        (uiSum .little false ⟨[127, 0, 0, 1], [0, 53], rfl, rfl⟩ ⟨[10, 0, 0, 2], [4, 210], rfl, rfl⟩
          [1, 2, 3]) [1, 2, 3]))) = .quit .checksum :=
  (@udpRead_udpWrite .little .big false ⟨[127, 0, 0, 1], [0, 53], rfl, rfl⟩
    ⟨[10, 0, 0, 2], [4, 210], rfl, rfl⟩ [1, 2, 3] [18, 52] (List.replicate 24 0) .ppp rfl rfl).2
    [0x45, 0] _ 31 32 (by decide) rfl (by decide) (by decide)

end CppLearn.Unp.UdpRead
