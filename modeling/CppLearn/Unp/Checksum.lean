import CppLearn.Foundation.OnesComplement

/-!
# The Internet checksum and the datagrams that carry it

`in_cksum` adds the words of a packet as its host reads them. Whatever the byte orders of the two hosts,
a packet with the checksum filled in verifies at the receiver (`inCksum_filled`), and a change of one
word is noticed unless it is between the two zeros (`inCksum_put_ne`).

`udp_write` computes the checksum over its UDP header, with the fields of the pseudoheader in the place
of the IP header that it then writes over them. A receiver takes the pseudoheader from that IP header,
and accepts the datagram (`udpWrite_accepted`).
-/

set_option autoImplicit false
set_option relaxedAutoImplicit false

namespace CppLearn.Unp.Checksum

open Foundation.ByteOrder Foundation.OnesComplement

/-! ### The checksum -/

/-- `while (nleft > 1)`: `sum += *w++`. -/
def sumLoop (order : Order) : List Byte → BitVec 32 → BitVec 32 × List Byte
  | first :: second :: bytes, sum =>
    sumLoop order bytes (sum + BitVec.ofNat 32 (word order first second))
  | bytes, sum => (sum, bytes)

/-- The odd byte is the first of a word that is zero otherwise. -/
def addOdd (order : Order) : BitVec 32 × List Byte → BitVec 32
  | (sum, byte :: _) => sum + BitVec.ofNat 32 (word order byte 0)
  | (sum, []) => sum

/-- The high 16 bits are added to the low ones. -/
def addHigh (sum : BitVec 32) : BitVec 32 := (sum >>> 16) + (sum &&& 0xffff)

/-- `in_cksum` on a host of a byte order. -/
def inCksum (order : Order) (bytes : List Byte) : BitVec 16 :=
  let sum := addHigh (addOdd order (sumLoop order bytes 0))
  let sum := sum + (sum >>> 16)
  (~~~sum).setWidth 16

/-- The packets whose sum has 32 bits. -/
def maxPacket : ℕ := 131074

theorem toNat_add_ofNat {sum : BitVec 32} {value : ℕ} (hlt : sum.toNat + value < 4294967296) :
    (sum + BitVec.ofNat 32 value).toNat = sum.toNat + value := by
  rw [BitVec.toNat_add, BitVec.toNat_ofNat]
  omega

/-- The loop and the odd byte add all words. -/
theorem toNat_addOdd_sumLoop {order : Order} {bytes : List Byte} {sum : BitVec 32}
    (hlt : sum.toNat + wordSum order bytes < 4294967296) :
    (addOdd order (sumLoop order bytes sum)).toNat = sum.toNat + wordSum order bytes := by
  induction bytes using wordSum.induct generalizing sum with
  | case1 first second bytes ih =>
    rw [wordSum] at hlt
    have hsum := @toNat_add_ofNat sum (word order first second) (by omega)
    rw [sumLoop, ih (by omega), hsum, wordSum, Nat.add_assoc]
  | case2 byte => exact toNat_add_ofNat hlt
  | case3 => rfl

theorem wordSum_lt {order : Order} {bytes : List Byte} (hlength : bytes.length ≤ maxPacket) :
    wordSum order bytes < 4294967296 := by
  have hle := wordSum_le order bytes
  rw [maxPacket] at hlength
  omega

theorem toNat_high (sum : BitVec 32) : (sum >>> 16).toNat = sum.toNat / 65536 := by
  rw [BitVec.toNat_ushiftRight, Nat.shiftRight_eq_div_pow]

theorem toNat_addHigh (sum : BitVec 32) :
    (addHigh sum).toNat = sum.toNat / 65536 + sum.toNat % 65536 := by
  have hlow : (sum &&& 0xffff).toNat = sum.toNat % 65536 := by
    rw [BitVec.toNat_and]
    exact Nat.and_two_pow_sub_one_eq_mod sum.toNat 16
  have hlt := sum.isLt
  rw [addHigh, BitVec.toNat_add, toNat_high, hlow]
  omega

/-- The checksum is the complement of the one's complement sum. -/
theorem toNat_inCksum {order : Order} {bytes : List Byte} (hlength : bytes.length ≤ maxPacket) :
    (inCksum order bytes).toNat = 65535 - reduce (wordSum order bytes) := by
  have hlt := @wordSum_lt order bytes hlength
  have hzero : (0 : BitVec 32).toNat = 0 := rfl
  have hsum : (addOdd order (sumLoop order bytes 0)).toNat = wordSum order bytes := by
    rw [toNat_addOdd_sumLoop (by rwa [hzero, Nat.zero_add]), hzero, Nat.zero_add]
  rw [inCksum]
  generalize addOdd order (sumLoop order bytes 0) = sum at hsum ⊢
  have hfold := @fold_eq_reduce sum.toNat (hsum ▸ hlt)
  have hhigh := toNat_addHigh sum
  have hcarry : (addHigh sum + (addHigh sum >>> 16)).toNat =
      sum.toNat / 65536 + sum.toNat % 65536 + (sum.toNat / 65536 + sum.toNat % 65536) / 65536 := by
    rw [BitVec.toNat_add, toNat_high, hhigh]
    omega
  have hfoldedLt : sum.toNat / 65536 + sum.toNat % 65536 +
      (sum.toNat / 65536 + sum.toNat % 65536) / 65536 < 4294967296 := hcarry ▸ BitVec.isLt _
  rw [BitVec.toNat_setWidth, BitVec.toNat_not, hcarry, ← hsum, ← hfold]
  generalize sum.toNat / 65536 + sum.toNat % 65536 +
    (sum.toNat / 65536 + sum.toNat % 65536) / 65536 = folded at hfoldedLt ⊢
  omega

/-- A packet verifies if its sum is zero, but not for want of ones. -/
theorem inCksum_eq_zero_iff {order : Order} {bytes : List Byte} (hlength : bytes.length ≤ maxPacket) :
    inCksum order bytes = 0 ↔ wordSum order bytes % 65535 = 0 ∧ wordSum order bytes ≠ 0 := by
  have hsum := @toNat_inCksum order bytes hlength
  have hle := reduce_le (wordSum order bytes)
  rw [← reduce_eq_max_iff]
  constructor
  · intro hzero
    have hnone : (inCksum order bytes).toNat = 0 := congrArg BitVec.toNat hzero
    omega
  · intro hmax
    refine BitVec.eq_of_toNat_eq ?_
    rw [hsum, hmax]
    rfl

/-- It verifies on hosts of both byte orders or on neither. -/
theorem inCksum_order {bytes : List Byte} (hlength : bytes.length ≤ maxPacket) (first second : Order) :
    inCksum first bytes = 0 ↔ inCksum second bytes = 0 := by
  rw [inCksum_eq_zero_iff hlength, inCksum_eq_zero_iff hlength]
  exact wordSum_verifies_iff first second bytes

/-! ### Packets -/

theorem wordSum_zeros (order : Order) : wordSum order [0, 0] = 0 := by
  cases order <;> rfl

/-- A word in a packet adds its value. -/
theorem wordSum_put {order : Order} {before after : List Byte} {value : ℕ} (heven : before.length % 2 = 0)
    (hle : value ≤ 65535) :
    wordSum order (before ++ store order value ++ after) =
      wordSum order (before ++ [0, 0] ++ after) + value := by
  have hstore : (store order value).length % 2 = 0 := by rw [length_store]
  have hzeros : ([0, 0] : List Byte).length % 2 = 0 := rfl
  rw [List.append_assoc, List.append_assoc, wordSum_append heven, wordSum_append heven,
    wordSum_append hstore, wordSum_append hzeros, wordSum_store hle, wordSum_zeros]
  omega

/-- A sum and its complement. -/
theorem add_complement (sum : ℕ) :
    (sum + (65535 - reduce sum)) % 65535 = 0 ∧ sum + (65535 - reduce sum) ≠ 0 := by
  have hmod := reduce_mod sum
  have hzero := reduce_eq_zero_iff sum
  have hle := reduce_le sum
  omega

theorem length_put {order : Order} {before after : List Byte}
    (hlength : before.length + 2 + after.length ≤ maxPacket) (value : ℕ) :
    (before ++ store order value ++ after).length ≤ maxPacket := by
  simpa only [List.length_append, length_store] using hlength

theorem length_put_zeros {before after : List Byte}
    (hlength : before.length + 2 + after.length ≤ maxPacket) :
    (before ++ [0, 0] ++ after).length ≤ maxPacket := by
  simpa only [List.length_append, List.length_cons, List.length_nil] using hlength

/-- A host of either byte order verifies what a host of either has filled in. -/
theorem inCksum_put (sender receiver : Order) {before after : List Byte}
    (heven : before.length % 2 = 0) (hlength : before.length + 2 + after.length ≤ maxPacket) :
    inCksum receiver
      (before ++ store sender (inCksum sender (before ++ [0, 0] ++ after)).toNat ++ after) = 0 := by
  rw [inCksum_order (length_put hlength _) receiver sender, inCksum_eq_zero_iff (length_put hlength _),
    toNat_inCksum (length_put_zeros hlength), wordSum_put heven (Nat.sub_le ..)]
  exact add_complement _

/-- Assumes: a packet that is not too long, with a field for the checksum after whole words. Filled in by
a host of either byte order, it verifies on hosts of both, and both fill in the same bytes. -/
theorem inCksum_filled (sender receiver : Order) {before after : List Byte}
    (heven : before.length % 2 = 0) (hlength : before.length + 2 + after.length ≤ maxPacket) :
    inCksum receiver
        (before ++ store sender (inCksum sender (before ++ [0, 0] ++ after)).toNat ++ after) = 0 ∧
      store sender (inCksum sender (before ++ [0, 0] ++ after)).toNat =
        store receiver (inCksum receiver (before ++ [0, 0] ++ after)).toNat := by
  refine ⟨inCksum_put sender receiver heven hlength, ?_⟩
  have hempty := @length_put_zeros before after hlength
  rw [toNat_inCksum hempty, toNat_inCksum hempty]
  cases sender <;> cases receiver
  · rfl
  · exact (store_complement_reduce _).symm
  · exact store_complement_reduce _
  · rfl

theorem inCksum_filled_four :
    inCksum .big ([8, 0] ++ store .little (inCksum .little ([8, 0] ++ [0, 0] ++ [1, 2, 3])).toNat ++
      [1, 2, 3]) = 0 :=
  (inCksum_filled .little .big rfl (by decide)).1

/-- A change of one word is noticed, up to the two zeros. -/
theorem inCksum_put_ne {order : Order} {before after : List Byte} {value value' : BitVec 16}
    (heven : before.length % 2 = 0) (hlength : before.length + 2 + after.length ≤ maxPacket)
    (hverifies : inCksum order (before ++ store order value.toNat ++ after) = 0)
    (hne : value.toNat % 65535 ≠ value'.toNat % 65535) :
    inCksum order (before ++ store order value'.toNat ++ after) ≠ 0 := by
  intro hverifies'
  rw [inCksum_eq_zero_iff (length_put hlength _), wordSum_put heven (Nat.le_of_lt_succ value.isLt)]
    at hverifies
  rw [inCksum_eq_zero_iff (length_put hlength _), wordSum_put heven (Nat.le_of_lt_succ value'.isLt)]
    at hverifies'
  omega

/-! ### UDP datagrams -/

/-- `sockaddr_in`, where the address and the port are bytes in network order. -/
structure SockaddrIn where
  sinAddr : List Byte
  sinPort : List Byte
  length_sinAddr : sinAddr.length = 4
  length_sinPort : sinPort.length = 2

/-- `htons` on a host of a byte order. -/
def htons : Order → BitVec 16 → BitVec 16
  | .little, value => byteSwap 2 value
  | .big, value => value

/-- `IPPROTO_UDP`. -/
def ipprotoUdp : Byte := 17

/-- The bytes of `ui_len` and `ui_ulen`: `htons((uint16_t) (sizeof(struct udphdr) + userlen))`. -/
def uiLen (order : Order) (userlen : ℕ) : List Byte :=
  store order (htons order (BitVec.ofNat 16 (8 + userlen))).toNat

/-- `struct udphdr` and the data. -/
def udpPart (order : Order) (source dest : SockaddrIn) (sum data : List Byte) : List Byte :=
  source.sinPort ++ (dest.sinPort ++ (uiLen order data.length ++ (sum ++ data)))

/-- `struct udpiphdr` and the data, as they are when the checksum is computed. -/
def udpiphdr (order : Order) (source dest : SockaddrIn) (sum data : List Byte) : List Byte :=
  List.replicate 8 0 ++ ([0, ipprotoUdp] ++ (uiLen order data.length ++ (source.sinAddr ++
    (dest.sinAddr ++ udpPart order source dest sum data))))

/-- `ui_sum`. -/
def uiSum (order : Order) (zerosum : Bool) (source dest : SockaddrIn) (data : List Byte) : List Byte :=
  if zerosum then [0, 0]
  else
    let sum := inCksum order (udpiphdr order source dest [0, 0] data)
    store order (if sum = 0 then 0xffff else sum.toNat)

/-- The IP header that is written over the first part of `struct udpiphdr`. `ip_sum` is where `ui_len`
was. -/
def ipHeader (order : Order) (source dest : SockaddrIn) (userlen : ℕ) : List Byte :=
  [0x45, 0] ++ (store order (htons order (BitVec.ofNat 16 (28 + userlen))).toNat ++
    ([0, 0] ++ ([0, 0] ++ ([64, ipprotoUdp] ++ (uiLen order userlen ++ (source.sinAddr ++ dest.sinAddr))))))

/-- `udp_write`: the datagram that it sends. -/
def udpWrite (order : Order) (zerosum : Bool) (source dest : SockaddrIn) (data : List Byte) : List Byte :=
  ipHeader order source dest data.length ++
    udpPart order source dest (uiSum order zerosum source dest data) data

/-- The pseudoheader that a receiver makes of the IP header, with the length in the UDP header. -/
def pseudoHeader (datagram : List Byte) : List Byte :=
  (datagram.drop 12).take 8 ++ ([0, datagram.getD 9 0] ++ (datagram.drop 24).take 2)

/-- A receiver accepts a datagram without a checksum and one whose checksum verifies. -/
def accepts (order : Order) (datagram : List Byte) : Bool :=
  (datagram.drop 26).take 2 = [0, 0] || inCksum order (pseudoHeader datagram ++ datagram.drop 20) = 0

variable {order : Order} {source dest : SockaddrIn} {data : List Byte}

theorem length_uiLen (order : Order) (userlen : ℕ) : (uiLen order userlen).length = 2 :=
  length_store ..

theorem length_uiSum (order : Order) (zerosum : Bool) (source dest : SockaddrIn) (data : List Byte) :
    (uiSum order zerosum source dest data).length = 2 := by
  rw [uiSum]
  split_ifs
  · rfl
  · exact length_store ..

theorem wordSum_udpPart {sum : List Byte} (hsum : sum.length = 2) :
    wordSum order (udpPart order source dest sum data) = wordSum order source.sinPort +
      (wordSum order dest.sinPort + (wordSum order (uiLen order data.length) +
        (wordSum order sum + wordSum order data))) := by
  rw [udpPart, wordSum_append (by rw [source.length_sinPort]), wordSum_append (by rw [dest.length_sinPort]),
    wordSum_append (by rw [length_uiLen]), wordSum_append (by rw [hsum])]

theorem wordSum_udpiphdr {sum : List Byte} : wordSum order (udpiphdr order source dest sum data) =
    wordSum order [0, ipprotoUdp] + (wordSum order (uiLen order data.length) +
      (wordSum order source.sinAddr + (wordSum order dest.sinAddr +
        wordSum order (udpPart order source dest sum data)))) := by
  have hzeros : wordSum order (List.replicate 8 0) = 0 := by cases order <;> rfl
  rw [udpiphdr, wordSum_append rfl, wordSum_append rfl, wordSum_append (by rw [length_uiLen]),
    wordSum_append (by rw [source.length_sinAddr]), wordSum_append (by rw [dest.length_sinAddr]),
    hzeros, Nat.zero_add]

/-- What a receiver reads in the datagram. -/
theorem pseudoHeader_udpWrite (zerosum : Bool) :
    pseudoHeader (udpWrite order zerosum source dest data) =
        source.sinAddr ++ (dest.sinAddr ++ ([0, ipprotoUdp] ++ uiLen order data.length)) ∧
      (udpWrite order zerosum source dest data).drop 20 =
        udpPart order source dest (uiSum order zerosum source dest data) data ∧
      ((udpWrite order zerosum source dest data).drop 26).take 2 =
        uiSum order zerosum source dest data := by
  obtain ⟨sum, sum', hsum⟩ := List.length_eq_two.mp (length_uiSum order zerosum source dest data)
  obtain ⟨len, len', hlen⟩ := List.length_eq_two.mp (length_uiLen order data.length)
  obtain ⟨ipLen, ipLen', hipLen⟩ := List.length_eq_two.mp
    (length_store order (htons order (BitVec.ofNat 16 (28 + data.length))).toNat)
  obtain ⟨port, port', hport⟩ := List.length_eq_two.mp source.length_sinPort
  obtain ⟨toPort, toPort', htoPort⟩ := List.length_eq_two.mp dest.length_sinPort
  obtain ⟨a, b, c, d, haddr⟩ := List.length_eq_four.mp source.length_sinAddr
  obtain ⟨a', b', c', d', htoAddr⟩ := List.length_eq_four.mp dest.length_sinAddr
  simp only [udpWrite, ipHeader, udpPart, pseudoHeader, hsum, hlen, hipLen, hport, htoPort, haddr, htoAddr]
  exact ⟨rfl, rfl, rfl⟩

theorem length_udpiphdr {sum : List Byte} (hsum : sum.length = 2) :
    (udpiphdr order source dest sum data).length = 28 + data.length := by
  simp only [udpiphdr, udpPart, List.length_append, List.length_replicate, List.length_cons,
    List.length_nil, length_uiLen, source.length_sinAddr, source.length_sinPort, dest.length_sinAddr,
    dest.length_sinPort, hsum]
  omega

/-- The checksum field adds its value. -/
theorem wordSum_udpiphdr_store {value : ℕ} (hle : value ≤ 65535) :
    wordSum order (udpiphdr order source dest (store order value) data) =
      wordSum order (udpiphdr order source dest [0, 0] data) + value := by
  rw [wordSum_udpiphdr, wordSum_udpiphdr, wordSum_udpPart (length_store ..), wordSum_udpPart rfl,
    wordSum_store hle, wordSum_zeros]
  omega

/-- The checksum that is filled in makes the sum zero, and is not zero itself. -/
theorem exists_uiSum (hlength : 28 + data.length ≤ maxPacket) :
    ∃ value, uiSum order false source dest data = store order value ∧ value ≤ 65535 ∧ value ≠ 0 ∧
      (wordSum order (udpiphdr order source dest [0, 0] data) + value) % 65535 = 0 := by
  have hempty : (udpiphdr order source dest [0, 0] data).length ≤ maxPacket := by
    rwa [length_udpiphdr rfl]
  have hsum := @toNat_inCksum order _ hempty
  have hiff := @inCksum_eq_zero_iff order _ hempty
  have hcomplement := add_complement (wordSum order (udpiphdr order source dest [0, 0] data))
  rw [uiSum, if_neg Bool.false_ne_true]
  by_cases hzero : inCksum order (udpiphdr order source dest [0, 0] data) = 0
  · refine ⟨65535, by simp only [if_pos hzero], Nat.le_refl _, by decide, ?_⟩
    have hverifies := (hiff.mp hzero).1
    omega
  · refine ⟨_, by simp only [if_neg hzero], ?_, fun hnone ↦ hzero (BitVec.eq_of_toNat_eq hnone), ?_⟩
    · omega
    · rw [hsum]
      exact hcomplement.1

theorem store_ne_zeros {value : ℕ} (hle : value ≤ 65535) (hne : value ≠ 0) :
    store order value ≠ [0, 0] := by
  intro heq
  have hvalue := congrArg (wordSum order) heq
  rw [wordSum_store hle, wordSum_zeros] at hvalue
  exact hne hvalue

theorem uiSum_eq_zeros_iff (zerosum : Bool) :
    uiSum order zerosum source dest data = [0, 0] ↔ zerosum = true := by
  rw [uiSum]
  by_cases hzerosum : zerosum = true
  · rw [if_pos hzerosum]
    exact ⟨fun _ ↦ hzerosum, fun _ ↦ rfl⟩
  · rw [if_neg hzerosum]
    refine ⟨fun heq ↦ absurd heq (store_ne_zeros ?_ ?_), fun hset ↦ absurd hset hzerosum⟩
    · split_ifs
      · exact Nat.le_refl _
      · exact Nat.le_of_lt_succ (BitVec.isLt _)
    · split_ifs with hsum
      · decide
      · exact fun hnone ↦ hsum (BitVec.eq_of_toNat_eq hnone)

/-- The pseudoheader and the datagram that a receiver sums have the words that the sender summed. -/
theorem verifies_udpPart {receiver : Order} {value : ℕ} (hlength : 28 + data.length ≤ maxPacket)
    (hle : value ≤ 65535) (hne : value ≠ 0)
    (hverifies : (wordSum order (udpiphdr order source dest [0, 0] data) + value) % 65535 = 0) :
    inCksum receiver (source.sinAddr ++ (dest.sinAddr ++ ([0, ipprotoUdp] ++ uiLen order data.length)) ++
      udpPart order source dest (store order value) data) = 0 := by
  have hpacket : (source.sinAddr ++ (dest.sinAddr ++ ([0, ipprotoUdp] ++ uiLen order data.length)) ++
      udpPart order source dest (store order value) data).length ≤ maxPacket := by
    simp only [udpPart, List.length_append, List.length_cons, List.length_nil, length_uiLen, length_store,
      source.length_sinAddr, source.length_sinPort, dest.length_sinAddr, dest.length_sinPort]
    omega
  have hsum : wordSum order (source.sinAddr ++ (dest.sinAddr ++ ([0, ipprotoUdp] ++
      uiLen order data.length)) ++ udpPart order source dest (store order value) data) =
        wordSum order (udpiphdr order source dest [0, 0] data) + value := by
    have hproto : ([0, ipprotoUdp] : List Byte).length % 2 = 0 := rfl
    rw [← wordSum_udpiphdr_store hle, wordSum_udpiphdr, List.append_assoc, List.append_assoc,
      List.append_assoc, wordSum_append (by rw [source.length_sinAddr]),
      wordSum_append (by rw [dest.length_sinAddr]), wordSum_append hproto,
      wordSum_append (by rw [length_uiLen])]
    omega
  rw [inCksum_order hpacket receiver order, inCksum_eq_zero_iff hpacket, hsum]
  exact ⟨hverifies, by omega⟩

/-- Assumes: a datagram that is not too long. A receiver of either byte order accepts what `udp_write`
sends, and the datagram is without a checksum only if `zerosum` is set. -/
theorem udpWrite_accepted (sender receiver : Order) (zerosum : Bool) (source dest : SockaddrIn)
    (data : List Byte) (hlength : 28 + data.length ≤ maxPacket) :
    accepts receiver (udpWrite sender zerosum source dest data) = true ∧
      (((udpWrite sender zerosum source dest data).drop 26).take 2 = [0, 0] ↔ zerosum = true) := by
  obtain ⟨hpseudo, hudp, hsum⟩ := @pseudoHeader_udpWrite sender source dest data zerosum
  rw [accepts, hpseudo, hudp, hsum]
  refine ⟨?_, uiSum_eq_zeros_iff zerosum⟩
  rw [Bool.or_eq_true, decide_eq_true_eq, decide_eq_true_eq]
  cases zerosum with
  | true => exact .inl rfl
  | false =>
    obtain ⟨value, hvalue, hle, hne, hverifies⟩ := @exists_uiSum sender source dest data hlength
    rw [hvalue]
    exact .inr (verifies_udpPart hlength hle hne hverifies)

theorem udpWrite_accepted_odd :
    accepts .big (udpWrite .little false ⟨[127, 0, 0, 1], [0, 53], rfl, rfl⟩
      ⟨[10, 0, 0, 2], [4, 210], rfl, rfl⟩ [1, 2, 3]) = true :=
  (udpWrite_accepted .little .big false _ _ _ (by decide)).1

end CppLearn.Unp.Checksum
