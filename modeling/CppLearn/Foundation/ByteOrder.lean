import Mathlib.Data.BitVec
import Mathlib.Tactic.Ring

/-!
# Bytes of machine words

A word in memory is a list of bytes, and the two byte orders are the two directions in which that
list is read. `leBytes` and `ofLeBytes` write and read a number least significant byte first; they
are inverse to each other (`ofLeBytes_leBytes`, `leBytes_ofLeBytes`). `byteSwap` reads the bytes of
a word in the other order, which is what the conversion between host and network order does on a
little-endian host.
-/

set_option autoImplicit false
set_option relaxedAutoImplicit false

namespace CppLearn.Foundation.ByteOrder

abbrev Byte := BitVec 8

/-- The lowest `count` bytes of a number, least significant first. -/
def leBytes : ℕ → ℕ → List Byte
  | 0, _ => []
  | count + 1, value => BitVec.ofNat 8 value :: leBytes count (value / 256)

/-- The number whose bytes are given, least significant first. -/
def ofLeBytes : List Byte → ℕ
  | [] => 0
  | byte :: bytes => byte.toNat + 256 * ofLeBytes bytes

@[simp] theorem length_leBytes (count value : ℕ) : (leBytes count value).length = count := by
  induction count generalizing value with
  | zero => rfl
  | succ count ih => simp [leBytes, ih]

theorem ofLeBytes_leBytes (count value : ℕ) :
    ofLeBytes (leBytes count value) = value % 256 ^ count := by
  induction count generalizing value with
  | zero => simp [leBytes, ofLeBytes, Nat.mod_one]
  | succ count ih =>
    have hpow : 256 ^ (count + 1) = 256 * 256 ^ count := Nat.pow_succ'
    rw [leBytes, ofLeBytes, ih, BitVec.toNat_ofNat, hpow, Nat.mod_mul]

theorem ofLeBytes_lt (bytes : List Byte) : ofLeBytes bytes < 256 ^ bytes.length := by
  induction bytes with
  | nil => simp [ofLeBytes]
  | cons byte bytes ih =>
    have hbyte := byte.isLt
    simp only [ofLeBytes, List.length_cons, Nat.pow_succ]
    omega

theorem leBytes_ofLeBytes (bytes : List Byte) :
    leBytes bytes.length (ofLeBytes bytes) = bytes := by
  induction bytes with
  | nil => rfl
  | cons byte bytes ih =>
    have hbyte := byte.isLt
    have hhead : BitVec.ofNat 8 (byte.toNat + 256 * ofLeBytes bytes) = byte := by
      apply BitVec.eq_of_toNat_eq
      rw [BitVec.toNat_ofNat]
      omega
    have htail : (byte.toNat + 256 * ofLeBytes bytes) / 256 = ofLeBytes bytes := by omega
    simp only [List.length_cons, ofLeBytes, leBytes, hhead, htail, ih]

/-- Two numbers of the same number of bytes are equal when their bytes are. -/
theorem eq_of_ofLeBytes_eq {first second : List Byte} (hlength : first.length = second.length)
    (heq : ofLeBytes first = ofLeBytes second) : first = second := by
  rw [← leBytes_ofLeBytes first, ← leBytes_ofLeBytes second, hlength, heq]

/-- The word read from its bytes in memory on a little-endian host. -/
def wordOfBytes (width : ℕ) (bytes : List Byte) : BitVec width :=
  BitVec.ofNat width (ofLeBytes bytes)

/-- The bytes of a word in memory on a little-endian host. -/
def bytesOfWord {width : ℕ} (count : ℕ) (word : BitVec width) : List Byte :=
  leBytes count word.toNat

@[simp] theorem length_bytesOfWord {width : ℕ} (count : ℕ) (word : BitVec width) :
    (bytesOfWord count word).length = count :=
  length_leBytes _ _

/-- Reading back a word whose bytes were written whole. -/
theorem wordOfBytes_bytesOfWord {width count : ℕ} (hwidth : 2 ^ width = 256 ^ count)
    (word : BitVec width) : wordOfBytes width (bytesOfWord count word) = word := by
  apply BitVec.eq_of_toNat_eq
  rw [wordOfBytes, bytesOfWord, ofLeBytes_leBytes, BitVec.toNat_ofNat, ← hwidth]
  simp

/-- Writing back the bytes of a word that was read from as many bytes. -/
theorem bytesOfWord_wordOfBytes {width : ℕ} {bytes : List Byte}
    (hwidth : 2 ^ width = 256 ^ bytes.length) :
    bytesOfWord bytes.length (wordOfBytes width bytes) = bytes := by
  have hlt := ofLeBytes_lt bytes
  rw [bytesOfWord, wordOfBytes, BitVec.toNat_ofNat, hwidth, Nat.mod_eq_of_lt hlt,
    leBytes_ofLeBytes]

/-- The word whose bytes in memory are those of the given one in the opposite order. -/
def byteSwap {width : ℕ} (count : ℕ) (word : BitVec width) : BitVec width :=
  wordOfBytes width (bytesOfWord count word).reverse

/-- Swapping the bytes of a word read from memory reads them in the opposite order. -/
theorem byteSwap_wordOfBytes {width : ℕ} {bytes : List Byte}
    (hwidth : 2 ^ width = 256 ^ bytes.length) :
    byteSwap bytes.length (wordOfBytes width bytes) = wordOfBytes width bytes.reverse := by
  rw [byteSwap, bytesOfWord_wordOfBytes hwidth]

/-- `ntohs` and `ntohl` on a little-endian host. -/
def ntohs (word : BitVec 16) : BitVec 16 := byteSwap 2 word

@[inherit_doc ntohs] def ntohl (word : BitVec 32) : BitVec 32 := byteSwap 4 word

/-- A word of two bytes in network order. -/
theorem toNat_ntohs_wordOfBytes (high low : Byte) :
    (ntohs (wordOfBytes 16 [high, low])).toNat = 256 * high.toNat + low.toNat := by
  have hhigh := high.isLt
  have hlow := low.isLt
  have hwidth : 2 ^ 16 = 256 ^ [high, low].length := by simp
  have hswap : ntohs (wordOfBytes 16 [high, low]) = wordOfBytes 16 [low, high] :=
    byteSwap_wordOfBytes hwidth
  rw [hswap, wordOfBytes, BitVec.toNat_ofNat]
  simp only [ofLeBytes]
  omega

/-- The number of two bytes in network order. -/
def bigEndian16 (bytes : List Byte) (offset : ℕ) : ℕ :=
  256 * (bytes.getD offset 0).toNat + (bytes.getD (offset + 1) 0).toNat

/-- A word of two bytes in network order, in the bytes around it. -/
theorem toNat_ntohs_drop {bytes : List Byte} {offset : ℕ} (hlength : offset + 2 ≤ bytes.length) :
    (ntohs (wordOfBytes 16 ((bytes.drop offset).take 2))).toNat = bigEndian16 bytes offset := by
  have hhigh : offset < bytes.length := by omega
  have hlow : offset + 1 < bytes.length := by omega
  have hdrop : (bytes.drop offset).take 2 = [bytes[offset], bytes[offset + 1]] := by
    rw [List.drop_eq_getElem_cons hhigh, List.drop_eq_getElem_cons hlow]
    rfl
  rw [hdrop, toNat_ntohs_wordOfBytes, bigEndian16, List.getD_eq_getElem?_getD,
    List.getD_eq_getElem?_getD, List.getElem?_eq_getElem hhigh, List.getElem?_eq_getElem hlow]
  rfl

/-! ### Halves of a byte -/

theorem toNat_and_low (byte : Byte) : (byte &&& 0x0f).toNat = byte.toNat % 16 :=
  Nat.and_two_pow_sub_one_eq_mod byte.toNat 4

theorem toNat_and_high (byte : Byte) : (byte &&& 0xf0).toNat = 16 * (byte.toNat / 16) := by
  have hall : ∀ value < 256, value &&& 240 = 16 * (value / 16) := by decide +kernel
  exact hall byte.toNat byte.isLt

end CppLearn.Foundation.ByteOrder
