import CppLearn.Foundation.ByteOrder

/-!
# Sums of words with an end-around carry

The words of 16 bits in a packet are added in one's complement: a carry out of the top is added at the
bottom. Up to the two zeros this is addition modulo `2 ^ 16 - 1`, so that the sum can be taken in any
order, with the carries added at the end (`fold_eq_reduce`), and by hosts of either byte order: the sum
of the words with their bytes swapped is the sum with its bytes swapped (`store_complement_reduce`).
-/

set_option autoImplicit false
set_option relaxedAutoImplicit false

namespace CppLearn.Foundation.OnesComplement

open ByteOrder

/-! ### Reduction -/

/-- The sum of 16 bits that a sum of words is in one's complement. Only a sum of zeros is zero. -/
def reduce (sum : ℕ) : ℕ := if sum = 0 then 0 else (sum - 1) % 65535 + 1

theorem reduce_le (sum : ℕ) : reduce sum ≤ 65535 := by
  rw [reduce]
  split_ifs <;> omega

theorem reduce_mod (sum : ℕ) : reduce sum % 65535 = sum % 65535 := by
  rw [reduce]
  split_ifs <;> omega

theorem reduce_eq_zero_iff (sum : ℕ) : reduce sum = 0 ↔ sum = 0 := by
  by_cases hzero : sum = 0
  · rw [reduce, if_pos hzero]
    exact ⟨fun _ ↦ hzero, fun _ ↦ rfl⟩
  · rw [reduce, if_neg hzero]
    omega

/-- The other zero. -/
theorem reduce_eq_max_iff (sum : ℕ) : reduce sum = 65535 ↔ sum % 65535 = 0 ∧ sum ≠ 0 := by
  have hmod := reduce_mod sum
  have hzero := reduce_eq_zero_iff sum
  have hle := reduce_le sum
  omega

/-- The carries are added at the end, twice. -/
theorem fold_eq_reduce {sum : ℕ} (hlt : sum < 4294967296) :
    (sum / 65536 + sum % 65536 + (sum / 65536 + sum % 65536) / 65536) % 65536 = reduce sum := by
  by_cases hzero : sum = 0
  · subst hzero
    rfl
  · have hfold : (sum / 65536 + sum % 65536) % 65535 = sum % 65535 := by omega
    have hpos : 0 < sum / 65536 + sum % 65536 := by omega
    have hbound : sum / 65536 + sum % 65536 < 131071 := by omega
    generalize sum / 65536 + sum % 65536 = folded at hfold hpos hbound ⊢
    have hpred : (folded - 1) % 65535 = (sum - 1) % 65535 := by omega
    rw [reduce, if_neg hzero]
    by_cases hcarry : folded < 65536
    · have hnone : folded / 65536 = 0 := by omega
      rw [hnone]
      omega
    · have hone : folded / 65536 = 1 := by omega
      rw [hone]
      omega

/-! ### Words in memory -/

/-- The byte orders. -/
inductive Order
  | little
  | big
  deriving DecidableEq

/-- The word of two bytes in memory. -/
def word : Order → Byte → Byte → ℕ
  | .little, first, second => first.toNat + 256 * second.toNat
  | .big, first, second => 256 * first.toNat + second.toNat

/-- The two bytes of a word in memory. -/
def store (order : Order) (value : ℕ) : List Byte :=
  match order with
  | .little => [BitVec.ofNat 8 value, BitVec.ofNat 8 (value / 256)]
  | .big => [BitVec.ofNat 8 (value / 256), BitVec.ofNat 8 value]

/-- The sum of the words in memory. A single byte at the end is the first of a word whose other byte is
zero. -/
def wordSum (order : Order) : List Byte → ℕ
  | first :: second :: bytes => word order first second + wordSum order bytes
  | [byte] => word order byte 0
  | [] => 0

theorem length_store (order : Order) (value : ℕ) : (store order value).length = 2 := by
  cases order <;> rfl

theorem word_le (order : Order) (first second : Byte) : word order first second ≤ 65535 := by
  have hfirst := first.isLt
  have hsecond := second.isLt
  cases order <;> simp only [word] <;> omega

theorem wordSum_store {order : Order} {value : ℕ} (hle : value ≤ 65535) :
    wordSum order (store order value) = value := by
  cases order <;> simp only [store, wordSum, word, BitVec.toNat_ofNat] <;> omega

theorem wordSum_le (order : Order) (bytes : List Byte) :
    wordSum order bytes ≤ 65535 * ((bytes.length + 1) / 2) := by
  induction bytes using wordSum.induct with
  | case1 first second bytes ih =>
    have hle := word_le order first second
    simp only [wordSum, List.length_cons]
    omega
  | case2 byte =>
    have hle := word_le order byte 0
    simp only [wordSum, List.length_singleton]
    omega
  | case3 => exact Nat.le_refl 0

/-- A packet in two parts, the first of them of whole words. -/
theorem wordSum_append {order : Order} {first : List Byte} (heven : first.length % 2 = 0)
    (second : List Byte) :
    wordSum order (first ++ second) = wordSum order first + wordSum order second := by
  induction first using wordSum.induct with
  | case1 one two bytes ih =>
    have hrest : bytes.length % 2 = 0 := by
      simp only [List.length_cons] at heven
      omega
    simp only [List.cons_append, wordSum, ih hrest, Nat.add_assoc]
  | case2 byte => cases heven
  | case3 => simp only [List.nil_append, wordSum, Nat.zero_add]

/-- Swapping the bytes of a word multiplies it by 256. -/
theorem wordSum_big_mod (bytes : List Byte) :
    wordSum .big bytes % 65535 = 256 * wordSum .little bytes % 65535 := by
  induction bytes using wordSum.induct with
  | case1 first second bytes ih =>
    simp only [wordSum, word]
    omega
  | case2 byte =>
    simp only [wordSum, word]
    omega
  | case3 => rfl

theorem wordSum_eq_zero_iff (bytes : List Byte) :
    wordSum .big bytes = 0 ↔ wordSum .little bytes = 0 := by
  induction bytes using wordSum.induct with
  | case1 first second bytes ih =>
    simp only [wordSum, word]
    omega
  | case2 byte =>
    simp only [wordSum, word]
    omega
  | case3 => exact Iff.rfl

/-- Both byte orders store the same bytes for two words that have their bytes swapped. -/
theorem store_swapped {low high : ℕ} (hlow : low < 256) (hhigh : high < 256) :
    store .big (256 * low + high) = store .little (low + 256 * high) := by
  have hfirst : (256 * low + high) / 256 = low := by omega
  have hsecond : (low + 256 * high) / 256 = high := by omega
  simp only [store, List.cons.injEq, and_true, hfirst, hsecond]
  refine ⟨BitVec.eq_of_toNat_eq ?_, BitVec.eq_of_toNat_eq ?_⟩
  · rw [BitVec.toNat_ofNat, BitVec.toNat_ofNat]
    omega
  · rw [BitVec.toNat_ofNat, BitVec.toNat_ofNat]
    omega

/-- The reduced sums have their bytes swapped. -/
theorem reduce_wordSum_big (bytes : List Byte) :
    reduce (wordSum .big bytes) =
      256 * (reduce (wordSum .little bytes) % 256) + reduce (wordSum .little bytes) / 256 := by
  have hmod := wordSum_big_mod bytes
  have hzero := wordSum_eq_zero_iff bytes
  have hbig := reduce_mod (wordSum .big bytes)
  have hlittle := reduce_mod (wordSum .little bytes)
  have hbigZero := reduce_eq_zero_iff (wordSum .big bytes)
  have hlittleZero := reduce_eq_zero_iff (wordSum .little bytes)
  have hbigLe := reduce_le (wordSum .big bytes)
  have hlittleLe := reduce_le (wordSum .little bytes)
  omega

/-- Both byte orders store the same bytes for the complement of the sum. -/
theorem store_complement_reduce (bytes : List Byte) :
    store .big (65535 - reduce (wordSum .big bytes)) =
      store .little (65535 - reduce (wordSum .little bytes)) := by
  have hle := reduce_le (wordSum .little bytes)
  rw [reduce_wordSum_big]
  generalize reduce (wordSum .little bytes) = sum at hle ⊢
  have hlow : sum % 256 < 256 := Nat.mod_lt _ (by decide)
  have hhigh : sum / 256 < 256 := by omega
  have hbig : 65535 - (256 * (sum % 256) + sum / 256) = 256 * (255 - sum % 256) + (255 - sum / 256) := by
    omega
  have hlittle : 65535 - sum = 255 - sum % 256 + 256 * (255 - sum / 256) := by omega
  rw [hbig, hlittle]
  exact store_swapped (by omega) (by omega)

/-- A sum is zero up to the two zeros in both byte orders or in neither. -/
theorem wordSum_verifies_iff (first second : Order) (bytes : List Byte) :
    (wordSum first bytes % 65535 = 0 ∧ wordSum first bytes ≠ 0) ↔
      (wordSum second bytes % 65535 = 0 ∧ wordSum second bytes ≠ 0) := by
  have hmod := wordSum_big_mod bytes
  have hzero := wordSum_eq_zero_iff bytes
  cases first <;> cases second <;> omega

end CppLearn.Foundation.OnesComplement
