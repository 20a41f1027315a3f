import Mathlib.Data.Nat.ModEq
import Mathlib.Tactic.Common
import Mathlib.Tactic.Linarith

/-!
# Free-running counters of a fixed width

A ring buffer numbers its operations with two counters that only grow and keeps them in machine
words, so the words wrap while the counters do not. The lemmas here recover the counters from the
words: `sub_toNat_of_counters` gives the distance of two counters from the difference of their
words, `free_eq_zero_iff` the fullness test, and `and_mask_toNat` the slot of a counter in a ring
whose size is a power of two. `slot_ne_of_lt` says that counters less than one lap apart have
different slots.
-/

set_option autoImplicit false
set_option relaxedAutoImplicit false

namespace CppLearn.Foundation.WrappingIndex

variable {width : ℕ}

/-- The difference of two wrapped counters is their true distance, as long as that distance fits in
a word. -/
theorem sub_toNat_of_counters {older newer : ℕ} (hle : older ≤ newer)
    (hlt : newer - older < 2 ^ width) :
    (BitVec.ofNat width newer - BitVec.ofNat width older).toNat = newer - older := by
  obtain ⟨distance, rfl⟩ := Nat.exists_eq_add_of_le hle
  have hdistance : distance < 2 ^ width := by omega
  have hsplit : BitVec.ofNat width (older + distance) =
      BitVec.ofNat width older + BitVec.ofNat width distance := by
    rw [BitVec.ofNat_add]
  rw [hsplit, BitVec.add_comm, BitVec.add_sub_cancel, BitVec.toNat_ofNat,
    Nat.mod_eq_of_lt hdistance, Nat.add_sub_cancel_left]

/-- Two wrapped counters are equal exactly when the counters are, as long as their distance fits in
a word. -/
theorem ofNat_eq_ofNat_iff {older newer : ℕ} (hle : older ≤ newer)
    (hlt : newer - older < 2 ^ width) :
    BitVec.ofNat width older = BitVec.ofNat width newer ↔ older = newer := by
  constructor
  · intro heq
    have hdistance := sub_toNat_of_counters hle hlt
    rw [heq, BitVec.sub_self, BitVec.toNat_zero] at hdistance
    omega
  · rintro rfl
    rfl

/-- The number of entries read off the two words is zero exactly when the consumer has caught up
with the producer. -/
theorem entries_eq_zero_iff {consumed produced : ℕ} (hle : consumed ≤ produced)
    (hlt : produced - consumed < 2 ^ width) :
    BitVec.ofNat width produced - BitVec.ofNat width consumed = 0 ↔ consumed = produced := by
  rw [← ofNat_eq_ofNat_iff hle hlt]
  constructor
  · intro hzero
    rw [← BitVec.sub_add_cancel (BitVec.ofNat width produced) (BitVec.ofNat width consumed), hzero]
    simp
  · intro heq
    rw [heq, BitVec.sub_self]
    rfl

/-- The number of free entries read off the two words is zero exactly when the producer is one lap
ahead of the consumer. -/
theorem free_eq_zero_iff {size consumed produced : ℕ} (hsize : size < 2 ^ width)
    (hle : consumed ≤ produced) (hlap : produced ≤ consumed + size) :
    BitVec.ofNat width size + BitVec.ofNat width consumed - BitVec.ofNat width produced = 0 ↔
      produced = consumed + size := by
  rw [← BitVec.ofNat_add, Nat.add_comm size consumed]
  rw [entries_eq_zero_iff hlap (by omega)]

/-- Masking a wrapped counter gives the counter modulo the size of the ring. -/
theorem and_mask_toNat {exponent : ℕ} {mask : BitVec width} (hexponent : exponent ≤ width)
    (hmask : mask.toNat = 2 ^ exponent - 1) (counter : ℕ) :
    (BitVec.ofNat width counter &&& mask).toNat = counter % 2 ^ exponent := by
  rw [BitVec.toNat_and, hmask, Nat.and_two_pow_sub_one_eq_mod, BitVec.toNat_ofNat]
  exact Nat.mod_mod_of_dvd counter (Nat.pow_dvd_pow 2 hexponent)

/-- Counters less than one lap apart occupy different slots. -/
theorem slot_ne_of_lt {size older newer : ℕ} (hlt : older < newer) (hlap : newer < older + size) :
    older % size ≠ newer % size := by
  intro heq
  have hdvd : size ∣ newer - older := (Nat.modEq_iff_dvd' hlt.le).mp heq
  have hle := Nat.le_of_dvd (by omega) hdvd
  omega

end CppLearn.Foundation.WrappingIndex
