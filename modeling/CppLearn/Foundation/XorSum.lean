import Mathlib.Data.List.Perm.Basic
import Mathlib.Data.Nat.Bitwise
import Mathlib.Data.Nat.Factorization.Basic

/-!
# Sums without carry

The bits of numbers are added without carry, so that equal numbers cancel wherever they stand. Two
lists that differ in one number each have a common sum in which those two numbers remain
(`xorSum_filter_append`), and so has each class of the numbers.

The lowest bit in which two numbers differ is the lowest one of their sum (`exists_lowestBit`). It
tells the two apart.
-/

set_option autoImplicit false
set_option relaxedAutoImplicit false

namespace CppLearn.Foundation.XorSum

variable {nums nums' common : List ℕ} {num first second : ℕ}

def xorSum (nums : List ℕ) : ℕ := nums.foldl (· ^^^ ·) 0

theorem foldl_xor (nums : List ℕ) (start : ℕ) :
    nums.foldl (· ^^^ ·) start = start ^^^ xorSum nums := by
  induction nums generalizing start with
  | nil => exact (Nat.xor_zero start).symm
  | cons num nums ih =>
    rw [xorSum, List.foldl_cons, List.foldl_cons, ih, ih (0 ^^^ num), Nat.zero_xor, Nat.xor_assoc]

theorem xorSum_append (nums nums' : List ℕ) :
    xorSum (nums ++ nums') = xorSum nums ^^^ xorSum nums' := by
  rw [xorSum, List.foldl_append, foldl_xor]
  rfl

theorem xorSum_cons (num : ℕ) (nums : List ℕ) : xorSum (num :: nums) = num ^^^ xorSum nums := by
  rw [xorSum, List.foldl_cons, Nat.zero_xor, foldl_xor]

theorem xorSum_perm (hperm : nums.Perm nums') : xorSum nums = xorSum nums' := by
  induction hperm with
  | nil => rfl
  | cons num _ ih => rw [xorSum_cons, xorSum_cons, ih]
  | swap first second nums =>
    rw [xorSum_cons, xorSum_cons, xorSum_cons, xorSum_cons, ← Nat.xor_assoc, ← Nat.xor_assoc,
      Nat.xor_comm first]
  | trans _ _ ih ih' => rw [ih, ih']

/-- What the lists have in common cancels, in each class of the numbers. -/
theorem xorSum_filter_append (hperm : nums.Perm (first :: common))
    (hperm' : nums'.Perm (second :: common)) (inClass : ℕ → Bool) :
    xorSum ((nums ++ nums').filter inClass) =
      (if inClass first then first else 0) ^^^ if inClass second then second else 0 := by
  have hfilter (num : ℕ) : xorSum ((num :: common).filter inClass) =
      (if inClass num then num else 0) ^^^ xorSum (common.filter inClass) := by
    rw [List.filter_cons]
    split
    · rw [xorSum_cons]
    · rw [Nat.zero_xor]
  rw [List.filter_append, xorSum_append, xorSum_perm (hperm.filter inClass),
    xorSum_perm (hperm'.filter inClass), hfilter, hfilter, Nat.xor_assoc,
    Nat.xor_comm _ (xorSum _), ← Nat.xor_assoc (xorSum _), Nat.xor_self, Nat.zero_xor]

/-! ### The lowest bit -/

/-- All bits but those of the number below it. -/
def lowestBit (num : ℕ) : ℕ := Nat.ldiff num (num - 1)

/-- One bit of the number is left. -/
theorem exists_lowestBit (hnum : num ≠ 0) :
    ∃ place, lowestBit num = 2 ^ place ∧ num.testBit place = true := by
  obtain ⟨place, odd, ⟨half, rfl⟩, rfl⟩ := Nat.exists_eq_two_pow_mul_odd hnum
  have hpos : 0 < 2 ^ place := Nat.two_pow_pos place
  have hbits (other : ℕ) : (2 ^ place * (2 * half + 1)).testBit other =
      (decide (place ≤ other) && (2 * half + 1).testBit (other - place)) := by
    rw [Nat.testBit_two_pow_mul]
  have hpred : 2 ^ place * (2 * half + 1) - 1 = 2 ^ place * (2 * half) + (2 ^ place - 1) := by
    rw [Nat.mul_succ]
    omega
  have hbitsPred (other : ℕ) : (2 ^ place * (2 * half + 1) - 1).testBit other =
      if other < place then (2 ^ place - 1).testBit other
      else (2 * half).testBit (other - place) := by
    rw [hpred]
    exact Nat.testBit_two_pow_mul_add _ (by omega) other
  refine ⟨place, Nat.eq_of_testBit_eq fun other ↦ ?_, ?_⟩
  · rw [lowestBit, Nat.testBit_ldiff, hbits, hbitsPred, Nat.testBit_two_pow]
    rcases lt_trichotomy other place with hlt | rfl | hgt
    · rw [decide_eq_false (by omega), Bool.false_and, Bool.false_and,
        decide_eq_false (Nat.ne_of_gt hlt)]
    · rw [if_neg (lt_irrefl _), Nat.sub_self, decide_eq_true le_rfl, decide_eq_true rfl]
      simp
    · obtain ⟨more, rfl⟩ := Nat.exists_eq_add_of_lt hgt
      have hmore : place + more + 1 - place = more + 1 := by omega
      rw [if_neg (by omega), decide_eq_true (by omega), decide_eq_false (by omega), hmore,
        Nat.testBit_succ, Nat.testBit_succ, show (2 * half + 1) / 2 = half by omega,
        Nat.mul_div_cancel_left half two_pos, Bool.true_and, Bool.and_not_self]
  · rw [hbits, Nat.sub_self, decide_eq_true le_rfl]
    simp

/-- A bit of a sum is in one of the numbers only. -/
theorem and_lowestBit (hne : first ≠ second) :
    first &&& lowestBit (first ^^^ second) ≠ 0 ↔ second &&& lowestBit (first ^^^ second) = 0 := by
  obtain ⟨place, hbit, htest⟩ := exists_lowestBit (Nat.xor_ne_zero_iff.mpr hne)
  have hpos : 0 < 2 ^ place := Nat.two_pow_pos place
  rw [Nat.testBit_xor] at htest
  have hand (num : ℕ) : num &&& 2 ^ place = 0 ↔ num.testBit place = false := by
    rw [Nat.and_two_pow]
    cases num.testBit place with
    | false => simp only [Bool.toNat_false, Nat.zero_mul]
    | true => simp only [Bool.toNat_true, Nat.one_mul, Bool.true_eq_false, hpos.ne']
  rw [hbit, Ne, hand, hand]
  revert htest
  cases first.testBit place <;> cases second.testBit place <;> decide

end CppLearn.Foundation.XorSum
