import Mathlib.Data.List.TakeWhile
import Mathlib.Tactic.IntervalCases
import Mathlib.Data.BitVec

/-!
# Numbers written in decimal

The C library writes an unsigned number as its decimal digits and reads one back as the longest run
of digits at the front of a text. `readDecimal_decimal` is the round trip, whatever follows the
digits, and `decimal_ne_zero_head` says that no digits but those of zero begin with a zero, so that
a reader of base 0 takes them for decimal too.
-/

set_option autoImplicit false
set_option relaxedAutoImplicit false

namespace CppLearn.Foundation.DecimalText

/-- A C string, up to its terminating null character. -/
abbrev Text := List Char

/-- Texts are compared by their characters. -/
instance instLawfulBEqText : LawfulBEq Text := List.instLawfulBEq

/-- The decimal digits of a number. -/
def decimal (value : ℕ) : Text := Nat.toDigits 10 value

/-- The number at the front of a text and the text after it. -/
def readDecimal (text : Text) : ℕ × Text :=
  (Nat.ofDigitChars 10 (text.takeWhile Char.isDigit) 0, text.dropWhile Char.isDigit)

/-- The text does not begin with a digit. -/
def EndsDigits (text : Text) : Prop := ∀ char ∈ text.head?, char.isDigit = false

theorem endsDigits_nil : EndsDigits [] := fun _ h ↦ by simp at h

theorem endsDigits_cons {char : Char} (text : Text) (hchar : char.isDigit = false) :
    EndsDigits (char :: text) := by
  intro other hother
  cases hother
  exact hchar

theorem isDigit_of_mem_decimal {char : Char} {value : ℕ} (hchar : char ∈ decimal value) :
    char.isDigit = true :=
  Nat.isDigit_of_mem_toDigits (by decide) (by decide) hchar

/-- The run of digits at the front of a text that begins with a number is that number. -/
theorem takeWhile_decimal_append (value : ℕ) {text : Text} (htext : EndsDigits text) :
    (decimal value ++ text).takeWhile Char.isDigit = decimal value ∧
      (decimal value ++ text).dropWhile Char.isDigit = text := by
  have hdigits : ∀ char ∈ decimal value, char.isDigit = true := fun _ ↦ isDigit_of_mem_decimal
  have htail : text.takeWhile Char.isDigit = [] ∧ text.dropWhile Char.isDigit = text := by
    rcases text with _ | ⟨char, text⟩
    · exact ⟨rfl, rfl⟩
    · have hchar := htext char rfl
      simp [hchar]
  rw [List.takeWhile_append_of_pos hdigits, List.dropWhile_append_of_pos hdigits, htail.1, htail.2,
    List.append_nil]
  exact ⟨rfl, rfl⟩

/-- A number written in decimal is read back, and the text after it is left. -/
theorem readDecimal_decimal (value : ℕ) {text : Text} (htext : EndsDigits text) :
    readDecimal (decimal value ++ text) = (value, text) := by
  obtain ⟨htake, hdrop⟩ := takeWhile_decimal_append value htext
  rw [readDecimal, htake, hdrop, decimal, Nat.ofDigitChars_ten_toDigits]

/-- Only zero is written with a leading zero, and then as nothing else. -/
theorem decimal_head (value : ℕ) :
    ∃ char digits, decimal value = char :: digits ∧ char.isDigit = true ∧
      (char = '0' → value = 0 ∧ digits = []) := by
  induction value using Nat.base_induction 10 (by decide) with
  | single value hlt =>
    refine ⟨value.digitChar, [], Nat.toDigits_of_lt_base hlt, ?_, ?_⟩
    · interval_cases value <;> decide
    · intro hzero
      interval_cases value <;> simp_all
  | digit value last hlast hpos ih =>
    obtain ⟨char, digits, hdecimal, hdigit, hzero⟩ := ih
    refine ⟨char, digits ++ Nat.toDigits 10 last, ?_, hdigit, fun hchar ↦ ?_⟩
    · rw [decimal, ← Nat.toDigits_append_toDigits (by decide) hpos hlast, ← decimal, hdecimal,
        List.cons_append]
    · exact absurd (hzero hchar).1 (Nat.pos_iff_ne_zero.mp hpos)

/-- Without its last digits a number is another one. -/
theorem readDecimal_take_lt {value size : ℕ} (hpos : 0 < size)
    (hsize : size < (decimal value).length) :
    (readDecimal ((decimal value).take size)).1 < value := by
  have hdigits : ((decimal value).take size).takeWhile Char.isDigit = (decimal value).take size :=
    List.takeWhile_eq_self_iff.mpr fun _ hchar ↦
      isDigit_of_mem_decimal (List.mem_of_mem_take hchar)
  have hvalue : value = 10 ^ ((decimal value).drop size).length *
      (readDecimal ((decimal value).take size)).1 +
        Nat.ofDigitChars 10 ((decimal value).drop size) 0 := by
    rw [readDecimal, hdigits, ← Nat.ofDigitChars_eq_ofDigitChars_zero, ← Nat.ofDigitChars_append,
      List.take_append_drop, decimal, Nat.ofDigitChars_ten_toDigits]
  have hpow : 10 ≤ 10 ^ ((decimal value).drop size).length :=
    Nat.le_self_pow (by rw [List.length_drop]; omega) 10
  have hnonzero : value ≠ 0 := by
    rintro rfl
    rw [show decimal 0 = ['0'] from rfl, List.length_singleton] at hsize
    omega
  have hle := Nat.mul_le_mul_right (readDecimal ((decimal value).take size)).1 hpow
  omega

/-! ### Readers of the C library -/

/-- `isspace` in the C locale. -/
def isSpace (char : Char) : Bool := char == ' ' || (9 ≤ char.toNat && char.toNat ≤ 13)

/-- `strtol` in base 10, without the end pointer. -/
def strtol (text : Text) : ℤ :=
  let value : ℤ :=
    match text.dropWhile isSpace with
    | '-' :: digits => -(readDecimal digits).1
    | '+' :: digits => (readDecimal digits).1
    | digits => (readDecimal digits).1
  max (-2 ^ 63) (min (2 ^ 63 - 1) value)

/-- `atoi`, which cuts the result of `strtol` to an `int`. -/
def atoi (text : Text) : BitVec 32 := BitVec.ofInt 32 (strtol text)

example : atoi " -80x".toList = -80 := by decide

end CppLearn.Foundation.DecimalText
