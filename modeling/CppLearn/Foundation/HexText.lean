import CppLearn.Foundation.InternetAddress

/-!
# Numbers written in hexadecimal

`hexadecimal` is the digits that `printf` writes for `%x`, and `hexValue` what a reader makes of digits
that it takes in one by one. `hexValue_hexadecimal` is the round trip. A value never falls while its
digits are read (`le_hexValue`), so a bound that it meets at the end it has met all along.
-/

set_option autoImplicit false
set_option relaxedAutoImplicit false

namespace CppLearn.Foundation.HexText

open DecimalText InternetAddress

/-- The hexadecimal digits of a number. -/
def hexadecimal (value : ℕ) : Text := Nat.toDigits 16 value

/-- The number whose digits are those of one number and then those of a text. -/
def hexValue (value : ℕ) (digits : Text) : ℕ :=
  digits.foldl (fun value char ↦ 16 * value + (hexDigit char).getD 0) value

/-- A text of hexadecimal digits only. -/
def IsHex (text : Text) : Prop := ∀ char ∈ text, (hexDigit char).isSome = true

theorem hexDigit_lt {char : Char} {digit : ℕ} (hdigit : hexDigit char = some digit) : digit < 16 := by
  unfold hexDigit at hdigit
  split_ifs at hdigit with hdecimal hlower hupper
  all_goals
    simp only [Option.some.injEq] at hdigit
    subst hdigit
  · have hle : char.toNat ≤ 57 := (Char.isDigit_iff_toNat.mp hdecimal).2
    omega
  · have hle : char.toNat ≤ 102 := hlower.2
    omega
  · have hle : char.toNat ≤ 70 := hupper.2
    omega

theorem hexDigit_digitChar {digit : ℕ} (hlt : digit < 16) :
    hexDigit digit.digitChar = some digit := by
  interval_cases digit <;> rfl

theorem hexValue_append (value : ℕ) (first second : Text) :
    hexValue value (first ++ second) = hexValue (hexValue value first) second :=
  List.foldl_append

/-- A value does not fall while its digits are read. -/
theorem le_hexValue (value : ℕ) (digits : Text) : value ≤ hexValue value digits := by
  induction digits generalizing value with
  | nil => exact Nat.le_refl value
  | cons char digits ih =>
    have hrest := ih (16 * value + (hexDigit char).getD 0)
    rw [hexValue, List.foldl_cons, ← hexValue]
    omega

/-- So many digits make no more than so much. -/
theorem hexValue_lt (digits : Text) : hexValue 0 digits < 16 ^ digits.length := by
  induction digits using List.reverseRecOn with
  | nil => exact Nat.one_pos
  | append_singleton digits char ih =>
    have hdigit : (hexDigit char).getD 0 < 16 := by
      cases hchar : hexDigit char with
      | none => exact Nat.succ_pos 15
      | some digit => exact hexDigit_lt hchar
    rw [hexValue_append, List.length_append, List.length_singleton, Nat.pow_succ]
    simp only [hexValue, List.foldl_cons, List.foldl_nil] at ih ⊢
    omega

theorem isHex_hexadecimal (value : ℕ) : IsHex (hexadecimal value) := by
  induction value using Nat.base_induction 16 (by decide) with
  | single value hlt =>
    intro char hchar
    rw [hexadecimal, Nat.toDigits_of_lt_base hlt, List.mem_singleton] at hchar
    rw [hchar, hexDigit_digitChar hlt]
    rfl
  | digit value last hlast hpos ih =>
    intro char hchar
    rw [hexadecimal, ← Nat.toDigits_append_toDigits (by decide) hpos hlast,
      Nat.toDigits_of_lt_base hlast, List.mem_append, List.mem_singleton] at hchar
    rcases hchar with hfront | rfl
    · exact ih char hfront
    · rw [hexDigit_digitChar hlast]
      rfl

/-- A number written in hexadecimal is read back. -/
theorem hexValue_hexadecimal (value : ℕ) : hexValue 0 (hexadecimal value) = value := by
  induction value using Nat.base_induction 16 (by decide) with
  | single value hlt =>
    rw [hexadecimal, Nat.toDigits_of_lt_base hlt]
    simp only [hexValue, List.foldl_cons, List.foldl_nil, hexDigit_digitChar hlt, Option.getD_some]
    omega
  | digit value last hlast hpos ih =>
    rw [hexadecimal, ← Nat.toDigits_append_toDigits (by decide) hpos hlast, hexValue_append,
      ← hexadecimal, ih, Nat.toDigits_of_lt_base hlast]
    simp only [hexValue, List.foldl_cons, List.foldl_nil, hexDigit_digitChar hlast, Option.getD_some]

theorem hexadecimal_ne_nil (value : ℕ) : hexadecimal value ≠ [] := Nat.toDigits_ne_nil

theorem length_hexadecimal_le {value count : ℕ} (hcount : 0 < count) (hlt : value < 16 ^ count) :
    (hexadecimal value).length ≤ count :=
  (Nat.length_toDigits_le_iff (by decide) hcount).mpr hlt

/-- Decimal digits are hexadecimal digits. -/
theorem isHex_decimal (value : ℕ) : IsHex (decimal value) := by
  intro char hchar
  rw [hexDigit, if_pos (isDigit_of_mem_decimal hchar)]
  rfl

end CppLearn.Foundation.HexText
