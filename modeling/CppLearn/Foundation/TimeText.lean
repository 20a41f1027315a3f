import Mathlib.Tactic.IntervalCases
import CppLearn.Foundation.DecimalText
import CppLearn.Foundation.LocalTime

/-!
# Dates written as text

`strptime` follows the conversions of the C library that fill a broken-down time from numbers: each
reads at most as many digits as its range allows, and where one fails the fields already read stay.
`percentD` and `percent02d` write the numbers of a date. `strptime_date` is the round trip of a date
written without separators, for the years of four digits: a longer year is cut after its fourth
digit.
-/

set_option autoImplicit false
set_option relaxedAutoImplicit false

namespace CppLearn.Foundation.TimeText

open DecimalText LocalTime

/-! ### Reading -/

/-- The digits that `get_number` takes, `count` of them at most: it goes on while another digit can
keep the number within `high`. -/
def readDigits (high : ℕ) : ℕ → ℕ → Text → ℕ × Text
  | 0, value, text => (value, text)
  | _ + 1, value, [] => (value, [])
  | count + 1, value, char :: text =>
    if char.isDigit && value * 10 ≤ high then
      readDigits high count (value * 10 + (char.toNat - '0'.toNat)) text
    else (value, char :: text)

/-- `get_number`: a number between two bounds after any blanks. -/
def getNumber (low high count : ℕ) (text : Text) : Option (ℕ × Text) :=
  match text.dropWhile (· == ' ') with
  | [] => none
  | char :: rest =>
    if char.isDigit then
      let (value, left) := readDigits high count 0 (char :: rest)
      if low ≤ value && value ≤ high then some (value, left) else none
    else none

/-- A numeric conversion of `strptime`: the bounds of its number, the digits it takes at most and
the field it fills. -/
structure Conversion where
  low : ℕ
  high : ℕ
  count : ℕ
  fill : Tm → ℕ → Tm

/-- The conversions for the parts of a date and of a time of day. -/
def conversion : Char → Option Conversion
  | 'Y' => some ⟨0, 9999, 4, fun tm value ↦ { tm with year := value - 1900 }⟩
  | 'm' => some ⟨1, 12, 2, fun tm value ↦ { tm with mon := value - 1 }⟩
  | 'd' => some ⟨1, 31, 2, fun tm value ↦ { tm with mday := value }⟩
  | 'H' => some ⟨0, 23, 2, fun tm value ↦ { tm with hour := value }⟩
  | 'M' => some ⟨0, 59, 2, fun tm value ↦ { tm with min := value }⟩
  | 'S' => some ⟨0, 61, 2, fun tm value ↦ { tm with sec := value }⟩
  | _ => none

/-- `strptime`, for formats of the conversions above: the broken-down time as it is left, whether
or not the whole text was read. -/
def strptime : Text → Text → Tm → Tm
  | [], _, tm => tm
  | '%' :: letter :: format, text, tm =>
    match conversion letter with
    | none => tm
    | some conv =>
      match getNumber conv.low conv.high conv.count text with
      | none => tm
      | some (value, left) => strptime format left (conv.fill tm value)
  | char :: format, text, tm =>
    if isSpace char then strptime format (text.dropWhile isSpace) tm
    else
      match text with
      | [] => tm
      | other :: text => if other = char then strptime format text tm else tm

/-- A broken-down time with every field zero. -/
def zeroTm : Tm := ⟨0, 0, 0, 0, 0, 0⟩

/-! ### Writing -/

/-- The conversion `%d` of `printf`. -/
def percentD (value : ℤ) : Text :=
  if value < 0 then '-' :: decimal value.natAbs else decimal value.natAbs

/-- The conversion `%02d` of `printf`: zeros after the sign, up to a width of two. -/
def percent02d (value : ℤ) : Text :=
  if value < 0 then '-' :: decimal value.natAbs
  else List.replicate (2 - (decimal value.natAbs).length) '0' ++ decimal value.natAbs

/-! ### The round trip of a date -/

theorem digitChar_digit {digit : ℕ} (hdigit : digit < 10) :
    digit.digitChar.isDigit = true ∧ digit.digitChar.toNat - '0'.toNat = digit := by
  interval_cases digit <;> decide

/-- One more digit is taken while another digit fits. -/
theorem readDigits_digit {high count value digit : ℕ} (text : Text) (hdigit : digit < 10)
    (hfits : value * 10 ≤ high) :
    readDigits high (count + 1) value (digit.digitChar :: text) =
      readDigits high count (value * 10 + digit) text := by
  obtain ⟨hchar, hvalue⟩ := digitChar_digit hdigit
  simp only [readDigits, hchar, hvalue, hfits, decide_true, Bool.and_self, if_true]

/-- Assumes: a text that begins with a digit and whose digits give a number within the bounds. -/
theorem getNumber_of_readDigits {low high count digit value : ℕ} {text left : Text}
    (hdigit : digit < 10)
    (hread : readDigits high count 0 (digit.digitChar :: text) = (value, left))
    (hlow : low ≤ value) (hhigh : value ≤ high) :
    getNumber low high count (digit.digitChar :: text) = some (value, left) := by
  have hchar := (digitChar_digit hdigit).1
  have hblank : ¬ (digit.digitChar == ' ') = true := by
    intro hblank
    rw [beq_iff_eq.mp hblank] at hchar
    exact absurd hchar (by decide)
  have hdrop : (digit.digitChar :: text).dropWhile (· == ' ') = digit.digitChar :: text := by
    rw [List.dropWhile_cons, if_neg hblank]
  simp only [getNumber, hdrop, hchar, hread, hlow, hhigh, decide_true, Bool.and_self, if_true]

/-- A number of two digits written with `%02d`. -/
theorem percent02d_of_lt {value : ℕ} (hvalue : value < 100) :
    percent02d value = [(value / 10).digitChar, (value % 10).digitChar] := by
  have hall : ∀ number < 100, percent02d (number : ℕ) =
      [(number / 10).digitChar, (number % 10).digitChar] := by
    decide
  exact hall value hvalue

/-- A year of four digits written with `%d`. -/
theorem percentD_year {year : ℕ} (hlow : 1000 ≤ year) (hhigh : year < 10000) :
    percentD year = [(year / 1000).digitChar, (year / 100 % 10).digitChar,
      (year / 10 % 10).digitChar, (year % 10).digitChar] := by
  have hdigits : ∀ front last : ℕ, 0 < front → last < 10 →
      decimal (10 * front + last) = decimal front ++ [last.digitChar] := by
    intro front last hfront hlast
    rw [decimal, ← Nat.toDigits_append_toDigits (by decide) hfront hlast,
      Nat.toDigits_of_lt_base hlast, decimal]
  have hunits := hdigits (year / 10) (year % 10) (by omega) (by omega)
  have htens := hdigits (year / 100) (year / 10 % 10) (by omega) (by omega)
  have hhundreds := hdigits (year / 1000) (year / 100 % 10) (by omega) (by omega)
  have hthousands : decimal (year / 1000) = [(year / 1000).digitChar] :=
    Nat.toDigits_of_lt_base (by omega)
  rw [show 10 * (year / 10) + year % 10 = year by omega] at hunits
  rw [show 10 * (year / 100) + year / 10 % 10 = year / 10 by omega] at htens
  rw [show 10 * (year / 1000) + year / 100 % 10 = year / 100 by omega] at hhundreds
  rw [percentD, if_neg (by omega), Int.natAbs_natCast, hunits, htens, hhundreds, hthousands]
  rfl

/-- A number of two digits is read by a conversion whose range allows a second digit. -/
theorem getNumber_percent02d {low high value : ℕ} (text : Text) (hvalue : value < 100)
    (hlow : low ≤ value) (hhigh : value ≤ high) :
    getNumber low high 2 (percent02d value ++ text) = some (value, text) := by
  rw [percent02d_of_lt hvalue, List.cons_append, List.cons_append, List.nil_append]
  refine getNumber_of_readDigits (by omega) ?_ hlow hhigh
  rw [readDigits_digit _ (by omega) (by omega), readDigits_digit _ (by omega) (by omega),
    readDigits]
  exact congrArg (fun number ↦ (number, text)) (by omega)

theorem getNumber_percentD_year {year : ℕ} (text : Text) (hlow : 1000 ≤ year)
    (hhigh : year < 10000) : getNumber 0 9999 4 (percentD year ++ text) = some (year, text) := by
  rw [percentD_year hlow hhigh]
  simp only [List.cons_append, List.nil_append]
  refine getNumber_of_readDigits (by omega) ?_ (by omega) (by omega)
  rw [readDigits_digit _ (by omega) (by omega), readDigits_digit _ (by omega) (by omega),
    readDigits_digit _ (by omega) (by omega), readDigits_digit _ (by omega) (by omega), readDigits]
  exact congrArg (fun number ↦ (number, text)) (by omega)

/-- The format of a date without separators. -/
def dateFormat : Text := "%Y%m%d".toList

/-- Assumes: a year of four digits, a month from 1 to 12 and a day of month from 1 to 31. A date
written as `%d%02d%02d` is read back. -/
theorem strptime_date {year mon mday : ℕ} (hyear : 1000 ≤ year ∧ year < 10000)
    (hmon : 1 ≤ mon ∧ mon ≤ 12) (hmday : 1 ≤ mday ∧ mday ≤ 31) :
    strptime dateFormat (percentD year ++ percent02d mon ++ percent02d mday) zeroTm =
      ⟨year - 1900, mon - 1, mday, 0, 0, 0⟩ := by
  have hformat : dateFormat = ['%', 'Y', '%', 'm', '%', 'd'] := rfl
  have hend := getNumber_percent02d [] (by omega : mday < 100) hmday.1 hmday.2
  rw [List.append_nil] at hend
  rw [hformat, List.append_assoc]
  simp only [strptime, conversion, getNumber_percentD_year _ hyear.1 hyear.2,
    getNumber_percent02d _ (by omega : mon < 100) hmon.1 hmon.2, hend, zeroTm]

-- a day of the year 10000 is read as one of the year 1000
example : strptime dateFormat "100000115".toList zeroTm = ⟨-900, 0, 0, 0, 0, 0⟩ := by decide

end CppLearn.Foundation.TimeText
