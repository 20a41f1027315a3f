import Mathlib.Data.List.TakeWhile
import CppLearn.Foundation.DecimalText

/-!
# Searching and reading C strings

`strchr` and `strrchr` return the suffix of a text that begins at the character found, the model of
a pointer into it, and `sscanfLu` is the conversion `%lu` of `sscanf`. Each is given by what it does
on a text that is put together around the character or the number it looks for
(`strchr_append`, `strrchr_append`, `sscanfLu_decimal`, `sscanfLu_append`).
-/

set_option autoImplicit false
set_option relaxedAutoImplicit false

namespace CppLearn.Foundation.TextSearch

open DecimalText

/-! ### The first and the last occurrence of a character -/

/-- `strchr`. -/
def strchr : Text → Char → Option Text
  | [], _ => none
  | char :: text, wanted => if char = wanted then some (char :: text) else strchr text wanted

/-- `strrchr`. -/
def strrchr : Text → Char → Option Text
  | [], _ => none
  | char :: text, wanted =>
    match strrchr text wanted with
    | some found => some found
    | none => if char = wanted then some (char :: text) else none

/-- The first occurrence stands after a front without the character. -/
theorem strchr_append {front : Text} {wanted : Char} (text : Text) (hfront : wanted ∉ front) :
    strchr (front ++ wanted :: text) wanted = some (wanted :: text) := by
  induction front with
  | nil => simp only [List.nil_append, strchr, if_pos]
  | cons char front ih =>
    obtain ⟨hchar, hfront⟩ := not_or.mp (List.mem_cons.not.mp hfront)
    rw [List.cons_append, strchr, if_neg (Ne.symm hchar), ih hfront]

/-- The suffix found begins with the character. -/
theorem strchr_head {text found : Text} {wanted : Char} (hfound : strchr text wanted = some found) :
    ∃ rest, found = wanted :: rest := by
  induction text with
  | nil => cases hfound
  | cons char text ih =>
    rw [strchr] at hfound
    split_ifs at hfound with hchar
    · exact ⟨text, by rw [← Option.some.inj hfound, hchar]⟩
    · exact ih hfound

theorem strchr_append_left {text found : Text} {wanted : Char} (rest : Text)
    (hfound : strchr text wanted = some found) :
    strchr (text ++ rest) wanted = some (found ++ rest) := by
  induction text with
  | nil => cases hfound
  | cons char text ih =>
    rw [strchr] at hfound
    rw [List.cons_append, strchr]
    by_cases hchar : char = wanted
    · rw [if_pos hchar] at hfound ⊢
      exact congrArg (fun suffix ↦ suffix.map (· ++ rest)) hfound
    · rw [if_neg hchar] at hfound ⊢
      exact ih hfound

theorem strchr_eq_none {text : Text} {wanted : Char} (hnone : strchr text wanted = none) :
    wanted ∉ text := by
  induction text with
  | nil => exact List.not_mem_nil
  | cons char text ih =>
    rw [strchr] at hnone
    split_ifs at hnone with hchar
    rw [List.mem_cons, not_or]
    exact ⟨Ne.symm hchar, ih hnone⟩

theorem strchr_of_not_mem {text : Text} {wanted : Char} (htext : wanted ∉ text) :
    strchr text wanted = none := by
  induction text with
  | nil => rfl
  | cons char text ih =>
    obtain ⟨hchar, htext⟩ := not_or.mp (List.mem_cons.not.mp htext)
    rw [strchr, if_neg (Ne.symm hchar), ih htext]

theorem strrchr_eq_none {text : Text} {wanted : Char} (htext : wanted ∉ text) :
    strrchr text wanted = none := by
  induction text with
  | nil => rfl
  | cons char text ih =>
    obtain ⟨hchar, htext⟩ := not_or.mp (List.mem_cons.not.mp htext)
    simp only [strrchr, ih htext, if_neg (Ne.symm hchar)]

theorem exists_strrchr {text : Text} {wanted : Char} (hmem : wanted ∈ text) :
    ∃ found, strrchr text wanted = some found := by
  induction text with
  | nil => cases hmem
  | cons char text ih =>
    rw [strrchr]
    rcases hrest : strrchr text wanted with _ | found
    · rcases List.mem_cons.mp hmem with rfl | htext
      · exact ⟨_, if_pos rfl⟩
      · obtain ⟨found, hfound⟩ := ih htext
        cases hrest.symm.trans hfound
    · exact ⟨found, rfl⟩

/-- The last occurrence stands before a rest without the character, whatever precedes it. -/
theorem strrchr_append (front : Text) {text : Text} {wanted : Char} (htext : wanted ∉ text) :
    strrchr (front ++ wanted :: text) wanted = some (wanted :: text) := by
  induction front with
  | nil => simp only [List.nil_append, strrchr, strrchr_eq_none htext, if_pos]
  | cons char front ih => simp only [List.cons_append, strrchr, ih]

/-- A text is cut in only one way at the last occurrence of a character. -/
theorem append_cons_inj {front front' text text' : Text} {wanted : Char} (htext : wanted ∉ text)
    (htext' : wanted ∉ text') (heq : front ++ wanted :: text = front' ++ wanted :: text') :
    front = front' ∧ text = text' := by
  have hlast := congrArg (fun whole ↦ strrchr whole wanted) heq
  simp only [strrchr_append _ htext, strrchr_append _ htext', Option.some.injEq] at hlast
  rw [hlast] at heq
  exact ⟨List.append_cancel_right heq, List.tail_eq_of_cons_eq hlast⟩

/-! ### Reading an unsigned number -/

/-- The value `strtoul` gives to a run of digits after an optional minus sign: the largest unsigned
long where the digits do not fit. -/
def unsignedValue (negative : Bool) (digits : Text) : BitVec 64 :=
  let value := (readDecimal digits).1
  if 2 ^ 64 ≤ value then BitVec.allOnes 64
  else if negative then -BitVec.ofNat 64 value else BitVec.ofNat 64 value

/-- The conversion of `%lu` after the sign, which fails without a digit. -/
def readUnsigned (negative : Bool) : Text → Option (BitVec 64)
  | [] => none
  | char :: digits =>
    if char.isDigit then some (unsignedValue negative (char :: digits)) else none

/-- `sscanf` with the format `%lu`. Where the conversion fails nothing is stored. -/
def sscanfLu (text : Text) : Option (BitVec 64) :=
  match text.dropWhile isSpace with
  | '-' :: digits => readUnsigned true digits
  | '+' :: digits => readUnsigned false digits
  | digits => readUnsigned false digits

theorem not_isSpace_of_isDigit {char : Char} (hchar : char.isDigit = true) :
    isSpace char = false := by
  simp only [Char.isDigit, Bool.and_eq_true, decide_eq_true_eq] at hchar
  have hlow : 48 ≤ char.toNat := by
    have := UInt32.le_iff_toNat_le.mp hchar.1
    exact this
  have hne : char ≠ ' ' := by
    rintro rfl
    revert hlow
    decide
  simp only [isSpace, Bool.or_eq_false_iff, beq_eq_false_iff_ne, ne_eq, hne, not_false_eq_true,
    Bool.and_eq_false_iff, decide_eq_false_iff_not, not_le, true_and]
  omega

/-- A text that begins with a digit is read from there. -/
theorem sscanfLu_digit {char : Char} (text : Text) (hchar : char.isDigit = true) :
    sscanfLu (char :: text) = some (unsignedValue false (char :: text)) := by
  have hspace := not_isSpace_of_isDigit hchar
  have hminus : char ≠ '-' := by
    rintro rfl
    exact absurd hchar (by decide)
  have hplus : char ≠ '+' := by
    rintro rfl
    exact absurd hchar (by decide)
  have hdrop : (char :: text).dropWhile isSpace = char :: text := by
    rw [List.dropWhile_cons, if_neg (by simp [hspace])]
  unfold sscanfLu
  rw [hdrop]
  split
  · next heq => exact absurd (List.cons.inj heq).1 hminus
  · next heq => exact absurd (List.cons.inj heq).1 hplus
  · simp only [readUnsigned, hchar, if_true]

/-- A number written in decimal is read back, whatever follows its digits. -/
theorem sscanfLu_decimal {value : ℕ} {text : Text} (hvalue : value < 2 ^ 64)
    (htext : EndsDigits text) :
    sscanfLu (decimal value ++ text) = some (BitVec.ofNat 64 value) := by
  obtain ⟨char, digits, hdecimal, hdigit, -⟩ := decimal_head value
  have hread : unsignedValue false (decimal value ++ text) = BitVec.ofNat 64 value := by
    simp only [unsignedValue, readDecimal_decimal value htext]
    rw [if_neg (by omega), if_neg (by decide)]
  rw [hdecimal, List.cons_append] at hread ⊢
  rw [sscanfLu_digit _ hdigit, hread]

/-- A text that begins with a number is read as that number, however it is cut, exactly if all its
digits are left. -/
theorem sscanfLu_take_decimal_iff {value : ℕ} {text : Text} (hvalue : value < 2 ^ 64)
    (htext : EndsDigits text) (size : ℕ) :
    sscanfLu ((decimal value ++ text).take size) = some (BitVec.ofNat 64 value) ↔
      (decimal value).length ≤ size := by
  constructor
  · intro hread
    by_contra hsize
    rw [List.take_append_of_le_length (by omega)] at hread
    rcases size with _ | size
    · cases hread
    · have hlt := readDecimal_take_lt (Nat.succ_pos size) (not_le.mp hsize)
      obtain ⟨char, digits, hdecimal, hdigit, -⟩ := decimal_head value
      rw [hdecimal, List.take_succ_cons] at hread hlt
      rw [sscanfLu_digit _ hdigit, unsignedValue, if_neg (by omega), if_neg (by decide),
        Option.some.injEq] at hread
      have hnat := congrArg BitVec.toNat hread
      rw [BitVec.toNat_ofNat, BitVec.toNat_ofNat, Nat.mod_eq_of_lt (by omega),
        Nat.mod_eq_of_lt hvalue] at hnat
      omega
  · intro hsize
    have hrest : EndsDigits (text.take (size - (decimal value).length)) := by
      intro char hchar
      rw [List.head?_take] at hchar
      split_ifs at hchar
      · cases hchar
      · exact htext char hchar
    rw [List.take_append, List.take_of_length_le hsize]
    exact sscanfLu_decimal hvalue hrest

/-- The run of digits ends at the latest at the end of the text that is read first. -/
theorem readDecimal_append_fst (text : Text) {rest : Text} (hrest : EndsDigits rest) :
    (readDecimal (text ++ rest)).1 = (readDecimal text).1 := by
  have htake : (text ++ rest).takeWhile Char.isDigit = text.takeWhile Char.isDigit := by
    induction text with
    | nil =>
      rcases rest with _ | ⟨char, rest⟩
      · rfl
      · simp only [List.nil_append, List.takeWhile_cons, hrest char rfl, List.takeWhile_nil,
          Bool.false_eq_true, if_false]
    | cons char text ih =>
      rw [List.cons_append, List.takeWhile_cons, List.takeWhile_cons, ih]
  simp only [readDecimal, htake]

theorem readUnsigned_append (negative : Bool) (text : Text) {rest : Text}
    (hrest : EndsDigits rest) :
    readUnsigned negative (text ++ rest) = readUnsigned negative text := by
  rcases text with _ | ⟨char, text⟩
  · rcases rest with _ | ⟨char, rest⟩
    · rfl
    · simp only [List.nil_append, readUnsigned, hrest char rfl, Bool.false_eq_true, if_false]
  · have hvalue : unsignedValue negative (char :: text ++ rest) =
        unsignedValue negative (char :: text) := by
      simp only [unsignedValue, readDecimal_append_fst (char :: text) hrest]
    simp only [List.cons_append] at hvalue ⊢
    simp only [readUnsigned, hvalue]

/-- What is read from a text does not depend on what follows a character that is neither blank, nor
a sign, nor a digit. -/
theorem sscanfLu_append (text : Text) {char : Char} (rest : Text) (hdigit : char.isDigit = false)
    (hspace : isSpace char = false) (hminus : char ≠ '-') (hplus : char ≠ '+') :
    sscanfLu (text ++ char :: rest) = sscanfLu text := by
  have hends : EndsDigits (char :: rest) := endsDigits_cons rest hdigit
  induction text with
  | nil =>
    have hdrop : (char :: rest).dropWhile isSpace = char :: rest := by
      rw [List.dropWhile_cons, if_neg (by simp [hspace])]
    unfold sscanfLu
    rw [List.nil_append, hdrop]
    split
    · next heq => exact absurd (List.cons.inj heq).1 hminus
    · next heq => exact absurd (List.cons.inj heq).1 hplus
    · simp only [readUnsigned, hdigit, Bool.false_eq_true, if_false, List.dropWhile_nil]
  | cons first text ih =>
    by_cases hfirst : isSpace first
    · have hdrop : ∀ whole : Text, sscanfLu (first :: whole) = sscanfLu whole := fun whole ↦ by
        simp only [sscanfLu, List.dropWhile_cons, hfirst, if_true]
      rw [List.cons_append, hdrop, hdrop, ih]
    · have hdrop : ∀ whole : Text, (first :: whole).dropWhile isSpace = first :: whole :=
        fun whole ↦ by rw [List.dropWhile_cons, if_neg hfirst]
      simp only [sscanfLu, List.cons_append, hdrop]
      split
      · next heq =>
        obtain ⟨rfl, rfl⟩ := List.cons.inj heq
        exact readUnsigned_append true text hends
      · next heq =>
        obtain ⟨rfl, rfl⟩ := List.cons.inj heq
        exact readUnsigned_append false text hends
      · next hnotMinus hnotPlus =>
        have hfirstMinus : first ≠ '-' := fun heq ↦ hnotMinus _ (by rw [heq])
        have hfirstPlus : first ≠ '+' := fun heq ↦ hnotPlus _ (by rw [heq])
        split
        · next heq => exact absurd (List.cons.inj heq).1 hfirstMinus
        · next heq => exact absurd (List.cons.inj heq).1 hfirstPlus
        · exact readUnsigned_append false (first :: text) hends

/-- `snprintf` into a buffer of `size` bytes. -/
def snprintf (size : ℕ) (text : Text) : Text := text.take (size - 1)

theorem snprintf_of_lt {size : ℕ} {text : Text} (hfits : text.length < size) :
    snprintf size text = text :=
  List.take_of_length_le (by omega)

example : strrchr "/snappy/20170901".toList '/' = some "/20170901".toList := by decide

example : sscanfLu "1371601523-1409777555".toList = some 1371601523 := by decide

end CppLearn.Foundation.TextSearch
