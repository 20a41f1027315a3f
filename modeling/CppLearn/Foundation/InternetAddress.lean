import CppLearn.Foundation.ByteOrder
import CppLearn.Foundation.DecimalText

/-!
# Internet addresses as text

`inet_aton` reads an address of one to four numbers, each decimal, octal or hexadecimal as in C, of
which the last fills the bytes that the others leave. `inetAton_dotted` says that it reads the
dotted decimal form of four bytes as these bytes.
-/

set_option autoImplicit false
set_option relaxedAutoImplicit false

namespace CppLearn.Foundation.InternetAddress

open ByteOrder DecimalText

/-- The value of a hexadecimal digit. -/
def hexDigit (char : Char) : Option ℕ :=
  if char.isDigit then some (char.toNat - 48)
  else if 'a' ≤ char ∧ char ≤ 'f' then some (char.toNat - 87)
  else if 'A' ≤ char ∧ char ≤ 'F' then some (char.toNat - 55)
  else none

def isOctDigit (char : Char) : Bool := '0' ≤ char && char ≤ '7'

/-- `strtoul` in base 0 on a text that begins with a digit, without its saturation: what exceeds
64 bits exceeds the bound of every caller. -/
def strtoulBaseZero (text : Text) : ℕ × Text :=
  match text with
  | '0' :: x :: rest =>
    if (x == 'x' || x == 'X') && (rest.head?.bind hexDigit).isSome then
      ((rest.takeWhile fun char ↦ (hexDigit char).isSome).foldl
          (fun value char ↦ 16 * value + (hexDigit char).getD 0) 0,
        rest.dropWhile fun char ↦ (hexDigit char).isSome)
    else (Nat.ofDigitChars 8 (text.takeWhile isOctDigit) 0, text.dropWhile isOctDigit)
  | '0' :: [] => (0, [])
  | _ => readDecimal text

/-- A number as so many bytes in network order. -/
def networkBytes (count value : ℕ) : List Byte := (leBytes count value).reverse

/-- `inet_aton` from some point of the text on, with the number of bytes still to be filled. -/
def inetAtonFrom : ℕ → Text → Option (List Byte)
  | 0, _ => none
  | left + 1, text =>
    if (text.head?.map Char.isDigit).getD false then
      let (value, rest) := strtoulBaseZero text
      let last := if value < 256 ^ (left + 1) then some (networkBytes (left + 1) value) else none
      match rest with
      | [] => last
      | char :: rest =>
        if char = '.' then
          if left = 0 ∨ 0xff < value then none
          else (inetAtonFrom left rest).map (BitVec.ofNat 8 value :: ·)
        else if isSpace char then last
        else none
    else none

/-- `inet_aton`: the bytes of `s_addr` in memory. -/
def inetAton (text : Text) : Option (List Byte) := inetAtonFrom 4 text

/-- Four bytes in dotted decimal form. -/
def dotted (a b c d : Byte) : Text :=
  decimal a.toNat ++ '.' :: (decimal b.toNat ++ '.' :: (decimal c.toNat ++ '.' :: decimal d.toNat))

/-- A number written in decimal is read in base 0 as itself, at the end of the text or before a
dot. -/
theorem strtoulBaseZero_decimal (value : ℕ) {text : Text}
    (htext : text = [] ∨ ∃ rest, text = '.' :: rest) :
    strtoulBaseZero (decimal value ++ text) = (value, text) := by
  have hends : EndsDigits text := by
    rcases htext with rfl | ⟨rest, rfl⟩
    · exact endsDigits_nil
    · exact endsDigits_cons rest rfl
  obtain ⟨char, digits, hdecimal, -, hzero⟩ := decimal_head value
  by_cases hchar : char = '0'
  · obtain ⟨rfl, rfl⟩ := hzero hchar
    subst hchar
    rcases htext with rfl | ⟨rest, rfl⟩
    · rfl
    · rw [hdecimal]
      rfl
  · rw [← readDecimal_decimal value hends, hdecimal, strtoulBaseZero]
    · simp_all
    · simp_all

/-- One byte and the dot after it. -/
theorem inetAtonFrom_dot (left : ℕ) (byte : Byte) (rest : Text) :
    inetAtonFrom (left + 2) (decimal byte.toNat ++ '.' :: rest) =
      (inetAtonFrom (left + 1) rest).map (byte :: ·) := by
  have hread := strtoulBaseZero_decimal byte.toNat (.inr ⟨rest, rfl⟩)
  obtain ⟨char, digits, hdecimal, hdigit, -⟩ := decimal_head byte.toNat
  have hhead : ((decimal byte.toNat ++ '.' :: rest).head?.map Char.isDigit).getD false = true := by
    rw [hdecimal]
    simp [hdigit]
  have hbyte : ¬(left + 1 = 0 ∨ 0xff < byte.toNat) := by
    have := byte.isLt
    omega
  rw [inetAtonFrom, if_pos hhead, hread]
  simp only [if_neg hbyte, if_true, BitVec.ofNat_toNat, BitVec.setWidth_eq]

/-- The last byte. -/
theorem inetAtonFrom_last (byte : Byte) :
    inetAtonFrom 1 (decimal byte.toNat) = some [byte] := by
  have hread := strtoulBaseZero_decimal byte.toNat (.inl rfl)
  obtain ⟨char, digits, hdecimal, hdigit, -⟩ := decimal_head byte.toNat
  have hhead : ((decimal byte.toNat).head?.map Char.isDigit).getD false = true := by
    rw [hdecimal]
    simp [hdigit]
  rw [List.append_nil] at hread
  rw [inetAtonFrom, if_pos hhead, hread]
  simp [networkBytes, leBytes, byte.isLt]

/-- The dotted decimal form of four bytes is read as these bytes. -/
theorem inetAton_dotted (a b c d : Byte) : inetAton (dotted a b c d) = some [a, b, c, d] := by
  rw [inetAton, dotted, inetAtonFrom_dot, inetAtonFrom_dot, inetAtonFrom_dot, inetAtonFrom_last]
  rfl

/-! ### Addresses -/

/-- An IPv4 address a.b.c.d. -/
structure Ipv4Address where
  a : Byte
  b : Byte
  c : Byte
  d : Byte
  deriving DecidableEq

namespace Ipv4Address

/-- Its bytes in network order. -/
def bytes (address : Ipv4Address) : List Byte := [address.a, address.b, address.c, address.d]

/-- Its dotted decimal form. -/
def text (address : Ipv4Address) : Text := dotted address.a address.b address.c address.d

/-- The address d.c.b.a. -/
def reverse (address : Ipv4Address) : Ipv4Address := ⟨address.d, address.c, address.b, address.a⟩

/-- The address 0.0.0.0. -/
def any : Ipv4Address := ⟨0, 0, 0, 0⟩

/-- Its bytes, in network order, as a word in memory. -/
def word (address : Ipv4Address) : BitVec 32 := wordOfBytes 32 address.bytes

theorem reverse_injective : Function.Injective reverse := by
  rintro ⟨a, b, c, d⟩ ⟨a', b', c', d'⟩ h
  simp only [reverse, mk.injEq] at h ⊢
  tauto

/-- The bytes of an address fill a word. -/
theorem width_bytes (address : Ipv4Address) : 2 ^ 32 = 256 ^ address.bytes.length := by
  simp [bytes]

theorem word_injective : Function.Injective word := by
  intro first second h
  have hlt (address : Ipv4Address) : ofLeBytes address.bytes < 2 ^ 32 := by
    rw [width_bytes address]
    exact ofLeBytes_lt address.bytes
  have hnumbers : ofLeBytes first.bytes = ofLeBytes second.bytes := by
    have := congrArg BitVec.toNat h
    rwa [word, word, wordOfBytes, wordOfBytes, BitVec.toNat_ofNat, BitVec.toNat_ofNat,
      Nat.mod_eq_of_lt (hlt first), Nat.mod_eq_of_lt (hlt second)] at this
  have hbytes : first.bytes = second.bytes := eq_of_ofLeBytes_eq rfl hnumbers
  rcases first with ⟨a, b, c, d⟩
  rcases second with ⟨a', b', c', d'⟩
  simpa [bytes] using hbytes

theorem word_eq_zero_iff (address : Ipv4Address) : address.word = 0 ↔ address = any :=
  word_injective.eq_iff' rfl

theorem reverse_eq_any_iff (address : Ipv4Address) : address.reverse = any ↔ address = any :=
  reverse_injective.eq_iff' rfl

/-- Converting the word of an address to host order reverses the address. -/
theorem ntohl_word (address : Ipv4Address) : ntohl address.word = address.reverse.word :=
  byteSwap_wordOfBytes (width_bytes address)

theorem inetAton_text (address : Ipv4Address) : inetAton address.text = some address.bytes :=
  inetAton_dotted ..

end Ipv4Address

-- an address of two numbers, the last filling three bytes, and an octal number
example : inetAton "10.258".toList = some [10, 0, 1, 2] := by decide

example : inetAton "010.0x1F.0.1".toList = some [8, 31, 0, 1] := by decide

end CppLearn.Foundation.InternetAddress
