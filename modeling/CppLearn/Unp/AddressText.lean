import CppLearn.Foundation.HexText
import CppLearn.Foundation.LongestRun

/-!
# Addresses between network and presentation format

`inet_ntop` writes an address as text and `inet_pton` reads it back: four decimal numbers with dots, and
nothing else (`inetPton4_eq_some_iff`), or eight hexadecimal ones with colons, of which the first of the
longest runs of zeros is left out (`ntop6Text_canonical`). What is written is read back as it was
(`inetNtop4_overruns_iff`, `inetPton6_inetNtop6`).

Two things are not as they are meant. `inet_ntop4` compares the length without the terminating null
character, so it writes past a buffer of exactly that length. And a `::` in an address that has all its
groups is not ignored: the groups after it are read as zeros (`inetPton6_colons`).
-/

set_option autoImplicit false
set_option relaxedAutoImplicit false

namespace CppLearn.Unp.AddressText

open Foundation.ByteOrder Foundation.DecimalText Foundation.InternetAddress Foundation.HexText
open Foundation.LongestRun

/-- `INADDRSZ`. -/
def inaddrsz : ℕ := 4

/-- `IN6ADDRSZ`. -/
def in6addrsz : ℕ := 16

/-- `INT16SZ`. -/
def int16sz : ℕ := 2

/-- The bytes of an IPv6 address. -/
structure In6Addr where
  bytes : List Byte
  length_eq : bytes.length = in6addrsz

/-! ### `inet_ntop` -/

/-- `inet_ntop4`: the text that `strcpy` copies, which is one character longer than its length. -/
def inetNtop4 (src : Ipv4Address) (size : ℕ) : Option Text :=
  if size < src.text.length then none else some src.text

/-- Words of two bytes in network order. -/
def wordsOf : List Byte → List ℕ
  | high :: low :: rest => (high.toNat <<< 8 ||| low.toNat) :: wordsOf rest
  | _ => []

/-- The longest run of zeros that is worth the shorthand. -/
def bestRun (words : List ℕ) : Option Span :=
  match longestRun (· == 0) words with
  | some best => if best.len < 2 then none else some best
  | none => none

/-- `i >= best.base && i < (best.base + best.len)`. -/
def isInside (best : Option Span) (i : ℕ) : Bool :=
  match best with
  | some best => best.base ≤ i && i < best.base + best.len
  | none => false

/-- The last four bytes are an encapsulated IPv4 address. -/
def isEncapsulated (best : Option Span) (words : List ℕ) (i : ℕ) : Bool :=
  match best with
  | some best =>
    i == 6 && best.base == 0 && (best.len == 6 || best.len == 5 && words[5]? == some 0xffff)
  | none => false

/-- `src+12`. -/
def In6Addr.encapsulated (src : In6Addr) : Ipv4Address :=
  ⟨src.bytes.getD 12 0, src.bytes.getD 13 0, src.bytes.getD 14 0, src.bytes.getD 15 0⟩

/-- `sizeof tmp` in `inet_ntop6`. -/
def sizeofTmp : ℕ := 46

/-- The loop that formats the words from one on behind what `tmp` holds. -/
def ntop6Loop (src : In6Addr) (best : Option Span) : ℕ → List ℕ → Text → Option Text
  | _, [], tmp => some tmp
  | i, word :: rest, tmp =>
    if isInside best i then
      ntop6Loop src best (i + 1) rest (if best.map Span.base = some i then tmp ++ [':'] else tmp)
    else
      let tp := if i ≠ 0 then tmp ++ [':'] else tmp
      if isEncapsulated best (wordsOf src.bytes) i then
        (inetNtop4 src.encapsulated (sizeofTmp - tp.length)).map (tp ++ ·)
      else ntop6Loop src best (i + 1) rest (tp ++ hexadecimal word)

/-- `(best.base + best.len) == (IN6ADDRSZ / INT16SZ)`. -/
def isTrailing (best : Option Span) : Bool :=
  match best with
  | some best => best.base + best.len == in6addrsz / int16sz
  | none => false

/-- The text that `inet_ntop6` puts into `tmp`. -/
def ntop6Text (src : In6Addr) : Option Text :=
  let best := bestRun (wordsOf src.bytes)
  (ntop6Loop src best 0 (wordsOf src.bytes) []).map fun tmp ↦
    if isTrailing best then tmp ++ [':'] else tmp

/-- `inet_ntop6`, which counts the terminating null character. -/
def inetNtop6 (src : In6Addr) (size : ℕ) : Option Text :=
  match ntop6Text src with
  | some tmp => if size < tmp.length + 1 then none else some tmp
  | none => none

/-! ### `inet_pton` -/

/-- `strchr(digits, ch)`. -/
def digitOf (ch : Char) : Option ℕ := if ch.isDigit then some (ch.toNat - 48) else none

/-- The state of `inet_pton4`: the bytes before `*tp`, and `*tp`. -/
structure Pton4 where
  tmp : List Byte
  tp : ℕ
  octets : ℕ
  sawDigit : Bool

/-- One character of `inet_pton4`. -/
def pton4Char (s : Pton4) (ch : Char) : Option Pton4 :=
  match digitOf ch with
  | some digit =>
    let new := s.tp * 10 + digit
    if 255 < new then none
    else if s.sawDigit then some { s with tp := new }
    else if 4 < s.octets + 1 then none
    else some { s with tp := new, octets := s.octets + 1, sawDigit := true }
  | none =>
    if ch = '.' ∧ s.sawDigit then
      if s.octets = 4 then none
      else some { s with tmp := s.tmp ++ [BitVec.ofNat 8 s.tp], tp := 0, sawDigit := false }
    else none

/-- `inet_pton4`: the bytes that it copies to `dst`, or none. -/
def inetPton4 (src : Text) : Option (List Byte) :=
  match src.foldlM pton4Char ⟨[], 0, 0, false⟩ with
  | some s => if s.octets < 4 then none else some (s.tmp ++ [BitVec.ofNat 8 s.tp])
  | none => none

/-- The state of `inet_pton6`: the bytes before `tp`, and how many of them are before `colonp`. -/
structure Pton6 where
  tmp : List Byte
  colonp : Option ℕ
  curtok : Text
  sawXdigit : Bool
  val : ℕ

/-- The two bytes that are stored for a group. -/
def wordBytes (val : ℕ) : List Byte := [BitVec.ofNat 8 (val >>> 8), BitVec.ofNat 8 val]

/-- The loop over the characters of `inet_pton6`. -/
def pton6Loop : Text → Pton6 → Option Pton6
  | [], s => some s
  | ch :: src, s =>
    match hexDigit ch with
    | some digit =>
      let val := s.val <<< 4 ||| digit
      if 0xffff < val then none else pton6Loop src { s with sawXdigit := true, val := val }
    | none =>
      if ch = ':' then
        if s.sawXdigit then
          if in6addrsz < s.tmp.length + int16sz then none
          else
            pton6Loop src { s with
              tmp := s.tmp ++ wordBytes s.val
              curtok := src
              sawXdigit := false
              val := 0 }
        else if s.colonp.isSome then none
        else pton6Loop src { s with colonp := some s.tmp.length, curtok := src }
      else if ch = '.' ∧ s.tmp.length + inaddrsz ≤ in6addrsz then
        (inetPton4 s.curtok).map fun bytes ↦ { s with tmp := s.tmp ++ bytes, sawXdigit := false }
      else none

/-- The group after the last colon. -/
def pton6Last (s : Pton6) : Option Pton6 :=
  if s.sawXdigit then
    if in6addrsz < s.tmp.length + int16sz then none
    else some { s with tmp := s.tmp ++ wordBytes s.val }
  else some s

/-- The shift by hand, after some of its rounds: `endp[- i] = colonp[n - i]; colonp[n - i] = 0;`. -/
def shift (colonp n : ℕ) (tmp : List Byte) : ℕ → List Byte
  | 0 => tmp
  | i + 1 =>
    let before := shift colonp n tmp i
    (before.set (in6addrsz - (i + 1)) (before.getD (colonp + n - (i + 1)) 0)).set
      (colonp + n - (i + 1)) 0

/-- What is left to do when the text has been read, in an array that has been filled with zeros. -/
def pton6Finish (s : Pton6) : Option (List Byte) :=
  let tmp := s.tmp ++ List.replicate (in6addrsz - s.tmp.length) 0
  match s.colonp with
  | some colonp => some (shift colonp (s.tmp.length - colonp) tmp (s.tmp.length - colonp))
  | none => if s.tmp.length ≠ in6addrsz then none else some tmp

/-- What `inet_pton6` makes of the text from a token on. -/
def pton6Read (tmp : List Byte) (colonp : Option ℕ) (src : Text) : Option (List Byte) :=
  ((pton6Loop src ⟨tmp, colonp, src, false, 0⟩).bind pton6Last).bind pton6Finish

/-- `inet_pton6`: the bytes that it copies to `dst`, or none. -/
def inetPton6 (src : Text) : Option (List Byte) :=
  match src with
  | ':' :: ':' :: rest => pton6Read [] none (':' :: rest)
  | ':' :: _ => none
  | _ => pton6Read [] none src

example : inetPton6 "::ffff:10.0.0.1".toList =
    some (List.replicate 10 0 ++ [0xff, 0xff, 10, 0, 0, 1]) := by decide

/-! ### Four decimal numbers -/

/-- A decimal number of at most 255, with any number of leading zeros. -/
structure IsOctet (digits : Text) : Prop where
  ne_nil : digits ≠ []
  isDigit : ∀ ch ∈ digits, ch.isDigit = true
  le : Nat.ofDigitChars 10 digits 0 ≤ 255

/-- The byte that an octet is read as. -/
def octetByte (digits : Text) : Byte := BitVec.ofNat 8 (Nat.ofDigitChars 10 digits 0)

theorem digitOf_eq_some {ch : Char} (hdigit : ch.isDigit = true) :
    digitOf ch = some (ch.toNat - '0'.toNat) := if_pos hdigit

/-- A value does not fall while its digits are read. -/
theorem le_ofDigitChars (digits : Text) (value : ℕ) : value ≤ Nat.ofDigitChars 10 digits value := by
  rw [Nat.ofDigitChars_eq_ofDigitChars_zero]
  exact (Nat.le_mul_of_pos_left value (Nat.pow_pos (by decide))).trans (Nat.le_add_right _ _)

/-- A digit is read. -/
theorem pton4Char_digit {s : Pton4} {ch : Char} (hdigit : ch.isDigit = true)
    (hle : Nat.ofDigitChars 10 [ch] s.tp ≤ 255) (hroom : s.sawDigit = true ∨ s.octets < 4) :
    pton4Char s ch = some { s with
      tp := Nat.ofDigitChars 10 [ch] s.tp
      octets := if s.sawDigit then s.octets else s.octets + 1
      sawDigit := true } := by
  have hnew : s.tp * 10 + (ch.toNat - '0'.toNat) = Nat.ofDigitChars 10 [ch] s.tp := by
    rw [Nat.ofDigitChars_cons, Nat.ofDigitChars_nil, Nat.mul_comm]
  simp only [pton4Char, digitOf_eq_some hdigit, hnew]
  rw [if_neg (Nat.not_lt.mpr hle)]
  cases hsaw : s.sawDigit with
  | true => simp only [if_true]
  | false =>
    have hlt : s.octets < 4 := by
      rcases hroom with heq | hlt
      · rw [hsaw] at heq
        cases heq
      · exact hlt
    simp only [Bool.false_eq_true, if_false]
    rw [if_neg (by omega)]

theorem foldlM_digits {s : Pton4} {digits : Text} (hsaw : s.sawDigit = true)
    (hdigits : ∀ ch ∈ digits, ch.isDigit = true) (hle : Nat.ofDigitChars 10 digits s.tp ≤ 255) :
    digits.foldlM pton4Char s = some { s with tp := Nat.ofDigitChars 10 digits s.tp } := by
  induction digits generalizing s with
  | nil => rfl
  | cons ch digits ih =>
    obtain ⟨hfirst, hrest⟩ := List.forall_mem_cons.mp hdigits
    rw [Nat.ofDigitChars_cons] at hle
    have hone : Nat.ofDigitChars 10 [ch] s.tp ≤ 255 := by
      rw [Nat.ofDigitChars_cons, Nat.ofDigitChars_nil]
      exact (le_ofDigitChars digits _).trans hle
    rw [List.foldlM_cons, pton4Char_digit hfirst hone (.inl hsaw)]
    simp only [hsaw, if_true, Option.bind_eq_bind, Option.bind_some]
    rw [ih rfl hrest (by simpa only [Nat.ofDigitChars_cons, Nat.ofDigitChars_nil] using hle)]
    simp only [Nat.ofDigitChars_cons, Nat.ofDigitChars_nil]

/-- The state in which an octet is read. -/
theorem foldlM_octet {octet : Text} (hoctet : IsOctet octet) {s : Pton4} (hsaw : s.sawDigit = false)
    (htp : s.tp = 0) (hroom : s.octets < 4) :
    octet.foldlM pton4Char s = some { s with
      tp := Nat.ofDigitChars 10 octet 0
      octets := s.octets + 1
      sawDigit := true } := by
  obtain ⟨hne, hdigits, hle⟩ := hoctet
  cases octet with
  | nil => exact absurd rfl hne
  | cons ch digits =>
    obtain ⟨hfirst, hrest⟩ := List.forall_mem_cons.mp hdigits
    rw [Nat.ofDigitChars_cons] at hle ⊢
    have hone : Nat.ofDigitChars 10 [ch] s.tp ≤ 255 := by
      rw [htp, Nat.ofDigitChars_cons, Nat.ofDigitChars_nil]
      exact (le_ofDigitChars digits _).trans hle
    rw [List.foldlM_cons, pton4Char_digit hfirst hone (.inr hroom)]
    simp only [hsaw, Bool.false_eq_true, if_false, Option.bind_eq_bind, Option.bind_some]
    rw [foldlM_digits rfl hrest]
    · simp only [htp, Nat.ofDigitChars_cons, Nat.ofDigitChars_nil]
    · simpa only [htp, Nat.ofDigitChars_cons, Nat.ofDigitChars_nil] using hle

/-- The dot after an octet. -/
theorem pton4Char_dot {s : Pton4} (hsaw : s.sawDigit = true) (hroom : s.octets ≠ 4) :
    pton4Char s '.' =
      some { s with tmp := s.tmp ++ [BitVec.ofNat 8 s.tp], tp := 0, sawDigit := false } := by
  have hdot : digitOf '.' = none := rfl
  simp only [pton4Char, hdot, hsaw, and_self, if_true, if_neg hroom]

/-- An octet and the dot after it. -/
theorem foldlM_octet_dot {octet : Text} (hoctet : IsOctet octet) (tmp : List Byte) {octets : ℕ}
    (hroom : octets < 3) (rest : Text) :
    (octet ++ '.' :: rest).foldlM pton4Char ⟨tmp, 0, octets, false⟩ =
      rest.foldlM pton4Char ⟨tmp ++ [octetByte octet], 0, octets + 1, false⟩ := by
  have hdigits : octet.foldlM pton4Char ⟨tmp, 0, octets, false⟩ =
      some ⟨tmp, Nat.ofDigitChars 10 octet 0, octets + 1, true⟩ :=
    foldlM_octet hoctet rfl rfl (Nat.lt_succ_of_lt hroom)
  rw [List.foldlM_append, hdigits, Option.bind_eq_bind, Option.bind_some, List.foldlM_cons,
    pton4Char_dot rfl (by simp only; omega)]
  rfl

/-- Four octets with dots between them. -/
theorem inetPton4_octets {a b c d : Text} (ha : IsOctet a) (hb : IsOctet b) (hc : IsOctet c)
    (hd : IsOctet d) :
    inetPton4 (a ++ '.' :: (b ++ '.' :: (c ++ '.' :: d))) =
      some [octetByte a, octetByte b, octetByte c, octetByte d] := by
  unfold inetPton4
  rw [foldlM_octet_dot ha [] (by decide), foldlM_octet_dot hb _ (by decide),
    foldlM_octet_dot hc _ (by decide), foldlM_octet hd rfl rfl (Nat.lt_succ_self 3)]
  rfl

/-- Texts of octets and the dots after them. -/
def dottedFront (octets : List Text) : Text := octets.flatMap (· ++ ['.'])

/-- What has been read: some octets with their dots, and the digits after them. -/
structure Read4 (octets : List Text) (digits : Text) (s : Pton4) : Prop where
  octet : ∀ octet ∈ octets, IsOctet octet
  isDigit : ∀ ch ∈ digits, ch.isDigit = true
  tmp_eq : s.tmp = octets.map octetByte
  tp_eq : s.tp = Nat.ofDigitChars 10 digits 0
  tp_le : s.tp ≤ 255
  octets_eq : s.octets = octets.length + s.sawDigit.toNat
  saw_iff : s.sawDigit = true ↔ digits ≠ []
  octets_le : s.octets ≤ 4
  dots_le : octets.length ≤ 3

theorem Read4.char {octets : List Text} {digits : Text} {s next : Pton4} {ch : Char}
    (h : Read4 octets digits s) (hchar : pton4Char s ch = some next) :
    ∃ (octets' : List Text) (digits' : Text),
      dottedFront octets' ++ digits' = dottedFront octets ++ digits ++ [ch] ∧
        Read4 octets' digits' next := by
  unfold pton4Char at hchar
  split at hchar
  · next digit hdigit =>
    have hisDigit : ch.isDigit = true := by
      unfold digitOf at hdigit
      split_ifs at hdigit with hisDigit
      exact hisDigit
    rw [digitOf_eq_some hisDigit] at hdigit
    cases hdigit
    have htp : s.tp * 10 + (ch.toNat - '0'.toNat) = Nat.ofDigitChars 10 (digits ++ [ch]) 0 := by
      rw [Nat.ofDigitChars_append, Nat.ofDigitChars_cons, Nat.ofDigitChars_nil, ← h.tp_eq, Nat.mul_comm]
    have hdigits : ∀ other ∈ digits ++ [ch], other.isDigit = true := by
      intro other hother
      rcases List.mem_append.mp hother with hold | hnew
      · exact h.isDigit other hold
      · rw [List.mem_singleton.mp hnew]
        exact hisDigit
    have hoctets := h.octets_eq
    simp only at hchar
    split_ifs at hchar with hbig hsaw hmany
    · cases hchar
      exact ⟨octets, digits ++ [ch], (List.append_assoc ..).symm,
        { h with
          isDigit := hdigits
          tp_eq := htp
          tp_le := Nat.not_lt.mp hbig
          saw_iff := ⟨fun _ ↦ by simp, fun _ ↦ hsaw⟩ }⟩
    · cases hchar
      refine ⟨octets, digits ++ [ch], (List.append_assoc ..).symm,
        { h with
          isDigit := hdigits
          tp_eq := htp
          tp_le := Nat.not_lt.mp hbig
          octets_eq := ?_
          saw_iff := ⟨fun _ ↦ by simp, fun _ ↦ rfl⟩
          octets_le := Nat.not_lt.mp hmany }⟩
      rw [Bool.eq_false_of_not_eq_true hsaw] at hoctets
      exact congrArg Nat.succ hoctets
  · split_ifs at hchar with hdot hmany
    cases hchar
    obtain ⟨rfl, hsaw⟩ := hdot
    have hoctets := h.octets_eq
    have hle := h.octets_le
    rw [hsaw] at hoctets
    simp only [Bool.toNat_true] at hoctets
    refine ⟨octets ++ [digits], [], ?_, ?_, ?_, ?_, rfl, Nat.zero_le _, ?_, ?_, h.octets_le, ?_⟩
    · simp only [dottedFront, List.flatMap_append, List.flatMap_cons, List.flatMap_nil, List.append_nil,
        List.append_assoc]
    · intro octet hoctet
      rcases List.mem_append.mp hoctet with hold | hnew
      · exact h.octet octet hold
      · rw [List.mem_singleton.mp hnew]
        exact ⟨h.saw_iff.mp hsaw, h.isDigit, h.tp_eq ▸ h.tp_le⟩
    · intro ch hch
      cases hch
    · rw [List.map_append, ← h.tmp_eq, h.tp_eq]
      rfl
    · rw [List.length_append]
      exact hoctets
    · exact ⟨(fun heq ↦ by cases heq), fun hne ↦ absurd rfl hne⟩
    · rw [List.length_append, List.length_singleton]
      omega

theorem read4_of_foldlM {src : Text} {s : Pton4}
    (hread : src.foldlM pton4Char ⟨[], 0, 0, false⟩ = some s) :
    ∃ (octets : List Text) (digits : Text), dottedFront octets ++ digits = src ∧
      Read4 octets digits s := by
  induction src using List.reverseRecOn generalizing s with
  | nil =>
    cases hread
    refine ⟨[], [], rfl, fun _ hoctet ↦ ?_, fun _ hch ↦ ?_, rfl, rfl, Nat.zero_le _, rfl, ?_,
      Nat.zero_le _, Nat.zero_le _⟩
    · cases hoctet
    · cases hch
    · exact ⟨(fun heq ↦ by cases heq), fun hne ↦ absurd rfl hne⟩
  | append_singleton front ch ih =>
    rw [List.foldlM_append] at hread
    obtain ⟨before, hfront, hchar⟩ := Option.bind_eq_some_iff.mp hread
    obtain ⟨octets, digits, rfl, h⟩ := ih hfront
    rw [List.foldlM_cons] at hchar
    obtain ⟨next, hnext, hsame⟩ := Option.bind_eq_some_iff.mp hchar
    cases hsame
    exact h.char hnext

/-- `inet_pton4` accepts four decimal numbers of at most 255 with dots between them, and nothing
else. -/
theorem inetPton4_eq_some_iff (src : Text) (dst : List Byte) :
    inetPton4 src = some dst ↔
      ∃ a b c d : Text, IsOctet a ∧ IsOctet b ∧ IsOctet c ∧ IsOctet d ∧
        src = a ++ '.' :: (b ++ '.' :: (c ++ '.' :: d)) ∧
        dst = [octetByte a, octetByte b, octetByte c, octetByte d] := by
  constructor
  · intro hpton
    unfold inetPton4 at hpton
    split at hpton
    · next s hread =>
      obtain ⟨octets, digits, rfl, h⟩ := read4_of_foldlM hread
      split_ifs at hpton with hfew
      cases hpton
      have hoctets := h.octets_eq
      have hdots := h.dots_le
      have hbool := Bool.toNat_le s.sawDigit
      have hsaw : s.sawDigit = true := by
        rw [← Bool.toNat_eq_one]
        omega
      have hthree : octets.length = 3 := by
        rw [hsaw, Bool.toNat_true] at hoctets
        omega
      obtain ⟨a, b, c, rfl⟩ := List.length_eq_three.mp hthree
      have hall := h.octet
      simp only [List.forall_mem_cons, List.not_mem_nil, false_implies, implies_true, and_true] at hall
      refine ⟨a, b, c, digits, hall.1, hall.2.1, hall.2.2,
        ⟨h.saw_iff.mp hsaw, h.isDigit, h.tp_eq ▸ h.tp_le⟩, ?_, ?_⟩
      · simp only [dottedFront, List.flatMap_cons, List.flatMap_nil, List.append_assoc,
          List.cons_append, List.nil_append]
      · rw [h.tmp_eq, h.tp_eq]
        rfl
    · cases hpton
  · rintro ⟨a, b, c, d, ha, hb, hc, hd, rfl, rfl⟩
    exact inetPton4_octets ha hb hc hd

theorem isOctet_decimal (byte : Byte) : IsOctet (decimal byte.toNat) where
  ne_nil := Nat.toDigits_ne_nil
  isDigit _ := isDigit_of_mem_decimal
  le := by
    rw [decimal, Nat.ofDigitChars_ten_toDigits]
    exact Nat.le_of_lt_succ byte.isLt

theorem octetByte_decimal (byte : Byte) : octetByte (decimal byte.toNat) = byte := by
  rw [octetByte, decimal, Nat.ofDigitChars_ten_toDigits, BitVec.ofNat_toNat, BitVec.setWidth_eq]

theorem inetPton4_text (address : Ipv4Address) : inetPton4 address.text = some address.bytes := by
  have hread := inetPton4_octets (isOctet_decimal address.a) (isOctet_decimal address.b)
    (isOctet_decimal address.c) (isOctet_decimal address.d)
  simp only [octetByte_decimal] at hread
  exact hread

/-! ### Groups of hexadecimal digits -/

/-- A hexadecimal number of at most `ffff`, with any number of leading zeros. -/
structure IsGroup (digits : Text) : Prop where
  ne_nil : digits ≠ []
  isHex : IsHex digits
  le : hexValue 0 digits ≤ 0xffff

/-- The bytes that a group is read as. -/
def groupBytes (digits : Text) : List Byte := wordBytes (hexValue 0 digits)

/-- Groups with colons between them. -/
def joined : List Text → Text
  | [] => []
  | [group] => group
  | group :: next :: groups => group ++ ':' :: joined (next :: groups)

theorem shiftLeft_or_digit {digit : ℕ} (hlt : digit < 16) (val : ℕ) :
    val <<< 4 ||| digit = 16 * val + digit := by
  rw [← Nat.shiftLeft_add_eq_or_of_lt hlt, Nat.shiftLeft_eq, Nat.mul_comm]

/-- A digit is read. -/
theorem pton6Loop_digit {ch : Char} (hhex : (hexDigit ch).isSome = true) (rest : Text) {s : Pton6}
    (hle : hexValue s.val [ch] ≤ 0xffff) :
    pton6Loop (ch :: rest) s =
      pton6Loop rest { s with sawXdigit := true, val := hexValue s.val [ch] } := by
  obtain ⟨digit, hdigit⟩ := Option.isSome_iff_exists.mp hhex
  have hvalue : s.val <<< 4 ||| digit = hexValue s.val [ch] := by
    rw [shiftLeft_or_digit (hexDigit_lt hdigit)]
    simp only [hexValue, List.foldl_cons, List.foldl_nil, hdigit, Option.getD_some]
  rw [pton6Loop]
  simp only [hdigit, hvalue]
  rw [if_neg (Nat.not_lt.mpr hle)]

/-- Digits are read. -/
theorem pton6Loop_digits {digits : Text} (hhex : IsHex digits) (rest : Text) {s : Pton6}
    (hsaw : s.sawXdigit = true) (hle : hexValue s.val digits ≤ 0xffff) :
    pton6Loop (digits ++ rest) s = pton6Loop rest { s with val := hexValue s.val digits } := by
  induction digits generalizing s with
  | nil => rfl
  | cons ch digits ih =>
    obtain ⟨hfirst, hrest⟩ := List.forall_mem_cons.mp hhex
    have hsplit : hexValue s.val (ch :: digits) = hexValue (hexValue s.val [ch]) digits := rfl
    rw [hsplit] at hle ⊢
    rw [List.cons_append, pton6Loop_digit hfirst _ ((le_hexValue _ digits).trans hle),
      ih hrest rfl hle, hsaw]

/-- A group is read. -/
theorem pton6Loop_group {group : Text} (hgroup : IsGroup group) (tmp : List Byte)
    (colonp : Option ℕ) (curtok rest : Text) :
    pton6Loop (group ++ rest) ⟨tmp, colonp, curtok, false, 0⟩ =
      pton6Loop rest ⟨tmp, colonp, curtok, true, hexValue 0 group⟩ := by
  obtain ⟨hne, hhex, hle⟩ := hgroup
  cases group with
  | nil => exact absurd rfl hne
  | cons ch digits =>
    obtain ⟨hfirst, hrest⟩ := List.forall_mem_cons.mp hhex
    have hsplit : hexValue 0 (ch :: digits) = hexValue (hexValue 0 [ch]) digits := rfl
    rw [hsplit] at hle ⊢
    rw [List.cons_append, pton6Loop_digit hfirst _ ((le_hexValue _ digits).trans hle),
      pton6Loop_digits hrest rest rfl hle]

/-- A group and the colon after it. -/
theorem pton6Read_group {group : Text} (hgroup : IsGroup group) {tmp : List Byte}
    (hroom : tmp.length + int16sz ≤ in6addrsz) (colonp : Option ℕ) (rest : Text) :
    pton6Read tmp colonp (group ++ ':' :: rest) = pton6Read (tmp ++ groupBytes group) colonp rest := by
  have hcolon : hexDigit ':' = none := by decide
  rw [pton6Read, pton6Loop_group hgroup, pton6Loop]
  simp only [hcolon, if_true]
  rw [if_neg (Nat.not_lt.mpr hroom)]
  rfl

/-- A colon without a group before it. -/
theorem pton6Read_colon (tmp : List Byte) (rest : Text) :
    pton6Read tmp none (':' :: rest) = pton6Read tmp (some tmp.length) rest := by
  have hcolon : hexDigit ':' = none := by decide
  rw [pton6Read, pton6Loop]
  simp only [hcolon, if_true, Bool.false_eq_true, if_false, Option.isSome_none]
  rfl

/-- What is left to do with the bytes of an address. -/
def finish (tmp : List Byte) (colonp : Option ℕ) : Option (List Byte) :=
  pton6Finish ⟨tmp, colonp, [], false, 0⟩

theorem pton6Read_nil (tmp : List Byte) (colonp : Option ℕ) :
    pton6Read tmp colonp [] = finish tmp colonp := rfl

/-- The last group. -/
theorem pton6Read_last {group : Text} (hgroup : IsGroup group) {tmp : List Byte}
    (hroom : tmp.length + int16sz ≤ in6addrsz) (colonp : Option ℕ) :
    pton6Read tmp colonp group = finish (tmp ++ groupBytes group) colonp := by
  have hloop := pton6Loop_group hgroup tmp colonp group []
  have hlast : pton6Last ⟨tmp, colonp, group, true, hexValue 0 group⟩ =
      some ⟨tmp ++ groupBytes group, colonp, group, true, hexValue 0 group⟩ :=
    if_neg (Nat.not_lt.mpr hroom)
  rw [List.append_nil] at hloop
  rw [pton6Read, hloop, pton6Loop, Option.bind_some, hlast]
  rfl

/-- Decimal digits of an octet are a group. -/
theorem isGroup_decimal (byte : Byte) : IsGroup (decimal byte.toNat) where
  ne_nil := Nat.toDigits_ne_nil
  isHex := isHex_decimal _
  le := by
    have hlength : (decimal byte.toNat).length ≤ 3 :=
      (Nat.length_toDigits_le_iff (by decide) (by decide)).mpr (Nat.lt_trans byte.isLt (by decide))
    have hpow : 16 ^ (decimal byte.toNat).length ≤ 16 ^ 3 := Nat.pow_le_pow_right (by decide) hlength
    have hlt := hexValue_lt (decimal byte.toNat)
    omega

/-- The last four bytes as an IPv4 address. -/
theorem pton6Read_text (address : Ipv4Address) {tmp : List Byte} (hroom : tmp.length + inaddrsz ≤ in6addrsz)
    (colonp : Option ℕ) :
    pton6Read tmp colonp address.text = finish (tmp ++ address.bytes) colonp := by
  have hdot : hexDigit '.' = none := by decide
  have htext : address.text = decimal address.a.toNat ++ '.' :: (decimal address.b.toNat ++
      '.' :: (decimal address.c.toNat ++ '.' :: decimal address.d.toNat)) := rfl
  have hpton := inetPton4_text address
  rw [pton6Read]
  rw [htext] at hpton ⊢
  rw [pton6Loop_group (isGroup_decimal address.a), pton6Loop]
  simp only [hdot, hpton]
  rw [if_neg (by decide), if_pos ⟨trivial, hroom⟩]
  rfl

/-- Groups with a colon after each. -/
theorem pton6Read_joined_colon {groups : List Text} (hgroups : ∀ group ∈ groups, IsGroup group)
    (hne : groups ≠ []) {tmp : List Byte} (hroom : tmp.length + 2 * groups.length ≤ in6addrsz)
    (colonp : Option ℕ) (rest : Text) :
    pton6Read tmp colonp (joined groups ++ ':' :: rest) =
      pton6Read (tmp ++ groups.flatMap groupBytes) colonp rest := by
  induction groups generalizing tmp with
  | nil => exact absurd rfl hne
  | cons group groups ih =>
    obtain ⟨hfirst, hrest⟩ := List.forall_mem_cons.mp hgroups
    rw [List.length_cons] at hroom
    have hread := pton6Read_group hfirst (Nat.le_trans (by omega) hroom : tmp.length + 2 ≤ in6addrsz)
    cases groups with
    | nil =>
      rw [joined, hread, List.flatMap_cons, List.flatMap_nil, List.append_nil]
    | cons next groups =>
      have hlength : (tmp ++ groupBytes group).length = tmp.length + 2 := List.length_append
      rw [joined, List.append_assoc, List.cons_append, hread,
        ih hrest (List.cons_ne_nil _ _) (by rw [hlength]; omega), List.append_assoc tmp]
      rfl

/-- Groups up to the end of the text. -/
theorem pton6Read_joined {groups : List Text} (hgroups : ∀ group ∈ groups, IsGroup group)
    {tmp : List Byte} (hroom : tmp.length + 2 * groups.length ≤ in6addrsz) (colonp : Option ℕ) :
    pton6Read tmp colonp (joined groups) = finish (tmp ++ groups.flatMap groupBytes) colonp := by
  induction groups generalizing tmp with
  | nil => rw [joined, pton6Read_nil, List.flatMap_nil, List.append_nil]
  | cons group groups ih =>
    obtain ⟨hfirst, hrest⟩ := List.forall_mem_cons.mp hgroups
    rw [List.length_cons] at hroom
    have hone : tmp.length + 2 ≤ in6addrsz := Nat.le_trans (by omega) hroom
    cases groups with
    | nil =>
      rw [joined, pton6Read_last hfirst hone, List.flatMap_cons, List.flatMap_nil, List.append_nil]
    | cons next groups =>
      have hlength : (tmp ++ groupBytes group).length = tmp.length + 2 := List.length_append
      rw [joined, pton6Read_group hfirst hone, ih hrest (by rw [hlength]; omega),
        List.append_assoc tmp]
      rfl

/-! ### The shift -/

theorem set_append_cons {α : Type*} (first : List α) (old new : α) (second : List α) :
    (first ++ old :: second).set first.length new = first ++ new :: second := by
  rw [List.set_append_right _ _ (Nat.le_refl _), Nat.sub_self, List.set_cons_zero]

theorem getD_append_cons {α : Type*} (first : List α) (a other : α) (second : List α) :
    (first ++ a :: second).getD first.length other = a := by
  rw [List.getD_eq_getElem?_getD, List.getElem?_append_right (Nat.le_refl _), Nat.sub_self,
    List.getElem?_cons_zero, Option.getD_some]

/-- A round of the shift takes the last byte that is left over the gap. -/
theorem shift_round (front : List Byte) (byte : Byte) (gap : ℕ) (back : List Byte) :
    ((front ++ byte :: (List.replicate gap 0 ++ 0 :: back)).set (front.length + 1 + gap)
      byte).set front.length 0 = front ++ List.replicate (gap + 1) 0 ++ byte :: back := by
  have hlength : front.length + 1 + gap = (front ++ byte :: List.replicate gap 0).length := by
    rw [List.length_append, List.length_cons, List.length_replicate]
    omega
  have hsplit : front ++ byte :: (List.replicate gap 0 ++ 0 :: back) =
      (front ++ byte :: List.replicate gap 0) ++ 0 :: back := by
    rw [List.append_assoc, List.cons_append]
  rw [hsplit, hlength, set_append_cons, List.append_assoc, List.cons_append, set_append_cons,
    List.replicate_succ, List.append_assoc, List.cons_append]

/-- With bytes missing, the shift moves those after the colons to the end. -/
theorem shift_of_gap (front after : List Byte) {gap : ℕ}
    (hlength : front.length + after.length + (gap + 1) = in6addrsz) {i : ℕ} (hi : i ≤ after.length) :
    shift front.length after.length (front ++ after ++ List.replicate (gap + 1) 0) i =
      front ++ after.take (after.length - i) ++ List.replicate (gap + 1) 0 ++
        after.drop (after.length - i) := by
  induction i with
  | zero => rw [shift, Nat.sub_zero, List.take_length, List.drop_length, List.append_nil]
  | succ i ih =>
    obtain ⟨m, hm⟩ : ∃ m, after.length - i = m + 1 := ⟨after.length - i - 1, by omega⟩
    have hnext : after.length - (i + 1) = m := by omega
    have hlt : m < after.length := by omega
    have hfront : (front ++ after.take m).length = front.length + m := by
      rw [List.length_append, List.length_take_of_le (Nat.le_of_lt hlt)]
    have hbefore : front ++ after.take (m + 1) ++ List.replicate (gap + 1) 0 ++ after.drop (m + 1) =
        (front ++ after.take m) ++
          after[m] :: (List.replicate gap 0 ++ 0 :: after.drop (m + 1)) := by
      rw [List.take_succ_eq_append_getElem hlt, List.replicate_succ']
      simp only [List.append_assoc, List.cons_append, List.nil_append]
    have hsource : front.length + after.length - (i + 1) = (front ++ after.take m).length := by omega
    have htarget : in6addrsz - (i + 1) = (front ++ after.take m).length + 1 + gap := by omega
    rw [shift, ih (Nat.le_of_succ_le hi), hm, hnext, hbefore]
    rw [hsource, htarget, getD_append_cons, shift_round, List.drop_eq_getElem_cons hlt]

/-- With all bytes there, the shift fills those after the colons with zeros. -/
theorem shift_of_full (front after : List Byte) (hlength : front.length + after.length = in6addrsz)
    {i : ℕ} (hi : i ≤ after.length) :
    shift front.length after.length (front ++ after) i =
      front ++ after.take (after.length - i) ++ List.replicate i 0 := by
  induction i with
  | zero => rw [shift, Nat.sub_zero, List.take_length, List.replicate_zero, List.append_nil]
  | succ i ih =>
    obtain ⟨m, hm⟩ : ∃ m, after.length - i = m + 1 := ⟨after.length - i - 1, by omega⟩
    have hnext : after.length - (i + 1) = m := by omega
    have hlt : m < after.length := by omega
    have hfront : (front ++ after.take m).length = front.length + m := by
      rw [List.length_append, List.length_take_of_le (Nat.le_of_lt hlt)]
    have hbefore : front ++ after.take (m + 1) ++ List.replicate i 0 =
        (front ++ after.take m) ++ after[m] :: List.replicate i 0 := by
      rw [List.take_succ_eq_append_getElem hlt]
      simp only [List.append_assoc, List.cons_append, List.nil_append]
    -- a byte is copied onto itself, and then its place is cleared
    have hsource : front.length + after.length - (i + 1) = (front ++ after.take m).length := by omega
    have htarget : in6addrsz - (i + 1) = (front ++ after.take m).length := by omega
    rw [shift, ih (Nat.le_of_succ_le hi), hm, hnext, hbefore]
    rw [hsource, htarget, set_append_cons, set_append_cons, List.replicate_succ]

/-- The bytes of an address with a shorthand after the first of them. -/
theorem finish_colonp {front after : List Byte} (hle : front.length + after.length ≤ in6addrsz) :
    finish (front ++ after) (some front.length) =
      some (front ++
        if front.length + after.length < in6addrsz then
          List.replicate (in6addrsz - (front.length + after.length)) 0 ++ after
        else List.replicate after.length 0) := by
  have hcount : front.length + after.length - front.length = after.length :=
    Nat.add_sub_cancel_left ..
  simp only [finish, pton6Finish, List.length_append, hcount]
  congr 1
  by_cases hgap : front.length + after.length < in6addrsz
  · obtain ⟨gap, heq⟩ : ∃ gap, in6addrsz - (front.length + after.length) = gap + 1 :=
      ⟨in6addrsz - (front.length + after.length) - 1, by omega⟩
    rw [if_pos hgap, heq, shift_of_gap front after (by omega) (Nat.le_refl _), Nat.sub_self,
      List.take_zero, List.drop_zero, List.append_nil, List.append_assoc]
  · have hzero : in6addrsz - (front.length + after.length) = 0 := by omega
    rw [if_neg hgap, hzero, List.replicate_zero, List.append_nil,
      shift_of_full front after (by omega) (Nat.le_refl _), Nat.sub_self, List.take_zero,
      List.append_nil]

theorem finish_none {tmp : List Byte} (hlength : tmp.length = in6addrsz) :
    finish tmp none = some tmp := by
  simp only [finish, pton6Finish, hlength, Nat.sub_self, List.replicate_zero, List.append_nil, ne_eq,
    not_true_eq_false, if_false]

/-! ### Addresses with and without the shorthand -/

theorem joined_head {groups : List Text} (hgroups : ∀ group ∈ groups, IsGroup group)
    (hne : groups ≠ []) : ∃ (ch : Char) (rest : Text), joined groups = ch :: rest ∧ ch ≠ ':' := by
  cases groups with
  | nil => exact absurd rfl hne
  | cons group groups =>
    obtain ⟨hgroup, hhex, -⟩ := hgroups group (List.mem_cons_self ..)
    cases group with
    | nil => exact absurd rfl hgroup
    | cons ch digits =>
      have hch : ch ≠ ':' := by
        rintro rfl
        exact absurd (hhex ':' (List.mem_cons_self ..)) (by decide)
      cases groups with
      | nil => exact ⟨ch, digits, rfl, hch⟩
      | cons next groups => exact ⟨ch, _, rfl, hch⟩

/-- A text that does not begin with a colon is read from its first token. -/
theorem inetPton6_eq {ch : Char} (rest : Text) (hch : ch ≠ ':') :
    inetPton6 (ch :: rest) = pton6Read [] none (ch :: rest) := by
  unfold inetPton6
  split
  · next heq =>
    cases heq
    exact absurd rfl hch
  · next heq =>
    cases heq
    exact absurd rfl hch
  · rfl

/-- The bytes of groups. -/
theorem length_flatMap_groupBytes (groups : List Text) :
    (groups.flatMap groupBytes).length = 2 * groups.length := by
  induction groups with
  | nil => rfl
  | cons group groups ih =>
    have htwo : (groupBytes group).length = 2 := rfl
    rw [List.flatMap_cons, List.length_append, ih, List.length_cons, htwo]
    omega

/-- Groups, the shorthand, and what comes after it. -/
theorem inetPton6_shorthand {before : List Text} (hbefore : ∀ group ∈ before, IsGroup group)
    (hroom : 2 * before.length ≤ in6addrsz) (tail : Text) :
    inetPton6 (joined before ++ ':' :: ':' :: tail) =
      pton6Read (before.flatMap groupBytes) (some (before.flatMap groupBytes).length) tail := by
  cases hgroups : before with
  | nil => exact pton6Read_colon [] tail
  | cons group groups =>
    have hne : before ≠ [] := by
      rw [hgroups]
      exact List.cons_ne_nil _ _
    rw [← hgroups]
    obtain ⟨ch, rest, hjoined, hch⟩ := joined_head hbefore hne
    have hempty : ([] : List Byte).length + 2 * before.length ≤ in6addrsz := by
      rw [List.length_nil, Nat.zero_add]
      exact hroom
    have hread := pton6Read_joined_colon hbefore hne hempty none (':' :: tail)
    rw [hjoined, List.cons_append] at hread ⊢
    rw [inetPton6_eq _ hch, hread, pton6Read_colon, List.nil_append]

/-- A shorthand stands for the groups that are missing, and where none is missing the groups after it are
read as zeros. -/
theorem inetPton6_colons {before after : List Text} (hbefore : ∀ group ∈ before, IsGroup group)
    (hafter : ∀ group ∈ after, IsGroup group)
    (hle : 2 * (before.length + after.length) ≤ in6addrsz) :
    inetPton6 (joined before ++ ':' :: ':' :: joined after) =
      some (before.flatMap groupBytes ++
        if 2 * (before.length + after.length) < in6addrsz then
          List.replicate (in6addrsz - 2 * (before.length + after.length)) 0 ++ after.flatMap groupBytes
        else List.replicate (2 * after.length) 0) := by
  have hfirst := length_flatMap_groupBytes before
  have hsecond := length_flatMap_groupBytes after
  rw [inetPton6_shorthand hbefore (by omega), pton6Read_joined hafter (by omega),
    finish_colonp (by omega), hfirst, hsecond, Nat.mul_add]

theorem isGroup_singletons {digits : Text}
    (hdigits : digits.all (fun ch ↦ (hexDigit ch).isSome) = true) :
    ∀ group ∈ digits.map fun ch ↦ [ch], IsGroup group := by
  intro group hgroup
  obtain ⟨ch, hch, rfl⟩ := List.mem_map.mp hgroup
  have hhex := List.all_eq_true.mp hdigits ch hch
  have hlt : hexValue 0 [ch] < 16 := hexValue_lt [ch]
  exact ⟨List.cons_ne_nil ch [], fun ch' hmem ↦ List.mem_singleton.mp hmem ▸ hhex, by omega⟩

/-- The last four groups of an address with a shorthand for none. -/
theorem inetPton6_colons_full :
    inetPton6 "1:2:3:4::5:6:7:8".toList = some [0, 1, 0, 2, 0, 3, 0, 4, 0, 0, 0, 0, 0, 0, 0, 0] :=
  @inetPton6_colons [['1'], ['2'], ['3'], ['4']] [['5'], ['6'], ['7'], ['8']]
    (@isGroup_singletons ['1', '2', '3', '4'] (by decide))
    (@isGroup_singletons ['5', '6', '7', '8'] (by decide)) (by decide)

/-- Eight groups are read as they are, also with a colon after them. -/
theorem inetPton6_joined {groups : List Text} (hgroups : ∀ group ∈ groups, IsGroup group)
    (hlength : groups.length = 8) :
    inetPton6 (joined groups) = some (groups.flatMap groupBytes) ∧
      inetPton6 (joined groups ++ [':']) = some (groups.flatMap groupBytes) := by
  have hne : groups ≠ [] := by
    rintro rfl
    cases hlength
  have hbytes := length_flatMap_groupBytes groups
  have hroom : ([] : List Byte).length + 2 * groups.length ≤ in6addrsz := by
    rw [hlength]
    exact Nat.le_refl 16
  have hfull : finish (groups.flatMap groupBytes) none = some (groups.flatMap groupBytes) := by
    refine finish_none ?_
    rw [hbytes, hlength]
    rfl
  have hread := pton6Read_joined hgroups hroom none
  have hcolon := pton6Read_joined_colon hgroups hne hroom none []
  obtain ⟨ch, rest, hjoined, hch⟩ := joined_head hgroups hne
  rw [hjoined] at hread hcolon ⊢
  rw [List.cons_append] at hcolon ⊢
  rw [inetPton6_eq _ hch, inetPton6_eq _ hch, hread, hcolon, List.nil_append, pton6Read_nil]
  exact ⟨hfull, hfull⟩

/-! ### The words of an address -/

theorem word_eq (high low : Byte) : high.toNat <<< 8 ||| low.toNat = 256 * high.toNat + low.toNat := by
  rw [← Nat.shiftLeft_add_eq_or_of_lt low.isLt, Nat.shiftLeft_eq, Nat.mul_comm]

theorem wordBytes_word (high low : Byte) : wordBytes (high.toNat <<< 8 ||| low.toNat) = [high, low] := by
  have hhigh := high.isLt
  have hlow := low.isLt
  have hfirst : BitVec.ofNat 8 ((256 * high.toNat + low.toNat) >>> 8) = high := by
    apply BitVec.eq_of_toNat_eq
    rw [BitVec.toNat_ofNat, Nat.shiftRight_eq_div_pow]
    omega
  have hsecond : BitVec.ofNat 8 (256 * high.toNat + low.toNat) = low := by
    apply BitVec.eq_of_toNat_eq
    rw [BitVec.toNat_ofNat]
    omega
  rw [word_eq, wordBytes, hfirst, hsecond]

/-- An even number of bytes makes half as many words, of two bytes each. -/
theorem wordsOf_spec {count : ℕ} {bytes : List Byte} (hlength : bytes.length = 2 * count) :
    (wordsOf bytes).length = count ∧ (wordsOf bytes).flatMap wordBytes = bytes ∧
      ∀ word ∈ wordsOf bytes, word ≤ 0xffff := by
  induction count generalizing bytes with
  | zero =>
    obtain rfl := List.eq_nil_of_length_eq_zero hlength
    exact ⟨rfl, rfl, fun _ hword ↦ by cases hword⟩
  | succ count ih =>
    rcases bytes with _ | ⟨high, _ | ⟨low, rest⟩⟩
    · simp only [List.length_nil] at hlength
      omega
    · simp only [List.length_cons, List.length_nil] at hlength
      omega
    · simp only [List.length_cons] at hlength
      obtain ⟨hwords, hbytes, hbound⟩ := ih (by omega : rest.length = 2 * count)
      refine ⟨?_, ?_, ?_⟩
      · rw [wordsOf, List.length_cons, hwords]
      · rw [wordsOf, List.flatMap_cons, hbytes, wordBytes_word]
        rfl
      · rw [wordsOf, List.forall_mem_cons]
        refine ⟨?_, hbound⟩
        have hhigh := high.isLt
        have hlow := low.isLt
        rw [word_eq]
        omega

theorem isGroup_hexadecimal {word : ℕ} (hle : word ≤ 0xffff) : IsGroup (hexadecimal word) where
  ne_nil := hexadecimal_ne_nil word
  isHex := isHex_hexadecimal word
  le := by
    rw [hexValue_hexadecimal]
    exact hle

theorem flatMap_groupBytes_map (words : List ℕ) :
    (words.map hexadecimal).flatMap groupBytes = words.flatMap wordBytes := by
  rw [List.flatMap_map]
  refine List.flatMap_congr fun word _ ↦ ?_
  rw [groupBytes, hexValue_hexadecimal]

/-! ### The text of an address -/

variable {src : In6Addr} {best : Option Span}

/-- Words as groups, each after a colon. -/
def colonGroups (words : List ℕ) : Text := words.flatMap fun word ↦ ':' :: hexadecimal word

theorem joined_cons (word : ℕ) (words : List ℕ) :
    joined ((word :: words).map hexadecimal) = hexadecimal word ++ colonGroups words := by
  induction words generalizing word with
  | nil => rw [colonGroups, List.flatMap_nil, List.append_nil]; rfl
  | cons next words ih =>
    have hnext := ih next
    rw [List.map_cons] at hnext
    rw [List.map_cons, List.map_cons, joined, hnext]
    rfl

/-- Words that are neither left out nor those of an encapsulated address. -/
theorem ntop6Loop_outside {front : List ℕ} (rest : List ℕ) {i : ℕ} (hpos : i ≠ 0)
    (hplain : ∀ k, i ≤ k → k < i + front.length →
      isInside best k = false ∧ isEncapsulated best (wordsOf src.bytes) k = false) (tmp : Text) :
    ntop6Loop src best i (front ++ rest) tmp =
      ntop6Loop src best (i + front.length) rest (tmp ++ colonGroups front) := by
  induction front generalizing i tmp with
  | nil => rw [colonGroups, List.flatMap_nil, List.append_nil]; rfl
  | cons word front ih =>
    rw [List.length_cons] at hplain ⊢
    obtain ⟨hinside, hencapsulated⟩ := hplain i (Nat.le_refl i) (by omega)
    rw [List.cons_append, ntop6Loop]
    simp only [hinside, hencapsulated, Bool.false_eq_true, if_false, if_pos hpos]
    have hindex : i + 1 + front.length = i + (front.length + 1) := by omega
    rw [ih (Nat.succ_ne_zero i : i + 1 ≠ 0) fun k hle hlt ↦ hplain k (by omega) (by omega), hindex]
    simp only [colonGroups, List.flatMap_cons, List.append_assoc, List.cons_append, List.nil_append]

/-- Words that are left out, past the first. -/
theorem ntop6Loop_inside {front rest : List ℕ} {i : ℕ}
    (hskipped : ∀ k, i ≤ k → k < i + front.length →
      isInside best k = true ∧ best.map Span.base ≠ some k) (tmp : Text) :
    ntop6Loop src best i (front ++ rest) tmp = ntop6Loop src best (i + front.length) rest tmp := by
  induction front generalizing i with
  | nil => rfl
  | cons word front ih =>
    rw [List.length_cons] at hskipped ⊢
    obtain ⟨hinside, hbase⟩ := hskipped i (Nat.le_refl i) (by omega)
    rw [List.cons_append, ntop6Loop]
    simp only [hinside, if_true, if_neg hbase]
    have hindex : i + 1 + front.length = i + (front.length + 1) := by omega
    rw [ih fun k hle hlt ↦ hskipped k (by omega) (by omega), hindex]

/-- The words before the shorthand, or all of them. -/
theorem ntop6Loop_front {front rest : List ℕ}
    (hplain : ∀ k, k < front.length →
      isInside best k = false ∧ isEncapsulated best (wordsOf src.bytes) k = false) :
    ntop6Loop src best 0 (front ++ rest) [] =
      ntop6Loop src best front.length rest (joined (front.map hexadecimal)) := by
  cases front with
  | nil => rfl
  | cons word front =>
    rw [List.length_cons] at hplain ⊢
    obtain ⟨hinside, hencapsulated⟩ := hplain 0 (Nat.succ_pos _)
    rw [List.cons_append, ntop6Loop]
    simp only [hinside, hencapsulated, Bool.false_eq_true, if_false, ne_eq, not_true_eq_false,
      List.nil_append, Nat.zero_add]
    rw [ntop6Loop_outside rest Nat.one_ne_zero fun k hle hlt ↦ hplain k (by omega), joined_cons,
      Nat.add_comm 1]

theorem length_wordsOf (src : In6Addr) : (wordsOf src.bytes).length = 8 :=
  (wordsOf_spec src.length_eq).1

/-- Without a run of zeros all words are written. -/
theorem ntop6Text_of_none (hbest : bestRun (wordsOf src.bytes) = none) :
    ntop6Text src = some (joined ((wordsOf src.bytes).map hexadecimal)) := by
  have hloop : ntop6Loop src none 0 (wordsOf src.bytes ++ []) [] = ntop6Loop src none
      (wordsOf src.bytes).length [] (joined ((wordsOf src.bytes).map hexadecimal)) :=
    ntop6Loop_front fun _ _ ↦ ⟨rfl, rfl⟩
  rw [List.append_nil, ntop6Loop] at hloop
  simp only [ntop6Text, hbest, hloop, isTrailing, Option.map_some, Bool.false_eq_true, if_false]

/-- The words up to the end of the run that is left out. -/
theorem ntop6Loop_run {b : Span} (hle : b.base + b.len ≤ (wordsOf src.bytes).length)
    (hpos : 0 < b.len) :
    ntop6Loop src (some b) 0 (wordsOf src.bytes) [] =
      ntop6Loop src (some b) (b.base + b.len) ((wordsOf src.bytes).drop (b.base + b.len))
        (joined (((wordsOf src.bytes).take b.base).map hexadecimal) ++ [':']) := by
  have hfront : ((wordsOf src.bytes).take b.base).length = b.base :=
    List.length_take_of_le (by omega)
  have hrun : (((wordsOf src.bytes).drop (b.base + 1)).take (b.len - 1)).length = b.len - 1 := by
    rw [List.length_take, List.length_drop]
    omega
  have hlt : b.base < (wordsOf src.bytes).length := by omega
  have hsplit : wordsOf src.bytes = (wordsOf src.bytes).take b.base ++
      (wordsOf src.bytes)[b.base] :: (((wordsOf src.bytes).drop (b.base + 1)).take (b.len - 1) ++
        (wordsOf src.bytes).drop (b.base + b.len)) := by
    have hdrop : (wordsOf src.bytes).drop (b.base + b.len) =
        ((wordsOf src.bytes).drop (b.base + 1)).drop (b.len - 1) := by
      rw [List.drop_drop]
      congr 1
      omega
    rw [hdrop, List.take_append_drop, ← List.drop_eq_getElem_cons hlt, List.take_append_drop]
  have hbefore : ∀ k, k < ((wordsOf src.bytes).take b.base).length →
      isInside (some b) k = false ∧ isEncapsulated (some b) (wordsOf src.bytes) k = false := by
    intro k hk
    rw [hfront] at hk
    have hbase : (b.base == 0) = false := beq_false_of_ne (by omega)
    have hinside : decide (b.base ≤ k) = false := decide_eq_false (by omega)
    simp only [isInside, isEncapsulated, hbase, hinside, Bool.false_and, Bool.and_false, and_self]
  have hskipped : ∀ k, b.base + 1 ≤ k →
      k < b.base + 1 + (((wordsOf src.bytes).drop (b.base + 1)).take (b.len - 1)).length →
        isInside (some b) k = true ∧ (some b).map Span.base ≠ some k := by
    intro k hle hlt
    rw [hrun] at hlt
    refine ⟨?_, ?_⟩
    · simp only [isInside, Bool.and_eq_true, decide_eq_true_eq]
      omega
    · rw [Option.map_some, ne_eq, Option.some.injEq]
      omega
  have hfirst : isInside (some b) b.base = true := by
    simp only [isInside, Bool.and_eq_true, decide_eq_true_eq]
    omega
  have hindex : b.base + 1 + (b.len - 1) = b.base + b.len := by omega
  calc ntop6Loop src (some b) 0 (wordsOf src.bytes) []
      = ntop6Loop src (some b) b.base ((wordsOf src.bytes)[b.base] ::
          (((wordsOf src.bytes).drop (b.base + 1)).take (b.len - 1) ++
            (wordsOf src.bytes).drop (b.base + b.len)))
          (joined (((wordsOf src.bytes).take b.base).map hexadecimal)) := by
        conv_lhs => rw [hsplit]
        rw [ntop6Loop_front hbefore, hfront]
    _ = ntop6Loop src (some b) (b.base + 1)
          (((wordsOf src.bytes).drop (b.base + 1)).take (b.len - 1) ++
            (wordsOf src.bytes).drop (b.base + b.len))
          (joined (((wordsOf src.bytes).take b.base).map hexadecimal) ++ [':']) := by
        rw [ntop6Loop]
        simp only [hfirst, if_true, Option.map_some]
    _ = ntop6Loop src (some b) (b.base + b.len) ((wordsOf src.bytes).drop (b.base + b.len))
          (joined (((wordsOf src.bytes).take b.base).map hexadecimal) ++ [':']) := by
        rw [ntop6Loop_inside hskipped, hrun, hindex]

/-- The last four bytes are written as an IPv4 address. -/
def Encapsulates (b : Span) (words : List ℕ) : Prop :=
  b.base = 0 ∧ (b.len = 6 ∨ b.len = 5 ∧ words[5]? = some 0xffff)

instance (b : Span) (words : List ℕ) : Decidable (Encapsulates b words) :=
  inferInstanceAs (Decidable (_ ∧ _))

theorem isEncapsulated_eq_false {b : Span} {words : List ℕ} (hnot : ¬ Encapsulates b words) (k : ℕ) :
    isEncapsulated (some b) words k = false := by
  rw [Bool.eq_false_iff]
  intro hencapsulated
  simp only [isEncapsulated, Bool.and_eq_true, Bool.or_eq_true, beq_iff_eq] at hencapsulated
  exact hnot ⟨hencapsulated.1.2, hencapsulated.2⟩

theorem bestRun_spec {words : List ℕ} {b : Span} (hbest : bestRun words = some b) :
    IsRun (· == 0) words b ∧ 2 ≤ b.len := by
  unfold bestRun at hbest
  split at hbest
  · next found hfound =>
    split_ifs at hbest with hshort
    cases hbest
    exact ⟨isRun_longestRun hfound, Nat.not_lt.mp hshort⟩
  · cases hbest

/-- Two colons stand for the words that are left out. -/
theorem ntop6Text_of_run {b : Span} (hbest : bestRun (wordsOf src.bytes) = some b)
    (hnot : ¬ Encapsulates b (wordsOf src.bytes)) :
    ntop6Text src = some (joined (((wordsOf src.bytes).take b.base).map hexadecimal) ++
      ':' :: ':' :: joined (((wordsOf src.bytes).drop (b.base + b.len)).map hexadecimal)) := by
  obtain ⟨hrun, htwo⟩ := bestRun_spec hbest
  have hlength := length_wordsOf src
  have hle := hrun.le
  have hafter : ∀ k, b.base + b.len ≤ k →
      k < b.base + b.len + ((wordsOf src.bytes).drop (b.base + b.len)).length →
        isInside (some b) k = false ∧ isEncapsulated (some b) (wordsOf src.bytes) k = false := by
    intro k hfrom _
    have hinside : decide (k < b.base + b.len) = false := decide_eq_false (by omega)
    refine ⟨?_, isEncapsulated_eq_false hnot k⟩
    simp only [isInside, hinside, Bool.and_false]
  have hloop := ntop6Loop_outside [] (by omega) hafter
    (joined (((wordsOf src.bytes).take b.base).map hexadecimal) ++ [':'])
  rw [List.append_nil, ntop6Loop, ← ntop6Loop_run hle hrun.pos] at hloop
  simp only [ntop6Text, hbest, hloop, Option.map_some, Option.some.injEq]
  cases hback : (wordsOf src.bytes).drop (b.base + b.len) with
  | nil =>
    have hall : b.base + b.len = 8 := by
      have hdrop := congrArg List.length hback
      rw [List.length_drop, List.length_nil] at hdrop
      omega
    have htrailing : isTrailing (some b) = true := by
      simp only [isTrailing, hall]
      rfl
    rw [if_pos htrailing]
    simp only [colonGroups, List.flatMap_nil, List.append_nil, List.map_nil, joined, List.append_assoc,
      List.cons_append, List.nil_append]
  | cons word back =>
    have hsome : b.base + b.len ≠ 8 := by
      intro hall
      have hdrop := congrArg List.length hback
      rw [List.length_drop, List.length_cons] at hdrop
      omega
    have htrailing : ¬ isTrailing (some b) = true := by
      intro htrailing
      exact hsome (beq_iff_eq.mp htrailing)
    rw [if_neg htrailing, joined_cons]
    simp only [colonGroups, List.flatMap_cons, List.append_assoc, List.cons_append, List.nil_append]

/-- The text of an IPv4 address and its null character fit into `tmp`. -/
theorem length_text_le (address : Ipv4Address) : address.text.length ≤ 15 := by
  have hthree (byte : Byte) : (decimal byte.toNat).length ≤ 3 :=
    (Nat.length_toDigits_le_iff (by decide) (by decide)).mpr (Nat.lt_trans byte.isLt (by decide))
  have ha := hthree address.a
  have hb := hthree address.b
  have hc := hthree address.c
  have hd := hthree address.d
  simp only [Ipv4Address.text, dotted, List.length_append, List.length_cons]
  omega

/-- What stands between the two colons and an encapsulated address. -/
def encapsulatedPrefix (b : Span) : Text := if b.len = 6 then [] else hexadecimal 0xffff ++ [':']

/-- The last round of the loop writes the encapsulated address. -/
theorem ntop6Loop_last {len : ℕ} (hlen : len ≤ 6)
    (hsix : isEncapsulated (some ⟨0, len⟩) (wordsOf src.bytes) 6 = true) {tmp : Text}
    (htmp : tmp.length ≤ 6) :
    ntop6Loop src (some ⟨0, len⟩) 6 ((wordsOf src.bytes).drop 6) tmp =
      some (tmp ++ ':' :: src.encapsulated.text) := by
  have hlength := length_wordsOf src
  have htext := length_text_le src.encapsulated
  have hlt : 6 < (wordsOf src.bytes).length := by omega
  have hafter : decide (6 < 0 + len) = false := decide_eq_false (by omega)
  have hinside : isInside (some ⟨0, len⟩) 6 = false := by
    simp only [isInside, hafter, Bool.and_false]
  have hfits : inetNtop4 src.encapsulated (sizeofTmp - (tmp ++ [':']).length) =
      some src.encapsulated.text := by
    refine if_neg ?_
    rw [List.length_append, List.length_singleton, sizeofTmp]
    omega
  rw [List.drop_eq_getElem_cons hlt, ntop6Loop]
  simp only [hinside, hsix, Bool.false_eq_true, if_false, if_true, ne_eq, OfNat.ofNat_ne_zero,
    not_false_eq_true, hfits, Option.map_some, List.append_assoc, List.cons_append, List.nil_append]

theorem ntop6Text_of_encapsulated {b : Span} (hbest : bestRun (wordsOf src.bytes) = some b)
    (h : Encapsulates b (wordsOf src.bytes)) :
    ntop6Text src = some (':' :: ':' :: (encapsulatedPrefix b ++ src.encapsulated.text)) := by
  obtain ⟨hrun, -⟩ := bestRun_spec hbest
  have hlength := length_wordsOf src
  obtain ⟨base, len⟩ := b
  obtain ⟨hbase, hlen⟩ := h
  simp only at hbase hlen
  subst hbase
  have hsix : isEncapsulated (some ⟨0, len⟩) (wordsOf src.bytes) 6 = true := by
    simp only [isEncapsulated, Bool.and_eq_true, Bool.or_eq_true, beq_iff_eq]
    exact ⟨⟨trivial, trivial⟩, hlen⟩
  have htrailing : ¬ isTrailing (some ⟨0, len⟩) = true := by
    intro htrailing
    have hall : 0 + len = 8 := beq_iff_eq.mp htrailing
    omega
  simp only [ntop6Text, hbest]
  rcases hlen with rfl | ⟨rfl, hword⟩
  · have hloop : ntop6Loop src (some ⟨0, 6⟩) 0 (wordsOf src.bytes) [] =
        ntop6Loop src (some ⟨0, 6⟩) 6 ((wordsOf src.bytes).drop 6) [':'] :=
      ntop6Loop_run hrun.le hrun.pos
    rw [hloop, ntop6Loop_last (Nat.le_refl 6) hsix (by decide), Option.map_some, if_neg htrailing]
    rfl
  · have hloop : ntop6Loop src (some ⟨0, 5⟩) 0 (wordsOf src.bytes) [] =
        ntop6Loop src (some ⟨0, 5⟩) 5 ((wordsOf src.bytes).drop 5) [':'] :=
      ntop6Loop_run hrun.le hrun.pos
    obtain ⟨hlt, hvalue⟩ := List.getElem?_eq_some_iff.mp hword
    have hgroup : ntop6Loop src (some ⟨0, 5⟩) 5 ((wordsOf src.bytes).drop 5) [':'] =
        ntop6Loop src (some ⟨0, 5⟩) 6 ((wordsOf src.bytes).drop 6)
          (':' :: ':' :: hexadecimal 0xffff) := by
      rw [List.drop_eq_getElem_cons hlt, ntop6Loop, hvalue]
      rfl
    rw [hloop, hgroup, ntop6Loop_last (Nat.le_succ 5) hsix (by decide), Option.map_some,
      if_neg htrailing]
    rfl

/-! ### What is written is read back -/

/-- The words of a run are zeros. -/
theorem take_drop_of_isRun {words : List ℕ} {b : Span} (hrun : IsRun (· == 0) words b) :
    (words.drop b.base).take b.len = List.replicate b.len 0 := by
  have hle := hrun.le
  refine List.eq_replicate_iff.mpr ⟨?_, fun word hword ↦ ?_⟩
  · rw [List.length_take, List.length_drop]
    omega
  · obtain ⟨i, hi⟩ := List.mem_iff_getElem?.mp hword
    have hlt : i < b.len := by
      have hshort := (List.getElem?_eq_some_iff.mp hi).1
      rw [List.length_take] at hshort
      omega
    rw [List.getElem?_take_of_lt hlt, List.getElem?_drop] at hi
    exact beq_iff_eq.mp (hrun.holds _ _ (Nat.le_add_right _ _) (by omega) hi)

theorem flatMap_wordBytes_replicate (count : ℕ) :
    (List.replicate count 0).flatMap wordBytes = List.replicate (2 * count) 0 := by
  induction count with
  | zero => rfl
  | succ count ih =>
    rw [List.replicate_succ, List.flatMap_cons, ih, Nat.mul_succ]
    rfl

/-- The bytes of an address whose words in a run are zeros. -/
theorem bytes_of_isRun {b : Span} (hrun : IsRun (· == 0) (wordsOf src.bytes) b) :
    src.bytes = ((wordsOf src.bytes).take b.base).flatMap wordBytes ++
      (List.replicate (2 * b.len) 0 ++
        ((wordsOf src.bytes).drop (b.base + b.len)).flatMap wordBytes) := by
  have hlength : src.bytes.length = 2 * 8 := src.length_eq
  have hbytes := (wordsOf_spec hlength).2.1
  have hsplit : wordsOf src.bytes = (wordsOf src.bytes).take b.base ++
      (List.replicate b.len 0 ++ (wordsOf src.bytes).drop (b.base + b.len)) := by
    rw [← take_drop_of_isRun hrun, ← List.drop_drop, List.take_append_drop, List.take_append_drop]
  rw [← flatMap_wordBytes_replicate, ← List.flatMap_append, ← List.flatMap_append, ← hsplit, hbytes]

/-- The last four bytes. -/
theorem drop_bytes (src : In6Addr) : src.bytes.drop 12 = src.encapsulated.bytes := by
  have hlength : (src.bytes.drop 12).length = 4 := by
    rw [List.length_drop, src.length_eq]
    rfl
  obtain ⟨a, b, c, d, heq⟩ := List.length_eq_four.mp hlength
  have hget (i : ℕ) : src.bytes.getD (12 + i) 0 = (src.bytes.drop 12).getD i 0 := by
    rw [List.getD_eq_getElem?_getD, List.getD_eq_getElem?_getD, List.getElem?_drop]
  have ha := hget 0
  have hb := hget 1
  have hc := hget 2
  have hd := hget 3
  rw [heq] at ha hb hc hd ⊢
  simp only [Ipv4Address.bytes, In6Addr.encapsulated]
  rw [show src.bytes.getD 12 0 = a from ha, show src.bytes.getD 13 0 = b from hb,
    show src.bytes.getD 14 0 = c from hc, show src.bytes.getD 15 0 = d from hd]

/-- The groups of words of an address, and the bytes that they are read as. -/
theorem isGroup_of_mem {words : List ℕ} (hbound : ∀ word ∈ words, word ≤ 0xffff) :
    ∀ group ∈ words.map hexadecimal, IsGroup group := by
  intro group hgroup
  obtain ⟨word, hword, rfl⟩ := List.mem_map.mp hgroup
  exact isGroup_hexadecimal (hbound word hword)

/-- Groups of at most four digits, each with a colon. -/
theorem length_joined_le {words : List ℕ} (hbound : ∀ word ∈ words, word ≤ 0xffff) :
    (joined (words.map hexadecimal)).length ≤ 5 * words.length := by
  have hfour : ∀ word ∈ words, (hexadecimal word).length ≤ 4 :=
    fun word hword ↦ length_hexadecimal_le (by decide) (Nat.lt_succ_of_le (hbound word hword))
  clear hbound
  induction words with
  | nil => exact Nat.le_refl 0
  | cons word words ih =>
    obtain ⟨hfirst, hrest⟩ := List.forall_mem_cons.mp hfour
    have hlength := ih hrest
    cases words with
    | nil =>
      simp only [List.map_cons, List.map_nil, joined, List.length_cons, List.length_nil]
      omega
    | cons next words =>
      simp only [List.map_cons, joined, List.length_append, List.length_cons] at hlength ⊢
      omega

/-- An encapsulated address is read back. -/
theorem inetPton6_encapsulated {b : Span} (hrun : IsRun (· == 0) (wordsOf src.bytes) b)
    (h : Encapsulates b (wordsOf src.bytes)) :
    inetPton6 (':' :: ':' :: (encapsulatedPrefix b ++ src.encapsulated.text)) = some src.bytes := by
  have hbytes := bytes_of_isRun hrun
  have hdrop := drop_bytes src
  obtain ⟨base, len⟩ := b
  obtain ⟨hbase, hlen⟩ := h
  simp only at hbase hlen hbytes
  subst hbase
  rw [List.take_zero, List.flatMap_nil, List.nil_append, Nat.zero_add] at hbytes
  have hread := pton6Read_colon [] (encapsulatedPrefix ⟨0, len⟩ ++ src.encapsulated.text)
  rcases hlen with rfl | ⟨rfl, hword⟩
  · have hlast : ((wordsOf src.bytes).drop 6).flatMap wordBytes = src.encapsulated.bytes := by
      rw [← hdrop]
      conv_rhs => rw [hbytes]
      exact (List.drop_left' (List.length_replicate)).symm
    rw [hlast] at hbytes
    have hfinish : finish src.encapsulated.bytes (some 0) =
        some (List.replicate 12 0 ++ src.encapsulated.bytes) :=
      @finish_colonp [] src.encapsulated.bytes (Nat.le_of_ble_eq_true rfl)
    calc inetPton6 (':' :: ':' :: ([] ++ src.encapsulated.text))
        = pton6Read [] (some 0) src.encapsulated.text := hread
      _ = finish src.encapsulated.bytes (some 0) := pton6Read_text src.encapsulated (by decide) (some 0)
      _ = some src.bytes := by
        rw [hbytes]
        exact hfinish
  · obtain ⟨hlt, hvalue⟩ := List.getElem?_eq_some_iff.mp hword
    rw [List.drop_eq_getElem_cons hlt, hvalue, List.flatMap_cons] at hbytes
    have hlast : ((wordsOf src.bytes).drop 6).flatMap wordBytes = src.encapsulated.bytes := by
      rw [← hdrop]
      conv_rhs => rw [hbytes]
      rfl
    rw [hlast] at hbytes
    have hfinish : finish (wordBytes 0xffff ++ src.encapsulated.bytes) (some 0) =
        some (List.replicate 10 0 ++ (wordBytes 0xffff ++ src.encapsulated.bytes)) :=
      @finish_colonp [] (wordBytes 0xffff ++ src.encapsulated.bytes) (Nat.le_of_ble_eq_true rfl)
    have hgroup : groupBytes (hexadecimal 0xffff) = wordBytes 0xffff :=
      congrArg wordBytes (hexValue_hexadecimal 0xffff)
    calc inetPton6 (':' :: ':' :: (hexadecimal 0xffff ++ [':'] ++ src.encapsulated.text))
        = pton6Read [] (some 0) (hexadecimal 0xffff ++ [':'] ++ src.encapsulated.text) := hread
      _ = pton6Read (wordBytes 0xffff) (some 0) src.encapsulated.text := by
        rw [List.append_assoc, ← hgroup]
        exact pton6Read_group (isGroup_hexadecimal (Nat.le_refl _)) (by decide) _ _
      _ = finish (wordBytes 0xffff ++ src.encapsulated.bytes) (some 0) :=
        pton6Read_text src.encapsulated (by decide) (some 0)
      _ = some src.bytes := by
        rw [hbytes]
        exact hfinish

/-- An address is written in no more than `tmp` holds, and what is written is read back as its bytes. -/
theorem ntop6Text_spec (src : In6Addr) :
    ∃ text, ntop6Text src = some text ∧ inetPton6 text = some src.bytes ∧ text.length < sizeofTmp := by
  have hlength : src.bytes.length = 2 * 8 := src.length_eq
  obtain ⟨hwords, hbytes, hbound⟩ := wordsOf_spec hlength
  cases hbest : bestRun (wordsOf src.bytes) with
  | none =>
    have hcount : ((wordsOf src.bytes).map hexadecimal).length = 8 := by
      rw [List.length_map, hwords]
    refine ⟨_, ntop6Text_of_none hbest, ?_, ?_⟩
    · rw [(inetPton6_joined (isGroup_of_mem hbound) hcount).1, flatMap_groupBytes_map, hbytes]
    · have hle := length_joined_le hbound
      rw [hwords] at hle
      exact Nat.lt_of_le_of_lt hle (by decide)
  | some b =>
    obtain ⟨hrun, htwo⟩ := bestRun_spec hbest
    have hle := hrun.le
    by_cases hencapsulated : Encapsulates b (wordsOf src.bytes)
    · refine ⟨_, ntop6Text_of_encapsulated hbest hencapsulated,
        inetPton6_encapsulated hrun hencapsulated, ?_⟩
      have htext := length_text_le src.encapsulated
      have hprefix : (encapsulatedPrefix b).length ≤ 5 := by
        unfold encapsulatedPrefix
        split_ifs <;> decide
      simp only [List.length_cons, List.length_append, sizeofTmp]
      omega
    · have hbefore : ∀ word ∈ (wordsOf src.bytes).take b.base, word ≤ 0xffff :=
        fun word hword ↦ hbound word (List.mem_of_mem_take hword)
      have hafter : ∀ word ∈ (wordsOf src.bytes).drop (b.base + b.len), word ≤ 0xffff :=
        fun word hword ↦ hbound word (List.mem_of_mem_drop hword)
      have hcount : (((wordsOf src.bytes).take b.base).map hexadecimal).length +
          (((wordsOf src.bytes).drop (b.base + b.len)).map hexadecimal).length = 8 - b.len := by
        rw [List.length_map, List.length_map, List.length_take, List.length_drop]
        omega
      refine ⟨_, ntop6Text_of_run hbest hencapsulated, ?_, ?_⟩
      · have hmissing : in6addrsz - 2 * (8 - b.len) = 2 * b.len := by
          simp only [in6addrsz]
          omega
        rw [inetPton6_colons (isGroup_of_mem hbefore) (isGroup_of_mem hafter)
          (by rw [hcount]; simp only [in6addrsz]; omega), hcount,
          if_pos (by simp only [in6addrsz]; omega), hmissing, flatMap_groupBytes_map,
          flatMap_groupBytes_map, ← bytes_of_isRun hrun]
      · have hfirst := length_joined_le hbefore
        have hsecond := length_joined_le hafter
        rw [List.length_map, List.length_map] at hcount
        simp only [List.length_append, List.length_cons, sizeofTmp]
        omega

/-- The text of an address fits into `tmp` with its null character, and `inet_pton6` reads it back as
the address. `inet_ntop6` gives this text, exactly if it and the null character fit into the buffer. -/
theorem inetPton6_inetNtop6 (src : In6Addr) :
    ∃ text, ntop6Text src = some text ∧ inetPton6 text = some src.bytes ∧
      text.length < sizeofTmp ∧
      ∀ size, inetNtop6 src size = if size < text.length + 1 then none else some text := by
  obtain ⟨text, htext, hread, hshort⟩ := ntop6Text_spec src
  refine ⟨text, htext, hread, hshort, fun size ↦ ?_⟩
  simp only [inetNtop6, htext]

/-- `inet_ntop4` gives text that `inet_pton4` reads back as the address, and writes past the end of the
buffer exactly if its size is the length of the text. -/
theorem inetNtop4_overruns_iff (src : Ipv4Address) (size : ℕ) :
    inetPton4 src.text = some src.bytes ∧
      (inetNtop4 src size = if size < src.text.length then none else some src.text) ∧
      ((∃ text, inetNtop4 src size = some text ∧ size < text.length + 1) ↔
        size = src.text.length) := by
  refine ⟨inetPton4_text src, rfl, ?_⟩
  constructor
  · rintro ⟨text, htext, hlt⟩
    unfold inetNtop4 at htext
    split_ifs at htext with hshort
    cases htext
    omega
  · rintro rfl
    exact ⟨src.text, if_neg (Nat.lt_irrefl _), Nat.lt_succ_self _⟩

/-- `inet_ntop6` writes all groups if no two zeros stand together. Otherwise it leaves out the first of
the longest runs of zeros; the last two groups are then written as an IPv4 address if the six before
them are left out, or five and the sixth is `ffff`. -/
theorem ntop6Text_canonical (src : In6Addr) :
    ((∀ span, IsRun (· == 0) (wordsOf src.bytes) span → span.len < 2) ∧
      ntop6Text src = some (joined ((wordsOf src.bytes).map hexadecimal))) ∨
    ∃ b, IsRun (· == 0) (wordsOf src.bytes) b ∧ 2 ≤ b.len ∧
      (∀ span, IsRun (· == 0) (wordsOf src.bytes) span →
        span.len < b.len ∨ span.len = b.len ∧ b.base ≤ span.base) ∧
      ntop6Text src = some (
        if Encapsulates b (wordsOf src.bytes) then
          ':' :: ':' :: (encapsulatedPrefix b ++ src.encapsulated.text)
        else
          joined (((wordsOf src.bytes).take b.base).map hexadecimal) ++
            ':' :: ':' :: joined (((wordsOf src.bytes).drop (b.base + b.len)).map hexadecimal)) := by
  cases hbest : bestRun (wordsOf src.bytes) with
  | none =>
    refine .inl ⟨fun span hspan ↦ ?_, ntop6Text_of_none hbest⟩
    obtain ⟨b, hfound, hlonger⟩ := longestRun_dominates hspan
    simp only [bestRun, hfound] at hbest
    split_ifs at hbest with hshort
    omega
  | some b =>
    obtain ⟨hrun, htwo⟩ := bestRun_spec hbest
    refine .inr ⟨b, hrun, htwo, fun span hspan ↦ ?_, ?_⟩
    · obtain ⟨found, hfound, hlonger⟩ := longestRun_dominates hspan
      simp only [bestRun, hfound] at hbest
      split_ifs at hbest
      cases hbest
      exact hlonger
    · by_cases hencapsulated : Encapsulates b (wordsOf src.bytes)
      · rw [if_pos hencapsulated]
        exact ntop6Text_of_encapsulated hbest hencapsulated
      · rw [if_neg hencapsulated]
        exact ntop6Text_of_run hbest hencapsulated

end CppLearn.Unp.AddressText
