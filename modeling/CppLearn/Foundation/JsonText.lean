import CppLearn.Foundation.ByteOrder
import CppLearn.Foundation.DecimalText

/-!
# JSON values and their texts

A `Value` is what a JSON parser makes of a text, and `Value.text` the compact text that a writer makes
of it. `scan` follows the strings and the brackets of a text from the left; a text that leaves one of
them open is none that a parser accepts. The text of a value closes what it opens and goes below no
bracket that was open before it (`neat_text`), so that the text of an object is closed at its end and
nowhere before (`not_closed_take_object`).
-/

set_option autoImplicit false
set_option relaxedAutoImplicit false

namespace CppLearn.Foundation.JsonText

open ByteOrder DecimalText

/-! ### Values -/

/-- The bytes of an ASCII text. -/
def ascii (text : Text) : List Byte := text.map fun char ↦ BitVec.ofNat 8 char.toNat

/-- The text of a number: digits, signs, a point or an exponent. -/
structure NumberToken where
  bytes : List Byte
  numeric : ∀ byte ∈ bytes, byte ∈ ascii "0123456789+-.eE".toList

/-- A JSON value. A number is `uint` where it is an integer of 64 bits without a sign. The members of
an object keep their order, and a name may come twice. -/
inductive Value
  | null
  | bool (value : Bool)
  | uint (value : BitVec 64)
  | number (token : NumberToken)
  | string (bytes : List Byte)
  | array (elements : List Value)
  | object (members : List (List Byte × Value))

/-! ### The writer -/

def quote : Byte := 0x22

def backslash : Byte := 0x5C

def openBrace : Byte := 0x7B

def closeBrace : Byte := 0x7D

def openBracket : Byte := 0x5B

def closeBracket : Byte := 0x5D

/-- A hexadecimal digit. -/
def hexDigit (value : ℕ) : Byte := BitVec.ofNat 8 (Nat.digitChar value).toUpper.toNat

/-- A byte of a string, as it is written. -/
def escape (byte : Byte) : List Byte :=
  if byte = quote ∨ byte = backslash then [backslash, byte]
  else if byte = 8 then backslash :: ascii ['b']
  else if byte = 9 then backslash :: ascii ['t']
  else if byte = 10 then backslash :: ascii ['n']
  else if byte = 12 then backslash :: ascii ['f']
  else if byte = 13 then backslash :: ascii ['r']
  else if byte.toNat < 32 then
    backslash :: (ascii "u00".toList ++ [hexDigit (byte.toNat / 16), hexDigit (byte.toNat % 16)])
  else [byte]

/-- A string, as it is written. -/
def quoted (bytes : List Byte) : List Byte := quote :: (bytes.flatMap escape ++ [quote])

/-- The comma before the rest of a list. -/
def comma {α : Type} (rest : List α) : List Byte := if rest.isEmpty then [] else ascii [',']

mutual

/-- The text of a value. -/
def Value.text : Value → List Byte
  | .null => ascii "null".toList
  | .bool value => ascii (if value then "true".toList else "false".toList)
  | .uint value => ascii (decimal value.toNat)
  | .number token => token.bytes
  | .string bytes => quoted bytes
  | .array elements => openBracket :: (elementsText elements ++ [closeBracket])
  | .object members => openBrace :: (membersText members ++ [closeBrace])

/-- The elements of an array. -/
def elementsText : List Value → List Byte
  | [] => []
  | value :: rest => value.text ++ (comma rest ++ elementsText rest)

/-- The members of an object. -/
def membersText : List (List Byte × Value) → List Byte
  | [] => []
  | (name, value) :: rest =>
    quoted name ++ (ascii [':'] ++ (value.text ++ (comma rest ++ membersText rest)))

end

/-! ### Strings and brackets -/

/-- Whether a scan is in a string, and behind a backslash there. -/
inductive Lexeme
  | plain
  | string
  | escape
  deriving DecidableEq

/-- The brackets that are open, and the lexeme. -/
structure Scan where
  depth : ℕ
  lexeme : Lexeme
  deriving DecidableEq

/-- A scan takes a byte. -/
def scanByte (s : Scan) (byte : Byte) : Scan :=
  match s.lexeme with
  | .plain =>
    if byte = quote then { s with lexeme := .string }
    else if byte = openBrace ∨ byte = openBracket then { s with depth := s.depth + 1 }
    else if byte = closeBrace ∨ byte = closeBracket then { s with depth := s.depth - 1 }
    else s
  | .string =>
    if byte = backslash then { s with lexeme := .escape }
    else if byte = quote then { s with lexeme := .plain }
    else s
  | .escape => { s with lexeme := .string }

/-- A scan of a text. -/
def scan (s : Scan) (bytes : List Byte) : Scan := bytes.foldl scanByte s

/-- No string and no bracket is left open. -/
def Closed (bytes : List Byte) : Prop := scan ⟨0, .plain⟩ bytes = ⟨0, .plain⟩

instance (bytes : List Byte) : Decidable (Closed bytes) :=
  inferInstanceAs (Decidable (scan ⟨0, .plain⟩ bytes = ⟨0, .plain⟩))

theorem scan_append (s : Scan) (first second : List Byte) :
    scan s (first ++ second) = scan (scan s first) second :=
  List.foldl_append ..

/-- A text that a scan leaves as it came, and that closes no bracket that was open before. -/
structure Keeps (s : Scan) (bytes : List Byte) : Prop where
  same : scan s bytes = s
  depth_le : ∀ count, s.depth ≤ (scan s (bytes.take count)).depth

theorem Keeps.nil (s : Scan) : Keeps s [] where
  same := rfl
  depth_le := fun count ↦ by
    rw [List.take_nil]
    exact le_rfl

theorem Keeps.append {s : Scan} {first second : List Byte} (hfirst : Keeps s first)
    (hsecond : Keeps s second) : Keeps s (first ++ second) where
  same := by rw [scan_append, hfirst.same, hsecond.same]
  depth_le := by
    intro count
    rw [List.take_append, scan_append]
    by_cases hcount : count ≤ first.length
    · rw [Nat.sub_eq_zero_of_le hcount]
      exact hfirst.depth_le count
    · rw [List.take_of_length_le (by omega), hfirst.same]
      exact hsecond.depth_le _

theorem Keeps.flatMap {s : Scan} {α : Type} {f : α → List Byte} {items : List α}
    (hitems : ∀ item ∈ items, Keeps s (f item)) : Keeps s (items.flatMap f) := by
  induction items with
  | nil => exact Keeps.nil s
  | cons item items ih =>
    exact (hitems item (List.mem_cons_self ..)).append
      (ih fun other hmem ↦ hitems other (List.mem_cons_of_mem item hmem))

/-- A byte that a scan does not notice. -/
theorem Keeps.singleton {s : Scan} {byte : Byte} (hbyte : scanByte s byte = s) : Keeps s [byte] where
  same := hbyte
  depth_le := by
    intro count
    cases count with
    | zero => exact le_rfl
    | succ count =>
      rw [List.take_succ_cons, List.take_nil]
      exact (congrArg Scan.depth hbyte).ge

/-- Assumes: bytes that a scan does not notice. -/
theorem Keeps.of_forall {s : Scan} {bytes : List Byte}
    (hbytes : ∀ byte ∈ bytes, scanByte s byte = s) : Keeps s bytes := by
  induction bytes with
  | nil => exact Keeps.nil s
  | cons byte bytes ih =>
    exact (Keeps.singleton (hbytes byte (List.mem_cons_self ..))).append
      (ih fun other hmem ↦ hbytes other (List.mem_cons_of_mem byte hmem))

/-! ### The texts of values -/

/-- A byte that has no meaning to a scan outside of a string, and is not zero. -/
def Unmarked (byte : Byte) : Prop :=
  byte ≠ quote ∧ byte ≠ openBrace ∧ byte ≠ openBracket ∧ byte ≠ closeBrace ∧ byte ≠ closeBracket ∧
    byte ≠ 0

instance (byte : Byte) : Decidable (Unmarked byte) :=
  inferInstanceAs (Decidable (_ ∧ _))

/-- A text that closes what it opens, at any depth, and has no zero byte. -/
structure Neat (bytes : List Byte) : Prop where
  keeps : ∀ depth, Keeps ⟨depth, .plain⟩ bytes
  zero_not_mem : (0 : Byte) ∉ bytes

theorem Neat.append {first second : List Byte} (hfirst : Neat first) (hsecond : Neat second) :
    Neat (first ++ second) where
  keeps := fun depth ↦ (hfirst.keeps depth).append (hsecond.keeps depth)
  zero_not_mem := fun hmem ↦
    (List.mem_append.mp hmem).elim hfirst.zero_not_mem hsecond.zero_not_mem

theorem neat_of_unmarked {bytes : List Byte} (hbytes : ∀ byte ∈ bytes, Unmarked byte) :
    Neat bytes where
  keeps := by
    refine fun depth ↦ Keeps.of_forall fun byte hmem ↦ ?_
    obtain ⟨hquote, hbrace, hbracket, hbrace', hbracket', -⟩ := hbytes byte hmem
    simp only [scanByte, hquote, hbrace, hbracket, hbrace', hbracket', or_self, if_false]
  zero_not_mem := fun hmem ↦ (hbytes 0 hmem).2.2.2.2.2 rfl

/-- What stands between two brackets. -/
theorem Neat.enclose {bytes : List Byte} (hneat : Neat bytes) {opening closing : Byte}
    (hopening : opening = openBrace ∨ opening = openBracket)
    (hclosing : closing = closeBrace ∨ closing = closeBracket) :
    Neat (opening :: (bytes ++ [closing])) := by
  have hup : ∀ depth, scanByte ⟨depth, .plain⟩ opening = ⟨depth + 1, .plain⟩ := by
    intro depth
    rcases hopening with rfl | rfl
    · rfl
    · rfl
  have hdown : ∀ depth, scanByte ⟨depth + 1, .plain⟩ closing = ⟨depth, .plain⟩ := by
    intro depth
    rcases hclosing with rfl | rfl
    · rfl
    · rfl
  refine ⟨fun depth ↦ ⟨?_, fun count ↦ ?_⟩, ?_⟩
  · rw [scan, List.foldl_cons, hup, ← scan, scan_append, (hneat.keeps (depth + 1)).same]
    exact hdown depth
  · cases count with
    | zero => exact le_rfl
    | succ count =>
      rw [List.take_succ_cons, scan, List.foldl_cons, hup, ← scan, List.take_append, scan_append]
      by_cases hcount : count ≤ bytes.length
      · rw [Nat.sub_eq_zero_of_le hcount]
        exact Nat.le_of_succ_le ((hneat.keeps (depth + 1)).depth_le count)
      · rw [List.take_of_length_le (by omega), (hneat.keeps (depth + 1)).same,
          List.take_of_length_le (by simp only [List.length_singleton]; omega)]
        exact (congrArg Scan.depth (hdown depth)).ge
  · intro hmem
    rcases List.mem_cons.mp hmem with heq | hmem
    · rcases hopening with rfl | rfl
      · exact absurd heq (by decide)
      · exact absurd heq (by decide)
    · rcases List.mem_append.mp hmem with hmem | hmem
      · exact hneat.zero_not_mem hmem
      · have heq := List.mem_singleton.mp hmem
        rcases hclosing with rfl | rfl
        · exact absurd heq (by decide)
        · exact absurd heq (by decide)

/-- A byte that a scan does not notice in a string, and that is not zero. -/
def Verbatim (byte : Byte) : Prop := byte ≠ backslash ∧ byte ≠ quote ∧ byte ≠ 0

instance (byte : Byte) : Decidable (Verbatim byte) :=
  inferInstanceAs (Decidable (_ ∧ _))

/-- What may stand for a byte within a string: the string stays open, and no byte is zero. -/
structure Inner (bytes : List Byte) : Prop where
  keeps : ∀ depth, Keeps ⟨depth, .string⟩ bytes
  zero_not_mem : (0 : Byte) ∉ bytes

theorem inner_of_verbatim {bytes : List Byte} (hbytes : ∀ byte ∈ bytes, Verbatim byte) :
    Inner bytes where
  keeps := by
    refine fun depth ↦ Keeps.of_forall fun byte hmem ↦ ?_
    have hplain := hbytes byte hmem
    simp only [scanByte, hplain.1, hplain.2.1, if_false]
  zero_not_mem := fun hmem ↦ (hbytes 0 hmem).2.2 rfl

/-- What stands behind a backslash. -/
theorem Inner.escaped {rest : List Byte} (hrest : Inner rest) (byte : Byte) (hbyte : byte ≠ 0) :
    Inner (backslash :: byte :: rest) where
  keeps := by
    intro depth
    have hpair : Keeps ⟨depth, .string⟩ [backslash, byte] := by
      refine ⟨rfl, fun count ↦ ?_⟩
      match count with
      | 0 => exact Nat.le_refl depth
      | 1 => exact Nat.le_refl depth
      | count + 2 =>
        rw [List.take_of_length_le (Nat.le_add_left 2 count)]
        exact Nat.le_refl depth
    exact hpair.append (hrest.keeps depth)
  zero_not_mem := by
    intro hmem
    rcases List.mem_cons.mp hmem with heq | hmem
    · exact absurd heq (by decide)
    · exact (List.mem_cons.mp hmem).elim (fun heq ↦ hbyte heq.symm) hrest.zero_not_mem

theorem verbatim_hexDigit {value : ℕ} (hvalue : value < 16) : Verbatim (hexDigit value) := by
  have hall : ∀ digit < 16, Verbatim (hexDigit digit) := by decide
  exact hall value hvalue

/-- A byte of a string neither ends the string nor is written as zero. -/
theorem inner_escape (byte : Byte) : Inner (escape byte) := by
  have hnil : Inner [] := inner_of_verbatim fun byte hmem ↦ absurd hmem List.not_mem_nil
  rw [escape]
  split_ifs with hmark hbs htab hlf hff hcr hctl
  · have hbyte : byte ≠ 0 := by
      rcases hmark with rfl | rfl
      · decide
      · decide
    exact hnil.escaped byte hbyte
  · exact hnil.escaped (BitVec.ofNat 8 'b'.toNat) (by decide)
  · exact hnil.escaped (BitVec.ofNat 8 't'.toNat) (by decide)
  · exact hnil.escaped (BitVec.ofNat 8 'n'.toNat) (by decide)
  · exact hnil.escaped (BitVec.ofNat 8 'f'.toNat) (by decide)
  · exact hnil.escaped (BitVec.ofNat 8 'r'.toNat) (by decide)
  · refine (inner_of_verbatim ?_).escaped (BitVec.ofNat 8 'u'.toNat) (by decide)
    intro other hmem
    rcases List.mem_append.mp (show other ∈ ascii ['0', '0'] ++ _ from hmem) with hmem | hmem
    · have hzeros : (ascii ['0', '0']).all fun byte ↦ decide (Verbatim byte) := by decide
      exact of_decide_eq_true (List.all_eq_true.mp hzeros other hmem)
    · rcases List.mem_pair.mp hmem with rfl | rfl
      · exact verbatim_hexDigit (by omega)
      · exact verbatim_hexDigit (Nat.mod_lt _ (by omega))
  · refine inner_of_verbatim fun other hmem ↦ ?_
    rw [List.mem_singleton.mp hmem]
    refine ⟨fun heq ↦ hmark (.inr heq), fun heq ↦ hmark (.inl heq), ?_⟩
    rintro rfl
    exact hctl (by decide)

theorem inner_flatMap (bytes : List Byte) : Inner (bytes.flatMap escape) where
  keeps := fun depth ↦ Keeps.flatMap fun byte _ ↦ (inner_escape byte).keeps depth
  zero_not_mem := by
    intro hmem
    obtain ⟨byte, -, hzero⟩ := List.mem_flatMap.mp hmem
    exact (inner_escape byte).zero_not_mem hzero

/-- A string closes its quotes. -/
theorem neat_quoted (bytes : List Byte) : Neat (quoted bytes) := by
  have hbody := inner_flatMap bytes
  have hopen : ∀ depth, scanByte ⟨depth, .plain⟩ quote = ⟨depth, .string⟩ := fun _ ↦ rfl
  have hclose : ∀ depth, scanByte ⟨depth, .string⟩ quote = ⟨depth, .plain⟩ := fun _ ↦ rfl
  refine ⟨fun depth ↦ ⟨?_, fun count ↦ ?_⟩, ?_⟩
  · rw [quoted, scan, List.foldl_cons, hopen, ← scan, scan_append, (hbody.keeps depth).same]
    exact hclose depth
  · cases count with
    | zero => exact le_rfl
    | succ count =>
      rw [quoted, List.take_succ_cons, scan, List.foldl_cons, hopen, ← scan, List.take_append,
        scan_append]
      by_cases hcount : count ≤ (bytes.flatMap escape).length
      · rw [Nat.sub_eq_zero_of_le hcount]
        exact (hbody.keeps depth).depth_le count
      · rw [List.take_of_length_le (by omega), (hbody.keeps depth).same,
          List.take_of_length_le (by simp only [List.length_singleton]; omega)]
        exact (congrArg Scan.depth (hclose depth)).ge
  · intro hmem
    rcases List.mem_cons.mp hmem with heq | hmem
    · exact absurd heq (by decide)
    · rcases List.mem_append.mp hmem with hmem | hmem
      · exact hbody.zero_not_mem hmem
      · exact absurd (List.mem_singleton.mp hmem) (by decide)

/-- Characters that a scan does not notice. -/
theorem neat_ascii {text : Text} (htext : (ascii text).all fun byte ↦ decide (Unmarked byte)) :
    Neat (ascii text) :=
  neat_of_unmarked fun byte hmem ↦ of_decide_eq_true (List.all_eq_true.mp htext byte hmem)

theorem neat_nil : Neat [] := neat_of_unmarked fun _ hmem ↦ absurd hmem List.not_mem_nil

theorem neat_comma {α : Type} (rest : List α) : Neat (comma rest) := by
  rw [comma]
  split_ifs
  · exact neat_nil
  · exact neat_ascii (by decide)

theorem neat_decimal (number : ℕ) : Neat (ascii (decimal number)) := by
  have hdigits : ∀ code ≤ 57, 48 ≤ code → Unmarked (BitVec.ofNat 8 code) := by decide
  refine neat_of_unmarked fun byte hmem ↦ ?_
  obtain ⟨char, hchar, rfl⟩ := List.mem_map.mp hmem
  have hdigit := isDigit_of_mem_decimal hchar
  rw [Char.isDigit, Bool.and_eq_true, decide_eq_true_eq, decide_eq_true_eq] at hdigit
  exact hdigits char.toNat (UInt32.le_iff_toNat_le.mp hdigit.2)
    (UInt32.le_iff_toNat_le.mp hdigit.1)

mutual

/-- The text of a value closes what it opens. -/
theorem neat_text (value : Value) : Neat value.text :=
  match value with
  | .null => neat_ascii (by decide)
  | .bool true => neat_ascii (by decide)
  | .bool false => neat_ascii (by decide)
  | .uint value => neat_decimal value.toNat
  | .number token => by
    have hall : (ascii "0123456789+-.eE".toList).all fun byte ↦ decide (Unmarked byte) := by decide
    refine neat_of_unmarked fun byte hmem ↦ ?_
    exact of_decide_eq_true (List.all_eq_true.mp hall byte (token.numeric byte hmem))
  | .string bytes => neat_quoted bytes
  | .array elements => (neat_elementsText elements).enclose (.inr rfl) (.inr rfl)
  | .object members => (neat_membersText members).enclose (.inl rfl) (.inl rfl)

theorem neat_elementsText (elements : List Value) : Neat (elementsText elements) :=
  match elements with
  | [] => neat_nil
  | value :: rest => (neat_text value).append ((neat_comma rest).append (neat_elementsText rest))

theorem neat_membersText (members : List (List Byte × Value)) : Neat (membersText members) :=
  match members with
  | [] => neat_nil
  | (name, value) :: rest =>
    (neat_quoted name).append ((neat_ascii (by decide)).append
      ((neat_text value).append ((neat_comma rest).append (neat_membersText rest))))

end

/-- A nonempty part of the text of an object that lacks its end leaves a bracket open. -/
theorem not_closed_take_object (members : List (List Byte × Value)) {count : ℕ} (hpos : 0 < count)
    (hcount : count < (Value.object members).text.length) :
    ¬ Closed ((Value.object members).text.take count) := by
  obtain ⟨count, rfl⟩ := Nat.exists_eq_succ_of_ne_zero hpos.ne'
  intro hclosed
  rw [Value.text, List.length_cons, List.length_append, List.length_singleton] at hcount
  rw [Closed, Value.text, List.take_succ_cons, scan, List.foldl_cons, ← scan,
    List.take_append_of_le_length (by omega)] at hclosed
  have hdepth := ((neat_membersText members).keeps 1).depth_le count
  rw [show scanByte ⟨0, .plain⟩ openBrace = ⟨1, .plain⟩ from rfl] at hclosed
  rw [hclosed] at hdepth
  exact absurd hdepth (by decide)

/-- The text of a value is closed. -/
theorem closed_text (value : Value) : Closed value.text := ((neat_text value).keeps 0).same

end CppLearn.Foundation.JsonText
