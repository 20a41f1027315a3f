import CppLearn.Foundation.TextSearch
import CppLearn.Foundation.TimeText

/-!
# The times in the names of a store

`parquetFileDirToTimestamp` reads the name of a day directory and `parquetFilePathToTimestamp` the
two times in the name of a parquet file. The first takes the text after the last slash. The second
reads the start there and the end after the first dash of the whole path, so that a dash in the name
of a directory is taken for the one between the two times (`parquetFilePathToTimestamp_eq`).
-/

set_option autoImplicit false
set_option relaxedAutoImplicit false

namespace CppLearn.SearchEngine.Utils

open Foundation.DecimalText Foundation.LocalTime Foundation.TextSearch Foundation.TimeText

/-- `strftime_to_timestamp`. -/
def strftimeToTimestamp (zone : TimeZone) (strFmtTime fmt : Text) : ℤ :=
  zone.mktime (strptime fmt strFmtTime zeroTm)

/-- `parquet_file_dir_to_timestamp`. Without a slash the null pointer is advanced and read. -/
def parquetFileDirToTimestamp (zone : TimeZone) (fileDir : Text) : Option ℤ :=
  (strrchr fileDir '/').map fun start ↦ strftimeToTimestamp zone start.tail dateFormat

/-- `parquet_file_path_to_timestamp`, on the values that `start_ts` and `end_ts` hold before: a time
that cannot be read leaves its variable as it was. -/
def parquetFilePathToTimestamp (filePath : Text) (startTs endTs : ℤ) : Option (ℤ × ℤ) :=
  match strrchr filePath '/', strchr filePath '-' with
  | some slash, some dash =>
    some (((sscanfLu slash.tail).map BitVec.toInt).getD startTs,
      ((sscanfLu dash.tail).map BitVec.toInt).getD endTs)
  | _, _ => none

/-- The name of a directory is read from its last component. -/
theorem parquetFileDirToTimestamp_append (zone : TimeZone) (root : Text) {name : Text}
    (hname : '/' ∉ name) :
    parquetFileDirToTimestamp zone (root ++ '/' :: name) =
      some (strftimeToTimestamp zone name dateFormat) := by
  rw [parquetFileDirToTimestamp, strrchr_append root hname]
  rfl

/-- Assumes: a date with a year of four digits. A directory named after it is read as the midnight
that begins it. -/
theorem strftimeToTimestamp_date (zone : TimeZone) {year mon mday : ℕ}
    (hyear : 1000 ≤ year ∧ year < 10000) (hmon : 1 ≤ mon ∧ mon ≤ 12)
    (hmday : 1 ≤ mday ∧ mday ≤ 31) :
    strftimeToTimestamp zone (percentD year ++ percent02d mon ++ percent02d mday) dateFormat =
      zone.mktime ⟨year - 1900, mon - 1, mday, 0, 0, 0⟩ := by
  rw [strftimeToTimestamp, strptime_date hyear hmon hmday]

/-- The end time read from a file in a directory: the one in its name, unless the path of the
directory has a dash. Then it is the number after that dash, and without a number there the end time
that was held before. -/
def endRead (directory : Text) (stop held : ℤ) : ℤ :=
  match strchr directory '-' with
  | none => stop
  | some dash => ((sscanfLu dash.tail).map BitVec.toInt).getD held

theorem toInt_ofNat_of_lt {value : ℕ} (hvalue : value < 2 ^ 63) :
    (BitVec.ofNat 64 value).toInt = value := by
  have htoNat : (BitVec.ofNat 64 value).toNat = value := by
    rw [BitVec.toNat_ofNat, Nat.mod_eq_of_lt (by omega)]
  rw [BitVec.toInt_eq_toNat_of_lt (by omega), htoNat]

/-- Assumes: a name that begins with two times joined by a dash, and no slash in it. The start is
read as it was written, and the end as `endRead` says. -/
theorem parquetFilePathToTimestamp_eq (directory : Text) {start stop : ℕ} {rest : Text}
    (hstart : start < 2 ^ 63) (hstop : stop < 2 ^ 63) (hrest : EndsDigits rest)
    (hslash : '/' ∉ rest) (startTs endTs : ℤ) :
    parquetFilePathToTimestamp
      (directory ++ '/' :: (decimal start ++ '-' :: (decimal stop ++ rest))) startTs endTs =
      some ((start : ℤ), endRead directory stop endTs) := by
  have hnotDigits : ∀ {char : Char} (value : ℕ), char.isDigit = false → char ∉ decimal value :=
    fun value hchar hmem ↦ Bool.false_ne_true (hchar.symm.trans (isDigit_of_mem_decimal hmem))
  have hlast : strrchr (directory ++ '/' :: (decimal start ++ '-' :: (decimal stop ++ rest))) '/' =
      some ('/' :: (decimal start ++ '-' :: (decimal stop ++ rest))) := by
    apply strrchr_append
    simp only [List.mem_append, List.mem_cons, not_or]
    exact ⟨hnotDigits start (by decide), by decide, hnotDigits stop (by decide), hslash⟩
  have hreadStart : sscanfLu (decimal start ++ '-' :: (decimal stop ++ rest)) =
      some (BitVec.ofNat 64 start) :=
    sscanfLu_decimal (by omega) (endsDigits_cons _ (by decide))
  have hreadStop : sscanfLu (decimal stop ++ rest) = some (BitVec.ofNat 64 stop) :=
    sscanfLu_decimal (by omega) hrest
  rcases hdirectory : strchr directory '-' with _ | dash
  · have hfirst :
        strchr (directory ++ '/' :: (decimal start ++ '-' :: (decimal stop ++ rest))) '-' =
          some ('-' :: (decimal stop ++ rest)) := by
      have hfront : '-' ∉ directory ++ '/' :: decimal start := by
        simp only [List.mem_append, List.mem_cons, not_or]
        exact ⟨strchr_eq_none hdirectory, by decide, hnotDigits start (by decide)⟩
      have := strchr_append (decimal stop ++ rest) hfront
      rwa [List.append_assoc, List.cons_append] at this
    simp only [parquetFilePathToTimestamp, hlast, hfirst, List.tail_cons, hreadStart, hreadStop,
      Option.map_some, Option.getD_some, toInt_ofNat_of_lt hstart, toInt_ofNat_of_lt hstop,
      endRead, hdirectory]
  · have hfirst := strchr_append_left ('/' :: (decimal start ++ '-' :: (decimal stop ++ rest)))
      hdirectory
    obtain ⟨after, rfl⟩ : ∃ after, dash = '-' :: after := strchr_head hdirectory
    have hreadDash := sscanfLu_append after (decimal start ++ '-' :: (decimal stop ++ rest))
      (by decide : '/'.isDigit = false) (by decide) (by decide) (by decide)
    simp only [parquetFilePathToTimestamp, hlast, hfirst, List.cons_append, List.tail_cons,
      hreadStart, hreadDash, Option.map_some, Option.getD_some, toInt_ofNat_of_lt hstart, endRead,
      hdirectory]

end CppLearn.SearchEngine.Utils
