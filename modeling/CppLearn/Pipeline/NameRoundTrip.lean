import CppLearn.Pipeline.StoreScan

/-!
# Reading back the name of a file

The writer puts the times of a parquet file into its name, and a scan reads them from the path of
the file. The name goes through buffers of 64 bytes, and the end time is looked for after the first
dash of the whole path. `reads_pathName_iff` says exactly in which directories both times are read
back from a name (`Legible`), and `namesReadBack_iff` takes it to the two functions that make names.
In a directory whose path has a dash no time but the number after that dash can be read as an end
(`not_generatesReadable`).
-/

set_option autoImplicit false
set_option relaxedAutoImplicit false

namespace CppLearn.Pipeline.NameRoundTrip

open Foundation.DecimalText Foundation.LocalTime Foundation.TextSearch
open RecvEngine.HdfsParquetWriter SearchEngine.Utils StoreScan

/-! ### What is read from a path -/

/-- The number in the text after a character that has been found. -/
def numberAfter (found : Option Text) : Option (BitVec 64) :=
  found.bind fun text ↦ sscanfLu text.tail

/-- The two times are read from the path, whatever the variables for them held before. -/
def Reads (path : Text) (start stop : ℤ) : Prop :=
  ∀ held : ℤ × ℤ, parquetFilePathToTimestamp path held.1 held.2 = some (start, stop)

/-- A number that is read into a variable whatever it held before is one that has been found. -/
theorem getD_toInt_iff {found : Option (BitVec 64)} {value : ℕ} (hvalue : value < 2 ^ 63) :
    (∀ held : ℤ, (found.map BitVec.toInt).getD held = value) ↔
      found = some (BitVec.ofNat 64 value) := by
  constructor
  · intro hread
    rcases found with _ | number
    · have hheld := hread (value + 1)
      simp only [Option.map_none, Option.getD_none] at hheld
      omega
    · refine congrArg some (BitVec.eq_of_toInt_eq ?_)
      rw [toInt_ofNat_of_lt hvalue]
      exact hread 0
  · rintro rfl held
    exact toInt_ofNat_of_lt hvalue

/-- The start is the number after the last slash, and the end the one after the first dash. -/
theorem reads_iff {path : Text} {start stop : ℕ} (hstart : start < 2 ^ 63) (hstop : stop < 2 ^ 63) :
    Reads path start stop ↔
      numberAfter (strrchr path '/') = some (BitVec.ofNat 64 start) ∧
        numberAfter (strchr path '-') = some (BitVec.ofNat 64 stop) := by
  unfold Reads
  rcases hslash : strrchr path '/' with _ | slash
  · constructor
    · intro hread
      simpa only [parquetFilePathToTimestamp, hslash, reduceCtorEq] using hread (0, 0)
    · rintro ⟨hnone, -⟩
      cases hnone
  · rcases hdash : strchr path '-' with _ | dash
    · constructor
      · intro hread
        simpa only [parquetFilePathToTimestamp, hslash, hdash, reduceCtorEq] using hread (0, 0)
      · rintro ⟨-, hnone⟩
        cases hnone
    · rw [← getD_toInt_iff hstart, ← getD_toInt_iff hstop]
      simp only [parquetFilePathToTimestamp, hslash, hdash, numberAfter, Option.bind_some,
        Option.some.injEq, Prod.mk.injEq]
      constructor
      · intro hread
        exact ⟨fun held ↦ (hread (held, 0)).1, fun held ↦ (hread (0, held)).2⟩
      · rintro ⟨hread, hread'⟩ held
        exact ⟨hread held.1, hread' held.2⟩

/-! ### Directories in which names are read back -/

/-- A directory in which the name of a file is read as its times. The name is cut where the path
fills its buffer; without room for the slash before it the directory is read in its place. A dash in
the path of the directory is taken for the one before the end time. -/
def Legible (directory : Text) (start stop : ℕ) : Prop :=
  if directory.length + 1 < nameSize then
    directory.length + 1 + (decimal start).length < nameSize ∧
      if '-' ∈ directory then
        numberAfter (strchr directory '-') = some (BitVec.ofNat 64 stop)
      else directory.length + 1 + (decimal start).length + 1 + (decimal stop).length < nameSize
  else
    numberAfter (strrchr directory '/') = some (BitVec.ofNat 64 start) ∧
      numberAfter (strchr directory '-') = some (BitVec.ofNat 64 stop)

instance (directory : Text) (start stop : ℕ) : Decidable (Legible directory start stop) :=
  inferInstanceAs (Decidable (ite _ _ _))

/-- The first number after a dash of the directory does not depend on what follows the directory. -/
theorem numberAfter_strchr_append {directory : Text} (text : Text) (hdash : '-' ∈ directory) :
    numberAfter (strchr (directory ++ '/' :: text) '-') = numberAfter (strchr directory '-') := by
  rcases hfound : strchr directory '-' with _ | found
  · exact (strchr_eq_none hfound hdash).elim
  · obtain ⟨after, rfl⟩ := strchr_head hfound
    rw [strchr_append_left _ hfound, numberAfter, numberAfter, Option.bind_some, Option.bind_some,
      List.cons_append, List.tail_cons, List.tail_cons]
    exact sscanfLu_append after text (by decide) (by decide) (by decide) (by decide)

/-- Assumes: a directory without a dash and a start that is left whole. The end is read exactly if
it is left whole, too. -/
theorem numberAfter_dash_iff {directory : Text} (hdash : '-' ∉ directory) {start stop size : ℕ}
    (hstop : stop < 2 ^ 63) {suffix : Text} (hsuffix : EndsDigits suffix)
    (hfits : (decimal start).length ≤ size) :
    numberAfter (strchr (directory ++ '/' ::
        (decimal start ++ '-' :: (decimal stop ++ suffix)).take size) '-') =
      some (BitVec.ofNat 64 stop) ↔ (decimal start).length + 1 + (decimal stop).length ≤ size := by
  have hfront : '-' ∉ directory ++ '/' :: decimal start := by
    simp only [List.mem_append, List.mem_cons, not_or]
    exact ⟨hdash, by decide, not_mem_decimal _ (by decide)⟩
  obtain ⟨more, rfl⟩ := Nat.exists_eq_add_of_le hfits
  rw [List.take_append, List.take_of_length_le hfits, Nat.add_sub_cancel_left, ← List.cons_append,
    ← List.append_assoc]
  rcases more with _ | more
  · rw [List.take_zero, List.append_nil, strchr_of_not_mem hfront]
    constructor
    · intro hnone
      cases hnone
    · intro hle
      omega
  · rw [List.take_succ_cons, strchr_append _ hfront, numberAfter, Option.bind_some, List.tail_cons,
      sscanfLu_take_decimal_iff (by omega) hsuffix]
    omega

/-- Assumes: a path that fits its buffer. The times of a file are read back from its name in the
directory exactly if the directory is legible for them. -/
theorem reads_pathName_iff {directory : Text} (hlength : directory.length < nameSize) {start stop : ℕ}
    (hstart : start < 2 ^ 63) (hstop : stop < 2 ^ 63) (id : BitVec 64) :
    Reads (pathName directory start stop id) start stop ↔ Legible directory start stop := by
  set suffix : Text := '-' :: (decimal id.toNat ++ ".parquet".toList) with hsuffix
  have hname : fileName start stop id = decimal start ++ '-' :: (decimal stop ++ suffix) := by
    rw [fileName, percentLu_of_lt hstart, percentLu_of_lt hstop]
  have hslash : '/' ∉ decimal start ++ '-' :: (decimal stop ++ suffix) := by
    simp only [List.mem_append, List.mem_cons, not_or]
    exact ⟨not_mem_decimal _ (by decide), by decide, not_mem_decimal _ (by decide),
      slash_not_mem_suffix id⟩
  rw [reads_iff hstart hstop, pathName, snprintf, hname]
  by_cases hroom : directory.length + 1 < nameSize
  · -- the path is the directory, a slash, and what is left of the name
    obtain ⟨size, hsize⟩ : ∃ size, nameSize - 1 = directory.length + 1 + size :=
      ⟨nameSize - 1 - (directory.length + 1), by omega⟩
    have hcut : (directory ++ '/' :: (decimal start ++ '-' :: (decimal stop ++ suffix))).take
        (nameSize - 1) = directory ++ '/' ::
          (decimal start ++ '-' :: (decimal stop ++ suffix)).take size := by
      rw [List.take_append, List.take_of_length_le (by omega), hsize, Nat.add_assoc,
        Nat.add_sub_cancel_left, Nat.add_comm 1, List.take_succ_cons]
    have hslashTake : '/' ∉ (decimal start ++ '-' :: (decimal stop ++ suffix)).take size :=
      fun hmem ↦ hslash (List.mem_of_mem_take hmem)
    rw [hcut, strrchr_append directory hslashTake, numberAfter, Option.bind_some, List.tail_cons,
      sscanfLu_take_decimal_iff (by omega) (endsDigits_cons _ (by decide)), Legible, if_pos hroom]
    have hstartFits : (decimal start).length ≤ size ↔
        directory.length + 1 + (decimal start).length < nameSize := by omega
    rw [hstartFits]
    refine and_congr_right fun hfits ↦ ?_
    split_ifs with hdash
    · rw [numberAfter_strchr_append _ hdash]
    · rw [numberAfter_dash_iff hdash hstop (endsDigits_cons _ (by decide)) (hstartFits.mpr hfits)]
      omega
  · -- the slash does not fit, and the path is that of the directory
    have hcut : (directory ++ '/' :: (decimal start ++ '-' :: (decimal stop ++ suffix))).take
        (nameSize - 1) = directory := by
      rw [List.take_append_of_le_length (by omega), List.take_of_length_le (by omega)]
    rw [hcut, Legible, if_neg hroom]

/-! ### The names that the writer makes -/

/-- `generate_filename` makes a name from which the times are read back. -/
def GeneratesReadable (zone : TimeZone) (vars : GlobalVars) (writer : Writer) (hdfs : Hdfs)
    (start stop : ℤ) : Prop :=
  ∃ writer' hdfs', generateFilename zone vars writer hdfs start stop = some (writer', hdfs') ∧
    Reads writer'.hdfsName start stop

/-- After `generate_filename` for a first chunk, `rename_file` makes a name from which the times are
read back. -/
def RenamesReadable (zone : TimeZone) (vars : GlobalVars) (writer : Writer) (hdfs : Hdfs)
    (firstStart firstStop start stop : ℤ) : Prop :=
  ∃ writer' hdfs', generateFilename zone vars writer hdfs firstStart firstStop =
      some (writer', hdfs') ∧
    ∃ newName, renameFile writer' hdfs' start stop = hdfs'.rename writer'.hdfsName newName ∧
      newName = pathName writer'.hdfsPath start stop writer'.id ∧ Reads newName start stop

/-- The path of a directory fits its buffer. -/
theorem length_hdfsPath {zone : TimeZone} {vars : GlobalVars} {time : ℤ} {directory : Text}
    (hpath : hdfsPath zone vars time = some directory) : directory.length < nameSize := by
  have hsnprintf : ∀ text : Text, (snprintf nameSize text).length < nameSize := by
    intro text
    rw [snprintf, List.length_take, nameSize]
    omega
  unfold hdfsPath at hpath
  split_ifs at hpath
  · obtain ⟨tm, -, rfl⟩ := Option.map_eq_some_iff.mp hpath
    exact hsnprintf _
  · rw [← Option.some.inj hpath]
    exact hsnprintf _

/-- Assumes: times of a `time_t` that are not negative. They are read back from the name that
`generate_filename` makes, and from the one that `rename_file` makes later, exactly if the time of
the first chunk has a directory and that directory is legible for them. -/
theorem namesReadBack_iff (zone : TimeZone) (vars : GlobalVars) (writer : Writer) (hdfs : Hdfs)
    {start stop : ℕ} (hstart : start < 2 ^ 63) (hstop : stop < 2 ^ 63) :
    (GeneratesReadable zone vars writer hdfs start stop ↔
        ∃ directory, hdfsPath zone vars start = some directory ∧ Legible directory start stop) ∧
      ∀ firstStart firstStop : ℤ,
        (RenamesReadable zone vars writer hdfs firstStart firstStop start stop ↔
          ∃ directory, hdfsPath zone vars firstStart = some directory ∧
            Legible directory start stop) := by
  refine ⟨?_, fun firstStart firstStop ↦ ?_⟩
  · constructor
    · rintro ⟨writer', hdfs', hgenerate, hreads⟩
      obtain ⟨directory, hpath, heq⟩ := Option.map_eq_some_iff.mp hgenerate
      obtain ⟨rfl, -⟩ := Prod.mk.inj heq
      exact ⟨directory, hpath,
        (reads_pathName_iff (length_hdfsPath hpath) hstart hstop writer.id).mp hreads⟩
    · rintro ⟨directory, hpath, hlegible⟩
      exact ⟨_, _, Option.map_eq_some_iff.mpr ⟨directory, hpath, rfl⟩,
        (reads_pathName_iff (length_hdfsPath hpath) hstart hstop writer.id).mpr hlegible⟩
  · constructor
    · rintro ⟨writer', hdfs', hgenerate, newName, -, rfl, hreads⟩
      obtain ⟨directory, hpath, heq⟩ := Option.map_eq_some_iff.mp hgenerate
      obtain ⟨rfl, -⟩ := Prod.mk.inj heq
      exact ⟨directory, hpath,
        (reads_pathName_iff (length_hdfsPath hpath) hstart hstop writer.id).mp hreads⟩
    · rintro ⟨directory, hpath, hlegible⟩
      exact ⟨_, _, Option.map_eq_some_iff.mpr ⟨directory, hpath, rfl⟩, _, rfl, rfl,
        (reads_pathName_iff (length_hdfsPath hpath) hstart hstop writer.id).mpr hlegible⟩

/-- A writer and a store before the first file. -/
def exampleWriter : Writer := ⟨false, [], [], 0⟩

@[inherit_doc exampleWriter] def exampleHdfs : Hdfs := ⟨[], []⟩

/-- Under the root of the sample in the source the times of a file of 1 September 2017 are read
back. -/
theorem namesReadBack_snappy :
    GeneratesReadable utc ⟨"snappy".toList, true⟩ exampleWriter exampleHdfs 1504270800 1504274400 :=
  (@namesReadBack_iff utc ⟨"snappy".toList, true⟩ exampleWriter exampleHdfs 1504270800 1504274400
    (by decide) (by decide)).1.mpr
      ⟨"/snappy/20170901".toList, by decide, by decide⟩

/-- Under a root with a dash in its name the end time is not read. -/
theorem not_generatesReadable :
    ¬ GeneratesReadable utc ⟨"my-data".toList, false⟩ exampleWriter exampleHdfs
      1504270800 1504274400 := by
  rintro ⟨writer', hdfs', hgenerate, hreads⟩
  cases hgenerate
  have hread : parquetFilePathToTimestamp "/my-data/1504270800-1504274400-0.parquet".toList 0 0 =
      some (1504270800, 0) := by decide
  cases hread.symm.trans (hreads (0, 0))

end CppLearn.Pipeline.NameRoundTrip
