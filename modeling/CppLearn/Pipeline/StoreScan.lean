import CppLearn.RecvEngine.HdfsParquetWriter
import CppLearn.SearchEngine.HdfsParquetReader

/-!
# What a search finds in a store of days

The writer puts a parquet file under the local day of its first chunk, and the names of the day and
of the file are all that a scan knows of it. `scanFileImpl_listing` gives the files a scan pushes
from such a store. `pushesIntersecting_iff` compares them with the files whose packets meet the
window of the search. A day is entered only if the midnight it is named after lies in the window, so
that a search that begins later in a day misses the whole day (`not_pushesIntersecting`).
-/

set_option autoImplicit false
set_option relaxedAutoImplicit false

namespace CppLearn.Pipeline.StoreScan

open Foundation.DecimalText Foundation.LocalTime Foundation.TextSearch Foundation.TimeText
open RecvEngine.HdfsParquetWriter SearchEngine.HdfsParquetReader SearchEngine.Utils

/-! ### A store with second-level directories -/

/-- A parquet file: the time of its first chunk, the seconds its packets span, and the id of its
writer. -/
structure StoredFile where
  firstChunk : ℤ
  start : ℕ
  stop : ℕ
  id : BitVec 64
  startBound : start < 2 ^ 63
  stopBound : stop < 2 ^ 63

/-- The name under which the writer leaves the file. -/
def StoredFile.name (file : StoredFile) : Text := fileName file.start file.stop file.id

/-- The directory of a day, with the files whose first chunk falls on that day. -/
structure DayDirectory (zone : TimeZone) where
  tm : Tm
  files : List StoredFile
  placed : ∀ file ∈ files, (zone.localtime file.firstChunk).map dayText = some (dayText tm)

variable {zone : TimeZone}

/-- The name of the directory. -/
def DayDirectory.name (day : DayDirectory zone) : Text := dayText day.tm

/-- The tree that HDFS lists. -/
def listing (store : List (DayDirectory zone)) : List DfsEntry :=
  store.map fun day ↦
    .directory day.name (day.files.map fun file : StoredFile ↦ .file file.name)

/-- The path of a file. -/
def filePath (root : Text) (day : DayDirectory zone) (file : StoredFile) : Text :=
  entryPath (entryPath root day.name) file.name

/-- The packets of the file span a second of the window. -/
def Intersects (stime etime : ℤ) (file : StoredFile) : Prop :=
  ∃ second : ℤ, (file.start : ℤ) ≤ second ∧ second ≤ file.stop ∧ stime ≤ second ∧ second ≤ etime

/-- A scan for the window that is never called off. -/
abbrev scanEnv (zone : TimeZone) (stime etime : ℤ) (stack : Text → ℤ × ℤ) : ScanEnv :=
  { zone := zone
    stime := stime
    etime := etime
    stack := stack
    continueSearching := fun _ ↦ true }

/-- The scan of a store pushes every file that meets the window. -/
def PushesIntersecting (stime etime : ℤ) (stack : Text → ℤ × ℤ) (root : Text)
    (store : List (DayDirectory zone)) : Prop :=
  ∃ st, scanFileImpl (scanEnv zone stime etime stack) root (listing store) .start = some st ∧
    ∀ day ∈ store, ∀ file ∈ day.files, Intersects stime etime file →
      ⟨filePath root day file, 0⟩ ∈ st.fileListRing

/-! ### Names without slashes -/

theorem not_mem_decimal {char : Char} (value : ℕ) (hchar : char.isDigit = false) :
    char ∉ decimal value :=
  fun hmem ↦ Bool.false_ne_true (hchar.symm.trans (isDigit_of_mem_decimal hmem))

theorem percentLu_of_lt {time : ℕ} (htime : time < 2 ^ 63) : percentLu time = decimal time := by
  rw [percentLu, BitVec.ofInt_natCast, BitVec.toNat_ofNat, Nat.mod_eq_of_lt (by omega)]

/-- The name of a file begins with its times. -/
theorem StoredFile.name_eq (file : StoredFile) :
    file.name = decimal file.start ++ '-' ::
      (decimal file.stop ++ '-' :: (decimal file.id.toNat ++ ".parquet".toList)) := by
  rw [StoredFile.name, fileName, percentLu_of_lt file.startBound, percentLu_of_lt file.stopBound]

/-- What follows the times in the name of a file has no slash. -/
theorem slash_not_mem_suffix (id : BitVec 64) :
    '/' ∉ '-' :: (decimal id.toNat ++ ".parquet".toList) := by
  rw [List.mem_cons, List.mem_append, not_or, not_or]
  exact ⟨by decide, not_mem_decimal _ (by decide), by decide⟩

theorem slash_not_mem_name (file : StoredFile) : '/' ∉ file.name := by
  rw [file.name_eq, List.mem_append, List.mem_cons, List.mem_append, not_or, not_or, not_or]
  exact ⟨not_mem_decimal _ (by decide), by decide, not_mem_decimal _ (by decide),
    slash_not_mem_suffix file.id⟩

theorem slash_not_mem_percentD (value : ℤ) : '/' ∉ percentD value := by
  have hdigits : '/' ∉ decimal value.natAbs := not_mem_decimal _ (by decide)
  unfold percentD
  split_ifs
  · rw [List.mem_cons, not_or]
    exact ⟨by decide, hdigits⟩
  · exact hdigits

theorem slash_not_mem_percent02d (value : ℤ) : '/' ∉ percent02d value := by
  have hdigits : '/' ∉ decimal value.natAbs := not_mem_decimal _ (by decide)
  unfold percent02d
  split_ifs
  · rw [List.mem_cons, not_or]
    exact ⟨by decide, hdigits⟩
  · rw [List.mem_append, not_or]
    refine ⟨fun hmem ↦ ?_, hdigits⟩
    exact absurd (List.eq_of_mem_replicate hmem) (by decide)

theorem slash_not_mem_dayText (tm : Tm) : '/' ∉ dayText tm := by
  rw [dayText, List.mem_append, List.mem_append, not_or, not_or]
  exact ⟨⟨slash_not_mem_percentD _, slash_not_mem_percent02d _⟩, slash_not_mem_percent02d _⟩

/-- A path determines the directory of its file. -/
theorem directory_of_filePath {root : Text} {day day' : DayDirectory zone} {file file' : StoredFile}
    (heq : filePath root day file = filePath root day' file') : day.name = day'.name := by
  have hdirectory := (append_cons_inj (slash_not_mem_name file) (slash_not_mem_name file') heq).1
  exact (append_cons_inj (slash_not_mem_dayText _) (slash_not_mem_dayText _) hdirectory).2

/-! ### The files a scan pushes -/

/-- The time that the name of a day is read as. -/
def dayTime (day : DayDirectory zone) : ℤ := strftimeToTimestamp zone day.name dateFormat

/-- Assumes: a day in a year of four digits. Its name is read as the midnight that begins it. -/
theorem dayTime_eq_midnight (day : DayDirectory zone)
    (hyear : 1000 ≤ day.tm.year + 1900 ∧ day.tm.year + 1900 < 10000)
    (hmon : 0 ≤ day.tm.mon ∧ day.tm.mon < 12) (hmday : 1 ≤ day.tm.mday ∧ day.tm.mday ≤ 31) :
    dayTime day = zone.mktime { day.tm with hour := 0, min := 0, sec := 0 } := by
  obtain ⟨year, hyearEq⟩ := Int.eq_ofNat_of_zero_le (by omega : 0 ≤ day.tm.year + 1900)
  obtain ⟨mon, hmonEq⟩ := Int.eq_ofNat_of_zero_le (by omega : 0 ≤ day.tm.mon + 1)
  obtain ⟨mday, hmdayEq⟩ := Int.eq_ofNat_of_zero_le (by omega : 0 ≤ day.tm.mday)
  have hdate := strftimeToTimestamp_date zone (by omega : 1000 ≤ year ∧ year < 10000)
    (by omega : 1 ≤ mon ∧ mon ≤ 12) (by omega : 1 ≤ mday ∧ mday ≤ 31)
  rw [dayTime, DayDirectory.name, dayText, hyearEq, hmonEq, hmdayEq, hdate, ← hyearEq, ← hmonEq]
  congr 2
  · omega
  · omega
  · exact hmdayEq.symm

/-- The end time that is read for a file. -/
def endTime (stack : Text → ℤ × ℤ) (root : Text) (day : DayDirectory zone) (file : StoredFile) : ℤ :=
  endRead (entryPath root day.name) file.stop (stack (entryPath root day.name)).2

/-- The files of a day that pass both tests. -/
def pushedFiles (stime etime : ℤ) (stack : Text → ℤ × ℤ) (root : Text) (day : DayDirectory zone) :
    List StoredFile :=
  if stime ≤ dayTime day ∧ dayTime day ≤ etime then
    day.files.filter fun file ↦ stime ≤ endTime stack root day file ∧ (file.start : ℤ) ≤ etime
  else []

/-- An end time that was read and kept is read again as what it was. -/
theorem endRead_endRead (directory : Text) (stop stop' held : ℤ) :
    endRead directory stop (endRead directory stop' held) = endRead directory stop held := by
  unfold endRead
  rcases strchr directory '-' with _ | dash
  · rfl
  · change ((sscanfLu dash.tail).map BitVec.toInt).getD
        (((sscanfLu dash.tail).map BitVec.toInt).getD held) =
      ((sscanfLu dash.tail).map BitVec.toInt).getD held
    rcases sscanfLu dash.tail with _ | value
    · rfl
    · rfl

/-- Assumes: an end time held at the entry to the loop from which the ends of all files are read as
from the one at the call. The files of a day that pass their test are chosen. -/
theorem scanPlan_files (env : ScanEnv) (directory : Text) (initial : ℤ) :
    ∀ (files : List StoredFile) (held : ℤ × ℤ),
      (∀ stop, endRead directory stop held.2 = endRead directory stop initial) →
      ∃ plan, scanPlan env directory held (files.map fun file : StoredFile ↦ .file file.name) =
          some plan ∧
        chosenFiles plan = (files.filter fun file ↦
          env.stime ≤ endRead directory file.stop initial ∧ (file.start : ℤ) ≤ env.etime).map
            fun file ↦ entryPath directory file.name
  | [], held, _ => ⟨[], rfl, rfl⟩
  | file :: files, held, hheld => by
    have htimes : parquetFilePathToTimestamp (entryPath directory file.name) held.1 held.2 =
        some ((file.start : ℤ), endRead directory file.stop initial) := by
      rw [entryPath, file.name_eq, parquetFilePathToTimestamp_eq directory file.startBound
        file.stopBound (endsDigits_cons _ (by decide)) (slash_not_mem_suffix file.id), hheld]
    obtain ⟨plan, hplan, hchosen⟩ := scanPlan_files env directory initial files
      ((file.start : ℤ), endRead directory file.stop initial)
      fun stop ↦ endRead_endRead directory stop file.stop initial
    simp only [List.map_cons, scanPlan, planEntry, htimes, Option.map_some, Option.bind_some]
    by_cases htest : env.stime ≤ endRead directory file.stop initial ∧ (file.start : ℤ) ≤ env.etime
    · refine ⟨.file (entryPath directory file.name) :: plan, ?_, ?_⟩
      · rw [if_pos htest]
        simp only [hplan, Option.map_some]
      · rw [List.filter_cons, decide_eq_true htest, if_pos rfl, List.map_cons, ← hchosen]
        rfl
    · refine ⟨.passedOver :: plan, ?_, ?_⟩
      · rw [if_neg htest]
        simp only [hplan, Option.map_some]
      · rw [List.filter_cons, decide_eq_false htest, if_neg Bool.false_ne_true, ← hchosen]
        rfl

/-- The plan of a store chooses the files that pass both tests, day by day. -/
theorem scanPlan_listing (env : ScanEnv) (root : Text) (held : ℤ × ℤ) :
    ∀ store : List (DayDirectory env.zone),
      ∃ plan, scanPlan env root held (listing store) = some plan ∧
        chosenFiles plan = store.flatMap fun day ↦
          (pushedFiles env.stime env.etime env.stack root day).map (filePath root day)
  | [] => ⟨[], rfl, rfl⟩
  | day :: store => by
    obtain ⟨plan, hplan, hchosen⟩ := scanPlan_listing env root held store
    obtain ⟨contents, hcontents, hfiles⟩ := scanPlan_files env (entryPath root day.name)
      (env.stack (entryPath root day.name)).2 day.files (env.stack (entryPath root day.name))
      fun _ ↦ rfl
    have hday : parquetFileDirToTimestamp env.zone (entryPath root day.name) =
        some (dayTime day) :=
      parquetFileDirToTimestamp_append env.zone root (slash_not_mem_dayText day.tm)
    rw [listing] at hplan
    simp only [listing, List.map_cons, scanPlan, planEntry, hday, Option.bind_some,
      List.flatMap_cons, pushedFiles]
    by_cases htest : env.stime ≤ dayTime day ∧ dayTime day ≤ env.etime
    · refine ⟨.directory contents :: plan, ?_, ?_⟩
      · rw [if_pos htest, hcontents, Option.map_some, Option.bind_some, hplan, Option.map_some]
      · rw [chosenFiles, ScanEntry.chosen, hfiles, hchosen, if_pos htest]
        rfl
    · refine ⟨.passedOver :: plan, ?_, ?_⟩
      · rw [if_neg htest, Option.bind_some, hplan, Option.map_some]
      · rw [chosenFiles, ScanEntry.chosen, hchosen, if_neg htest]
        rfl

/-- A scan that is not called off pushes the files that pass both tests, each once and in the order
of the listing. -/
theorem scanFileImpl_listing (stime etime : ℤ) (stack : Text → ℤ × ℤ) (root : Text)
    (store : List (DayDirectory zone)) :
    ∃ st, scanFileImpl (scanEnv zone stime etime stack) root (listing store) .start = some st ∧
      st.fileListRing = (store.flatMap fun day ↦
        (pushedFiles stime etime stack root day).map (filePath root day)).map
          fun path ↦ ⟨path, 0⟩ := by
  obtain ⟨plan, hplan, hchosen⟩ := scanPlan_listing (scanEnv zone stime etime stack) root
    (stack root) store
  obtain ⟨polls, hscan⟩ := scanEntries_plan (scanEnv zone stime etime stack) (fun _ ↦ rfl) root
    (stack root) .start (listing store) hplan
  refine ⟨_, hscan, ?_⟩
  rw [← hchosen]
  rfl

/-- The directory of every file that meets the window is named after a midnight in the window, and
the end time read for the file is not before the window. -/
def DaysMeetWindow (stime etime : ℤ) (stack : Text → ℤ × ℤ) (root : Text)
    (store : List (DayDirectory zone)) : Prop :=
  ∀ day ∈ store, ∀ file ∈ day.files, Intersects stime etime file →
    (stime ≤ dayTime day ∧ dayTime day ≤ etime) ∧ stime ≤ endTime stack root day file

/-- The end time read for a file depends on the file only where its directory has no dash, and there
it is the end of the file. -/
theorem endTime_of_name_eq {stack : Text → ℤ × ℤ} {root : Text} {day day' : DayDirectory zone}
    {file file' : StoredFile} {stime : ℤ} (hname : day.name = day'.name)
    (hfile : stime ≤ file.stop) (hfile' : stime ≤ endTime stack root day' file') :
    stime ≤ endTime stack root day file := by
  rw [endTime, endRead] at hfile' ⊢
  rw [hname]
  rcases hdash : strchr (entryPath root day'.name) '-' with _ | dash
  · exact hfile
  · rw [hdash] at hfile'
    exact hfile'

/-- A scan pushes every file that meets the window exactly if the days of these files begin in the
window and their end times are read as times not before it. -/
theorem pushesIntersecting_iff (stime etime : ℤ) (stack : Text → ℤ × ℤ) (root : Text)
    (store : List (DayDirectory zone)) :
    PushesIntersecting stime etime stack root store ↔
      DaysMeetWindow stime etime stack root store := by
  obtain ⟨st, hscan, hring⟩ := scanFileImpl_listing stime etime stack root store
  have hpushed : ∀ path, (⟨path, 0⟩ : DfsFileName) ∈ st.fileListRing ↔
      ∃ day ∈ store, ∃ file ∈ pushedFiles stime etime stack root day,
        filePath root day file = path := by
    intro path
    simp only [hring, List.mem_map, List.mem_flatMap, DfsFileName.mk.injEq, and_true,
      exists_eq_right]
  constructor
  · rintro ⟨st', hscan', hall⟩ day hday file hfile hintersects
    have heq : st' = st := Option.some.inj (hscan'.symm.trans hscan)
    obtain ⟨day', -, file', hfile', hpath⟩ :=
      (hpushed _).mp (heq ▸ hall day hday file hfile hintersects)
    have hname : day.name = day'.name := (directory_of_filePath hpath).symm
    have htime : dayTime day = dayTime day' := by rw [dayTime, dayTime, hname]
    rw [pushedFiles] at hfile'
    split_ifs at hfile' with htest
    · obtain ⟨-, hend⟩ := List.mem_filter.mp hfile'
      obtain ⟨second, -, hstop, hstime, -⟩ := hintersects
      rw [htime]
      exact ⟨htest, endTime_of_name_eq hname (hstime.trans hstop) (of_decide_eq_true hend).1⟩
    · cases hfile'
  · intro hmeet
    refine ⟨st, hscan, fun day hday file hfile hintersects ↦ ?_⟩
    obtain ⟨htest, hend⟩ := hmeet day hday file hfile hintersects
    obtain ⟨second, hstart, -, -, hetime⟩ := hintersects
    refine (hpushed _).mpr ⟨day, hday, file, ?_, rfl⟩
    rw [pushedFiles, if_pos htest]
    exact List.mem_filter.mpr ⟨hfile, decide_eq_true ⟨hend, hstart.trans hetime⟩⟩

/-- A file of 1 September 2017 with packets from one to two o'clock in the afternoon. -/
def afternoonFile : StoredFile where
  firstChunk := 1504270800
  start := 1504270800
  stop := 1504274400
  id := 0
  startBound := by decide
  stopBound := by decide

/-- The day of that file. -/
def afternoonDay : DayDirectory utc where
  tm := ⟨117, 8, 1, 13, 0, 0⟩
  files := [afternoonFile]
  placed := by decide

/-- A search from noon to three o'clock does not find the file of that afternoon. -/
theorem not_pushesIntersecting :
    ¬ PushesIntersecting 1504267200 1504278000 (fun _ ↦ (0, 0)) "/snappy".toList
      [afternoonDay] := by
  rintro ⟨st, hscan, hall⟩
  have hempty : st = ⟨[], 0, 1⟩ := by
    have hrun : scanFileImpl (scanEnv utc 1504267200 1504278000 fun _ ↦ (0, 0)) "/snappy".toList
        (listing [afternoonDay]) .start = some ⟨[], 0, 1⟩ := by decide
    exact Option.some.inj (hscan.symm.trans hrun)
  have hmem := hall afternoonDay (List.mem_singleton.mpr rfl) afternoonFile
    (List.mem_singleton.mpr rfl) ⟨1504270800, by decide, by decide, by decide, by decide⟩
  rw [hempty] at hmem
  cases hmem

end CppLearn.Pipeline.StoreScan
