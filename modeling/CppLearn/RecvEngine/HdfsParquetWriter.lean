import CppLearn.Foundation.TextSearch
import CppLearn.Foundation.TimeText

/-!
# Writing parquet files to HDFS

`HdfsParquetWriter` receives each parquet file as a sequence of chunks, the last of them flagged. It
opens a file under a name made from the times of the first chunk and renames it after the last, to
the times of that one. `writeToHdfs` is the loop over the chunks. `writeToHdfs_layout` says where a
parquet file ends up: in the directory of the local day of its first chunk, under the times of its
last.

The buffers for names hold 64 bytes, and a longer name is cut there (`pathName_of_lt`).
-/

set_option autoImplicit false
set_option relaxedAutoImplicit false

namespace CppLearn.RecvEngine.HdfsParquetWriter

open Foundation.DecimalText Foundation.LocalTime Foundation.TextSearch Foundation.TimeText

/-! ### The names -/

/-- The settings the writer reads: `m_dfs_root` and `m_enable_second_level_dir`. -/
structure GlobalVars where
  dfsRoot : Text
  enableSecondLevelDir : Bool

/-- The bytes of `hdfs_path`, `hdfs_name` and `new_name`. -/
def nameSize : ℕ := 64

/-- A `time_t` under the conversion `%lu`. -/
def percentLu (time : ℤ) : Text := decimal (BitVec.ofInt 64 time).toNat

/-- `%lu-%lu-%lu.parquet`. -/
def fileName (fileStartTime fileEndTime : ℤ) (id : BitVec 64) : Text :=
  percentLu fileStartTime ++ '-' ::
    (percentLu fileEndTime ++ '-' :: (decimal id.toNat ++ ".parquet".toList))

/-- The name of the directory of a day. -/
def dayText (tm : Tm) : Text :=
  percentD (tm.year + 1900) ++ percent02d (tm.mon + 1) ++ percent02d tm.mday

/-- The directory of a file by the time of its first chunk. `localtime` may fail, and then its null
pointer is followed. -/
def hdfsPath (zone : TimeZone) (vars : GlobalVars) (fileStartTime : ℤ) : Option Text :=
  if vars.enableSecondLevelDir then
    (zone.localtime fileStartTime).map fun tm ↦
      snprintf nameSize ('/' :: (vars.dfsRoot ++ '/' :: dayText tm))
  else some (snprintf nameSize ('/' :: vars.dfsRoot))

/-- A file name in a directory, in a buffer of 64 bytes. -/
def pathName (directory : Text) (fileStartTime fileEndTime : ℤ) (id : BitVec 64) : Text :=
  snprintf nameSize (directory ++ '/' :: fileName fileStartTime fileEndTime id)

/-- A name that fits is written whole. -/
theorem pathName_of_lt {directory : Text} {fileStartTime fileEndTime : ℤ} {id : BitVec 64}
    (hfits : (directory ++ '/' :: fileName fileStartTime fileEndTime id).length < nameSize) :
    pathName directory fileStartTime fileEndTime id =
      directory ++ '/' :: fileName fileStartTime fileEndTime id :=
  snprintf_of_lt hfits

/-! ### The loop over the chunks -/

/-- What the writer has made of HDFS: the directories and the bytes of each file. -/
structure Hdfs where
  directories : List Text
  files : List (Text × List (BitVec 8))

/-- `hdfsCreateDirectory`, where `hdfsExists` does not find the directory. -/
def Hdfs.createDirectory (hdfs : Hdfs) (path : Text) : Hdfs :=
  if path ∈ hdfs.directories then hdfs else { hdfs with directories := hdfs.directories ++ [path] }

/-- `hdfsOpenFile` for writing: a file of the name is replaced by an empty one. -/
def Hdfs.openFile (hdfs : Hdfs) (name : Text) : Hdfs :=
  { hdfs with files := hdfs.files.filter (fun file ↦ file.1 ≠ name) ++ [(name, [])] }

/-- `hdfsWrite` of some bytes at the end of the file of a name. -/
def Hdfs.write (hdfs : Hdfs) (name : Text) (bytes : List (BitVec 8)) : Hdfs :=
  { hdfs with
    files := hdfs.files.map fun file ↦
      if file.1 = name then (name, file.2 ++ bytes) else file }

/-- `hdfsRename`, which fails where a file of the new name exists. -/
def Hdfs.rename (hdfs : Hdfs) (oldName newName : Text) : Hdfs :=
  if newName ∈ hdfs.files.map Prod.fst then hdfs
  else
    { hdfs with
      files := hdfs.files.map fun file ↦ if file.1 = oldName then (newName, file.2) else file }

/-- `ParquetMemChunk`. -/
structure ParquetMemChunk where
  data : List (BitVec 8)
  flag : BitVec 64
  startTime : ℤ
  endTime : ℤ

/-- A parquet file as it is sent, the last of its chunks flagged. With each chunk comes what the
file system answers if it is asked for it. -/
structure SentFile (Answer : Type) where
  front : List (Answer × ParquetMemChunk)
  last : Answer × ParquetMemChunk
  front_flag : ∀ item ∈ front, item.2.flag = 0
  last_flag : last.2.flag = 1

/-- All chunks, in order. -/
def SentFile.items {Answer : Type} (sent : SentFile Answer) : List (Answer × ParquetMemChunk) :=
  sent.front ++ [sent.last]

theorem SentFile.last_flag_ne {Answer : Type} (sent : SentFile Answer) : sent.last.2.flag ≠ 0 := by
  rw [sent.last_flag]
  decide

/-- The bytes of some chunks. -/
def itemBytes {Answer : Type} (items : List (Answer × ParquetMemChunk)) : List (BitVec 8) :=
  items.flatMap fun item ↦ item.2.data

/-- The writer: whether `file_` is open, `hdfs_path`, `hdfs_name` and its id. -/
structure Writer where
  file : Bool
  hdfsPath : Text
  hdfsName : Text
  id : BitVec 64

/-- `generate_filename`. -/
def generateFilename (zone : TimeZone) (vars : GlobalVars) (writer : Writer) (hdfs : Hdfs)
    (fileStartTime fileEndTime : ℤ) : Option (Writer × Hdfs) :=
  (hdfsPath zone vars fileStartTime).map fun path ↦
    ({ writer with
        hdfsPath := path
        hdfsName := pathName path fileStartTime fileEndTime writer.id },
      hdfs.createDirectory path)

/-- `rename_file`. -/
def renameFile (writer : Writer) (hdfs : Hdfs) (fileStartTime fileEndTime : ℤ) : Hdfs :=
  hdfs.rename writer.hdfsName (pathName writer.hdfsPath fileStartTime fileEndTime writer.id)

/-- What HDFS answers for one chunk: whether an open succeeds, and the bytes a write takes. -/
structure HdfsAnswer where
  opened : Bool
  bytesWritten : ℕ

/-- The chunk after the label `clean`: a flagged one closes the file and renames it. -/
def clean (writer : Writer) (hdfs : Hdfs) (chunk : ParquetMemChunk) : Writer × Hdfs :=
  if chunk.flag ≠ 0 then
    ({ writer with file := false }, renameFile writer hdfs chunk.startTime chunk.endTime)
  else (writer, hdfs)

/-- One turn of the loop of `write_to_hdfs`. -/
def writeChunk (zone : TimeZone) (vars : GlobalVars) (writer : Writer) (hdfs : Hdfs)
    (answer : HdfsAnswer) (chunk : ParquetMemChunk) : Option (Writer × Hdfs) :=
  if writer.file then
    some (clean writer (hdfs.write writer.hdfsName (chunk.data.take answer.bytesWritten)) chunk)
  else
    (generateFilename zone vars writer hdfs chunk.startTime chunk.endTime).map
      fun (writer, hdfs) ↦
        if answer.opened then
          clean { writer with file := true }
            ((hdfs.openFile writer.hdfsName).write writer.hdfsName
              (chunk.data.take answer.bytesWritten)) chunk
        else clean writer hdfs chunk

/-- `write_to_hdfs`, on the chunks it finds in its ring. -/
def writeToHdfs (zone : TimeZone) (vars : GlobalVars) :
    Writer → Hdfs → List (HdfsAnswer × ParquetMemChunk) → Option (Writer × Hdfs)
  | writer, hdfs, [] => some (writer, hdfs)
  | writer, hdfs, (answer, chunk) :: chunks =>
    (writeChunk zone vars writer hdfs answer chunk).bind
      fun (writer, hdfs) ↦ writeToHdfs zone vars writer hdfs chunks

/-! ### Where a parquet file ends up -/

/-- Writing changes no name. -/
theorem names_write {hdfs : Hdfs} {name : Text} (bytes : List (BitVec 8)) :
    (hdfs.write name bytes).files.map Prod.fst = hdfs.files.map Prod.fst := by
  simp only [Hdfs.write, List.map_map]
  refine List.map_congr_left fun file _ ↦ ?_
  simp only [Function.comp_apply]
  split_ifs with hname
  · exact hname.symm
  · rfl

theorem mem_names_openFile (hdfs : Hdfs) (name : Text) :
    name ∈ (hdfs.openFile name).files.map Prod.fst := by
  simp only [Hdfs.openFile, List.map_append, List.mem_append, List.map_cons, List.map_nil,
    List.mem_singleton, or_true]

/-- Renaming leaves a file of the new name, where one of either name was there. -/
theorem mem_names_rename {hdfs : Hdfs} {oldName : Text} (newName : Text)
    (hold : oldName ∈ hdfs.files.map Prod.fst) :
    newName ∈ (hdfs.rename oldName newName).files.map Prod.fst := by
  unfold Hdfs.rename
  split_ifs with hnew
  · exact hnew
  · obtain ⟨file, hfile, hname⟩ := List.mem_map.mp hold
    refine List.mem_map.mpr ⟨(newName, file.2), List.mem_map.mpr ⟨file, hfile, ?_⟩, rfl⟩
    rw [if_pos hname]

/-- An open writer: its file is on HDFS. -/
def Writing (writer : Writer) (hdfs : Hdfs) (path : Text) (id : BitVec 64) : Prop :=
  writer.file = true ∧ writer.hdfsPath = path ∧ writer.id = id ∧
    writer.hdfsName ∈ hdfs.files.map Prod.fst

/-- Assumes: an open writer. The chunks up to a flagged one end with a file under the times of that
chunk, in the directory of the writer. -/
theorem writeToHdfs_of_writing (zone : TimeZone) (vars : GlobalVars) {writer : Writer} {hdfs : Hdfs}
    {path : Text} {id : BitVec 64} (hwriting : Writing writer hdfs path id)
    (middle : List (HdfsAnswer × ParquetMemChunk)) (answer : HdfsAnswer) (last : ParquetMemChunk)
    (hmiddle : ∀ item ∈ middle, item.2.flag = 0) (hlast : last.flag ≠ 0) :
    ∃ writer' hdfs', writeToHdfs zone vars writer hdfs (middle ++ [(answer, last)]) =
      some (writer', hdfs') ∧ writer'.file = false ∧
      pathName path last.startTime last.endTime id ∈ hdfs'.files.map Prod.fst := by
  induction middle generalizing writer hdfs with
  | nil =>
    obtain ⟨hfile, hpath, hid, hname⟩ := hwriting
    simp only [List.nil_append, writeToHdfs, writeChunk, hfile, if_true, Option.bind_some, clean,
      hlast, ne_eq, not_false_eq_true]
    refine ⟨_, _, rfl, rfl, ?_⟩
    simp only [renameFile, hpath, hid]
    exact mem_names_rename _ (by rw [names_write]; exact hname)
  | cons item middle ih =>
    obtain ⟨hfile, hpath, hid, hname⟩ := hwriting
    have hflag : item.2.flag = 0 := hmiddle item (List.mem_cons_self ..)
    simp only [List.cons_append, writeToHdfs, writeChunk, hfile, if_true, Option.bind_some, clean,
      hflag, ne_eq, not_true_eq_false, if_false]
    refine ih ⟨hfile, hpath, hid, ?_⟩ fun other hother ↦ hmiddle other (List.mem_cons_of_mem _ hother)
    rw [names_write]
    exact hname

/-- Assumes: a closed writer, a parquet file whose last chunk is the only flagged one, an open that
succeeds at its first chunk, and a day for the time of that chunk. The file ends up in the directory
of that day, under the times of its last chunk. -/
theorem writeToHdfs_layout (zone : TimeZone) (vars : GlobalVars) {writer : Writer} {path : Text}
    (hdfs : Hdfs) (front : List (HdfsAnswer × ParquetMemChunk)) (answer : HdfsAnswer)
    (last : ParquetMemChunk) {first : HdfsAnswer × ParquetMemChunk}
    (hclosed : writer.file = false) (hfront : ∀ item ∈ front, item.2.flag = 0)
    (hlast : last.flag ≠ 0) (hfirst : (front ++ [(answer, last)]).head? = some first)
    (hopened : first.1.opened = true) (hpath : hdfsPath zone vars first.2.startTime = some path) :
    ∃ writer' hdfs', writeToHdfs zone vars writer hdfs (front ++ [(answer, last)]) =
      some (writer', hdfs') ∧ writer'.file = false ∧
      pathName path last.startTime last.endTime writer.id ∈ hdfs'.files.map Prod.fst := by
  rcases front with _ | ⟨item, middle⟩
  · rw [List.nil_append, List.head?_cons, Option.some.injEq] at hfirst
    rw [← hfirst] at hopened hpath
    have hanswer : answer.opened = true := hopened
    simp only [List.nil_append, writeToHdfs, writeChunk, hclosed, Bool.false_eq_true, if_false,
      generateFilename, hpath, Option.map_some, hanswer, if_true, Option.bind_some, clean, hlast,
      ne_eq, not_false_eq_true, renameFile]
    refine ⟨_, _, rfl, rfl, mem_names_rename _ ?_⟩
    rw [names_write]
    exact mem_names_openFile _ _
  · rw [List.cons_append, List.head?_cons, Option.some.injEq] at hfirst
    have hflag : item.2.flag = 0 := hfront item (List.mem_cons_self ..)
    rw [← hfirst] at hopened hpath
    simp only [List.cons_append, writeToHdfs, writeChunk, hclosed, Bool.false_eq_true, if_false,
      generateFilename, hpath, Option.map_some, hopened, if_true, Option.bind_some, clean, hflag,
      ne_eq, not_true_eq_false]
    refine writeToHdfs_of_writing zone vars ⟨rfl, rfl, rfl, ?_⟩ middle answer last
      (fun other hother ↦ hfront other (List.mem_cons_of_mem _ hother)) hlast
    rw [names_write]
    exact mem_names_openFile _ _

end CppLearn.RecvEngine.HdfsParquetWriter
