import CppLearn.RecvEngine.HdfsParquetWriter

/-!
# Writing parquet files to QFS

`QfsParquetWriter` keeps the descriptor of its open file in `m_qfs_fd`, where zero stands for no
open file. But zero is a descriptor too, and the constructor leaves the member as it finds it.

`oneFileEach_iff`: `Create` is called once for each parquet file, for all of its chunks, exactly if
the member is zero at first and no parquet file of several chunks is given the descriptor zero.
-/

set_option autoImplicit false
set_option relaxedAutoImplicit false

namespace CppLearn.RecvEngine.QfsParquetWriter

open Foundation.DecimalText Foundation.LocalTime
open HdfsParquetWriter (GlobalVars ParquetMemChunk SentFile hdfsPath pathName)

/-! ### The client -/

/-- A file made by `Create`: the parquet file for whose chunk, and the parquet file and the bytes of
every chunk written to it. -/
structure CreatedFile where
  owner : ℕ
  pieces : List (ℕ × List (BitVec 8))

/-- A chunk of the parquet file `owner` is appended. -/
def CreatedFile.append (file : CreatedFile) (owner : ℕ) (bytes : List (BitVec 8)) : CreatedFile :=
  { file with pieces := file.pieces ++ [(owner, bytes)] }

/-- QFS as the client of the writer has used it: the directories, the files in the order of the
calls of `Create`, each with its name there, the file of each open descriptor, and the renamings. -/
structure Qfs where
  directories : List Text
  created : List (Text × CreatedFile)
  openFiles : List (ℤ × ℕ)
  renamed : List (Text × Text)

/-- `Mkdirs`, where `Exists` does not find the directory. -/
def Qfs.mkdirs (qfs : Qfs) (path : Text) : Qfs :=
  if path ∈ qfs.directories then qfs else { qfs with directories := qfs.directories ++ [path] }

/-- `Create` with an answer that is a descriptor. -/
def Qfs.create (qfs : Qfs) (owner : ℕ) (name : Text) (descriptor : ℤ) : Qfs :=
  { qfs with
    created := qfs.created ++ [(name, ⟨owner, []⟩)]
    openFiles := (descriptor, qfs.created.length) :: qfs.openFiles }

/-- `Write` to the file of a descriptor, and to none of those created where it has none. -/
def Qfs.write (qfs : Qfs) (owner : ℕ) (descriptor : ℤ) (bytes : List (BitVec 8)) : Qfs :=
  match qfs.openFiles.lookup descriptor with
  | some indx =>
    { qfs with
      created := qfs.created.modify indx fun (name, file) ↦ (name, file.append owner bytes) }
  | none => qfs

/-- `Close`. -/
def Qfs.close (qfs : Qfs) (descriptor : ℤ) : Qfs :=
  { qfs with openFiles := qfs.openFiles.filter fun file ↦ file.1 ≠ descriptor }

/-- `Rename`. -/
def Qfs.rename (qfs : Qfs) (oldName newName : Text) : Qfs :=
  { qfs with renamed := qfs.renamed ++ [(oldName, newName)] }

/-- What QFS answers for one chunk: a descriptor or an error for `Create`, and the bytes a write
takes. -/
structure QfsAnswer where
  descriptor : ℤ
  bytesWritten : ℕ

/-! ### The loop over the chunks -/

/-- The writer: `m_qfs_fd`, `m_qfs_path`, `m_qfs_name` and its id. -/
structure Writer where
  mQfsFd : ℤ
  mQfsPath : Text
  mQfsName : Text
  id : BitVec 64

/-- `generate_filename`, whose paths and names are those of the other writer. -/
def generateFilename (zone : TimeZone) (vars : GlobalVars) (writer : Writer) (qfs : Qfs)
    (fileStartTime fileEndTime : ℤ) : Option (Writer × Qfs) :=
  (hdfsPath zone vars fileStartTime).map fun path ↦
    ({ writer with
        mQfsPath := path
        mQfsName := pathName path fileStartTime fileEndTime writer.id },
      qfs.mkdirs path)

/-- `rename_file`. -/
def renameFile (writer : Writer) (qfs : Qfs) (fileStartTime fileEndTime : ℤ) : Qfs :=
  qfs.rename writer.mQfsName (pathName writer.mQfsPath fileStartTime fileEndTime writer.id)

/-- The chunk after the label `clean`: a flagged one closes the file and renames it. -/
def clean (writer : Writer) (qfs : Qfs) (chunk : ParquetMemChunk) : Writer × Qfs :=
  if chunk.flag ≠ 0 then
    ({ writer with mQfsFd := 0 },
      renameFile writer (qfs.close writer.mQfsFd) chunk.startTime chunk.endTime)
  else (writer, qfs)

/-- One turn of the loop of `write_to_qfs`, on a chunk of the parquet file `owner`. -/
def writeChunk (zone : TimeZone) (vars : GlobalVars) (owner : ℕ) (writer : Writer) (qfs : Qfs)
    (answer : QfsAnswer) (chunk : ParquetMemChunk) : Option (Writer × Qfs) :=
  if writer.mQfsFd = 0 then
    (generateFilename zone vars writer qfs chunk.startTime chunk.endTime).map
      fun (writer, qfs) ↦
        if answer.descriptor < 0 then clean { writer with mQfsFd := 0 } qfs chunk
        else
          clean { writer with mQfsFd := answer.descriptor }
            ((qfs.create owner writer.mQfsName answer.descriptor).write owner answer.descriptor
              (chunk.data.take answer.bytesWritten)) chunk
  else
    some (clean writer
      (qfs.write owner writer.mQfsFd (chunk.data.take answer.bytesWritten)) chunk)

/-- `write_to_qfs`, on the chunks of one parquet file. -/
def writeToQfs (zone : TimeZone) (vars : GlobalVars) (owner : ℕ) :
    Writer → Qfs → List (QfsAnswer × ParquetMemChunk) → Option (Writer × Qfs)
  | writer, qfs, [] => some (writer, qfs)
  | writer, qfs, (answer, chunk) :: chunks =>
    (writeChunk zone vars owner writer qfs answer chunk).bind
      fun (writer, qfs) ↦ writeToQfs zone vars owner writer qfs chunks

/-- The parquet files one after the other, numbered from `owner` on. -/
def writeFiles (zone : TimeZone) (vars : GlobalVars) :
    ℕ → Writer → Qfs → List (SentFile QfsAnswer) → Option (Writer × Qfs)
  | _, writer, qfs, [] => some (writer, qfs)
  | owner, writer, qfs, sent :: files =>
    (writeToQfs zone vars owner writer qfs sent.items).bind
      fun (writer, qfs) ↦ writeFiles zone vars (owner + 1) writer qfs files

variable {zone : TimeZone} {vars : GlobalVars} {owner : ℕ}

/-- `Create` gives a descriptor, and a write takes all bytes. -/
def Succeeds (item : QfsAnswer × ParquetMemChunk) : Prop :=
  0 ≤ item.1.descriptor ∧ item.1.bytesWritten = item.2.data.length

/-! ### One chunk -/

/-- What a chunk leaves in the file that it is written to. -/
def piece (owner : ℕ) (item : QfsAnswer × ParquetMemChunk) : ℕ × List (BitVec 8) :=
  (owner, item.2.data)

/-- The writer has the last file created open, under a descriptor other than zero. -/
def LastOpen (writer : Writer) (qfs : Qfs) (front : List (Text × CreatedFile)) (name : Text)
    (file : CreatedFile) : Prop :=
  writer.mQfsFd ≠ 0 ∧ qfs.created = front ++ [(name, file)] ∧
    qfs.openFiles.lookup writer.mQfsFd = some front.length

/-- A write to the last file created. -/
theorem write_last {qfs : Qfs} {front : List (Text × CreatedFile)} {name : Text}
    {file : CreatedFile} {descriptor : ℤ} (hcreated : qfs.created = front ++ [(name, file)])
    (hopen : qfs.openFiles.lookup descriptor = some front.length) (bytes : List (BitVec 8)) :
    (qfs.write owner descriptor bytes).created = front ++ [(name, file.append owner bytes)] ∧
      (qfs.write owner descriptor bytes).openFiles = qfs.openFiles := by
  rw [Qfs.write, hopen]
  refine ⟨?_, rfl⟩
  simp only [hcreated]
  rw [List.modify_eq_take_drop]
  simp

/-- A write to a file that has just been created. -/
theorem write_create (owner : ℕ) (qfs : Qfs) (name : Text) (descriptor : ℤ)
    (bytes : List (BitVec 8)) :
    ((qfs.create owner name descriptor).write owner descriptor bytes).created =
        qfs.created ++ [(name, ⟨owner, [(owner, bytes)]⟩)] ∧
      ((qfs.create owner name descriptor).write owner descriptor bytes).openFiles.lookup
        descriptor = some qfs.created.length := by
  have hlookup : (qfs.create owner name descriptor).openFiles.lookup descriptor =
      some qfs.created.length := List.lookup_cons_self
  obtain ⟨hwritten, hfiles⟩ := write_last rfl hlookup bytes
  exact ⟨hwritten, by rw [hfiles, hlookup]⟩

/-- Closing and renaming leave what has been written. -/
theorem created_clean (writer : Writer) (qfs : Qfs) (chunk : ParquetMemChunk) :
    (clean writer qfs chunk).2.created = qfs.created := by
  rw [clean]
  split_ifs
  · rfl
  · rfl

theorem clean_of_flag_eq_zero (writer : Writer) (qfs : Qfs) {chunk : ParquetMemChunk}
    (hflag : chunk.flag = 0) : clean writer qfs chunk = (writer, qfs) :=
  if_neg (not_not.mpr hflag)

theorem mQfsFd_clean (writer : Writer) (qfs : Qfs) {chunk : ParquetMemChunk}
    (hflag : chunk.flag ≠ 0) : (clean writer qfs chunk).1.mQfsFd = 0 := by
  rw [clean, if_pos hflag]

/-- With a member other than zero a chunk is written under that descriptor. -/
theorem writeChunk_of_ne {writer : Writer} (hopen : writer.mQfsFd ≠ 0) (qfs : Qfs)
    {item : QfsAnswer × ParquetMemChunk} (hsucceeds : Succeeds item) :
    writeChunk zone vars owner writer qfs item.1 item.2 =
      some (clean writer (qfs.write owner writer.mQfsFd item.2.data) item.2) := by
  rw [writeChunk, if_neg hopen, hsucceeds.2, List.take_length]

/-- A chunk is appended to the file that is open, which a flag closes. -/
theorem LastOpen.writeChunk {writer writer' : Writer} {qfs qfs' : Qfs}
    {front : List (Text × CreatedFile)} {name : Text} {file : CreatedFile}
    {item : QfsAnswer × ParquetMemChunk} (h : LastOpen writer qfs front name file)
    (hsucceeds : Succeeds item)
    (hwrite : writeChunk zone vars owner writer qfs item.1 item.2 = some (writer', qfs')) :
    qfs'.created = front ++ [(name, file.append owner item.2.data)] ∧
      (item.2.flag = 0 → LastOpen writer' qfs' front name (file.append owner item.2.data)) ∧
      (item.2.flag ≠ 0 → writer'.mQfsFd = 0) := by
  obtain ⟨hopen, hcreated, hlookup⟩ := h
  obtain ⟨hwritten, hfiles⟩ : _ ∧ (qfs.write owner writer.mQfsFd item.2.data).openFiles = _ :=
    write_last hcreated hlookup item.2.data
  rw [writeChunk_of_ne hopen qfs hsucceeds, Option.some.injEq] at hwrite
  refine ⟨?_, fun hflag ↦ ?_, fun hflag ↦ ?_⟩
  · rw [← congrArg (fun result ↦ result.2.created) hwrite, created_clean]
    exact hwritten
  · rw [clean_of_flag_eq_zero _ _ hflag] at hwrite
    obtain ⟨rfl, rfl⟩ := Prod.mk.inj hwrite
    exact ⟨hopen, hwritten, by rw [hfiles, hlookup]⟩
  · rw [← mQfsFd_clean writer _ hflag, hwrite]

/-- With the member zero a file is created for the chunk. It is taken for open afterwards exactly if
its descriptor is not zero and the chunk has no flag. -/
theorem writeChunk_of_eq {writer writer' : Writer} {qfs qfs' : Qfs}
    {item : QfsAnswer × ParquetMemChunk} (hclosed : writer.mQfsFd = 0) (hsucceeds : Succeeds item)
    (hwrite : writeChunk zone vars owner writer qfs item.1 item.2 = some (writer', qfs')) :
    ∃ name, qfs'.created = qfs.created ++ [(name, ⟨owner, [piece owner item]⟩)] ∧
      (item.2.flag = 0 → writer'.mQfsFd = item.1.descriptor) ∧
      (item.2.flag = 0 → item.1.descriptor ≠ 0 →
        LastOpen writer' qfs' qfs.created name ⟨owner, [piece owner item]⟩) ∧
      (item.2.flag ≠ 0 → writer'.mQfsFd = 0) := by
  rw [QfsParquetWriter.writeChunk, if_pos hclosed] at hwrite
  obtain ⟨⟨named, made⟩, hgenerate, hclean⟩ := Option.map_eq_some_iff.mp hwrite
  obtain ⟨path, -, heq⟩ := Option.map_eq_some_iff.mp hgenerate
  obtain ⟨rfl, rfl⟩ := Prod.mk.inj heq
  have hmade : (qfs.mkdirs path).created = qfs.created := by
    rw [Qfs.mkdirs]
    split_ifs
    · rfl
    · rfl
  simp only [not_lt.mpr hsucceeds.1, if_false, hsucceeds.2, List.take_length] at hclean
  obtain ⟨hwritten, hlookup⟩ := write_create owner (qfs.mkdirs path)
    (pathName path item.2.startTime item.2.endTime writer.id) item.1.descriptor item.2.data
  rw [hmade] at hwritten hlookup
  refine ⟨pathName path item.2.startTime item.2.endTime writer.id, ?_, fun hflag ↦ ?_,
    fun hflag hdescriptor ↦ ?_, fun hflag ↦ ?_⟩
  · rw [← congrArg (fun result ↦ result.2.created) hclean, created_clean]
    exact hwritten
  · rw [clean_of_flag_eq_zero _ _ hflag] at hclean
    obtain ⟨rfl, -⟩ := Prod.mk.inj hclean
    rfl
  · rw [clean_of_flag_eq_zero _ _ hflag] at hclean
    obtain ⟨rfl, rfl⟩ := Prod.mk.inj hclean
    exact ⟨hdescriptor, hwritten, hlookup⟩
  · rw [← congrArg (fun result ↦ result.1.mQfsFd) hclean]
    exact mQfsFd_clean _ _ hflag

/-! ### One parquet file -/

section ParquetFile

variable {writer writer' : Writer} {qfs qfs' : Qfs} {items : List (QfsAnswer × ParquetMemChunk)}
  {last : QfsAnswer × ParquetMemChunk}

/-- One turn of the loop and the rest of it. -/
theorem exists_writeChunk {item : QfsAnswer × ParquetMemChunk}
    (hwrite : writeToQfs zone vars owner writer qfs (item :: items) = some (writer', qfs')) :
    ∃ middle between, writeChunk zone vars owner writer qfs item.1 item.2 = some (middle, between) ∧
      writeToQfs zone vars owner middle between items = some (writer', qfs') := by
  obtain ⟨⟨middle, between⟩, hitem, hitems⟩ := Option.bind_eq_some_iff.mp hwrite
  exact ⟨middle, between, hitem, hitems⟩

/-- The chunks up to a flagged one all go to the file that is open. -/
theorem LastOpen.writeToQfs {front : List (Text × CreatedFile)} {name : Text} {file : CreatedFile}
    (h : LastOpen writer qfs front name file) (hsucceed : ∀ item ∈ items ++ [last], Succeeds item)
    (hitems : ∀ item ∈ items, item.2.flag = 0) (hlast : last.2.flag ≠ 0)
    (hwrite : writeToQfs zone vars owner writer qfs (items ++ [last]) = some (writer', qfs')) :
    writer'.mQfsFd = 0 ∧ qfs'.created = front ++
      [(name, { file with pieces := file.pieces ++ (items ++ [last]).map (piece owner) })] := by
  induction items generalizing writer qfs file with
  | nil =>
    obtain ⟨middle, between, hitem, hrest⟩ := exists_writeChunk hwrite
    obtain ⟨hcreated, -, hclosed⟩ := h.writeChunk (hsucceed last (List.mem_singleton.mpr rfl)) hitem
    cases hrest
    exact ⟨hclosed hlast, hcreated⟩
  | cons item items ih =>
    obtain ⟨middle, between, hitem, hrest⟩ := exists_writeChunk hwrite
    obtain ⟨hfirst, hsucceed'⟩ := List.forall_mem_cons.mp hsucceed
    obtain ⟨hflag, hitems'⟩ := List.forall_mem_cons.mp hitems
    obtain ⟨-, hopen, -⟩ := h.writeChunk hfirst hitem
    obtain ⟨hclosed, hcreated⟩ := ih (hopen hflag) hsucceed' hitems' hrest
    refine ⟨hclosed, ?_⟩
    rw [hcreated, CreatedFile.append, List.append_assoc]
    rfl

/-- The files created for the chunks of a parquet file, where the member is zero before. As long as
the descriptors are zero, every chunk gets a file of its own. -/
def createdBy (owner : ℕ) : List (QfsAnswer × ParquetMemChunk) → List CreatedFile
  | [] => []
  | item :: items =>
    if item.1.descriptor = 0 then ⟨owner, [piece owner item]⟩ :: createdBy owner items
    else [⟨owner, (item :: items).map (piece owner)⟩]

theorem createdBy_singleton (owner : ℕ) (item : QfsAnswer × ParquetMemChunk) :
    createdBy owner [item] = [⟨owner, [piece owner item]⟩] := by
  rw [createdBy]
  split_ifs
  · rfl
  · rfl

/-- A parquet file that comes when the member is zero. -/
theorem writeToQfs_closed (hzero : writer.mQfsFd = 0)
    (hsucceed : ∀ item ∈ items ++ [last], Succeeds item)
    (hitems : ∀ item ∈ items, item.2.flag = 0) (hlast : last.2.flag ≠ 0)
    (hwrite : writeToQfs zone vars owner writer qfs (items ++ [last]) = some (writer', qfs')) :
    writer'.mQfsFd = 0 ∧ qfs'.created.map Prod.snd =
      qfs.created.map Prod.snd ++ createdBy owner (items ++ [last]) := by
  induction items generalizing writer qfs with
  | nil =>
    obtain ⟨middle, between, hitem, hrest⟩ := exists_writeChunk hwrite
    obtain ⟨name, hcreated, -, -, hclosed⟩ :=
      writeChunk_of_eq hzero (hsucceed last (List.mem_singleton.mpr rfl)) hitem
    cases hrest
    refine ⟨hclosed hlast, ?_⟩
    rw [hcreated, List.map_append, List.nil_append, createdBy_singleton]
    rfl
  | cons item items ih =>
    obtain ⟨middle, between, hitem, hrest⟩ := exists_writeChunk hwrite
    obtain ⟨hfirst, hsucceed'⟩ := List.forall_mem_cons.mp hsucceed
    obtain ⟨hflag, hitems'⟩ := List.forall_mem_cons.mp hitems
    obtain ⟨name, hcreated, hdescriptor, hopen, -⟩ := writeChunk_of_eq hzero hfirst hitem
    rw [List.cons_append, createdBy]
    by_cases hfd : item.1.descriptor = 0
    · rw [if_pos hfd]
      obtain ⟨hclosed, hmap⟩ := ih ((hdescriptor hflag).trans hfd) hsucceed' hitems' hrest
      refine ⟨hclosed, ?_⟩
      rw [hmap, hcreated, List.map_append, List.append_assoc]
      rfl
    · rw [if_neg hfd]
      obtain ⟨hclosed, hmap⟩ := (hopen hflag hfd).writeToQfs hsucceed' hitems' hlast hrest
      refine ⟨hclosed, ?_⟩
      rw [hmap, List.map_append]
      rfl

/-- A parquet file that comes when the member is not zero, while no file is open: no file is created
for it. -/
theorem writeToQfs_stray (hne : writer.mQfsFd ≠ 0) (hopenFiles : qfs.openFiles = [])
    (hsucceed : ∀ item ∈ items ++ [last], Succeeds item)
    (hitems : ∀ item ∈ items, item.2.flag = 0) (hlast : last.2.flag ≠ 0)
    (hwrite : writeToQfs zone vars owner writer qfs (items ++ [last]) = some (writer', qfs')) :
    writer'.mQfsFd = 0 ∧ qfs'.created = qfs.created := by
  have hnowhere : ∀ bytes, qfs.write owner writer.mQfsFd bytes = qfs := by
    intro bytes
    rw [Qfs.write, hopenFiles]
    rfl
  induction items generalizing writer with
  | nil =>
    obtain ⟨middle, between, hitem, hrest⟩ := exists_writeChunk hwrite
    rw [writeChunk_of_ne hne qfs (hsucceed last (List.mem_singleton.mpr rfl)), hnowhere,
      Option.some.injEq] at hitem
    cases hrest
    constructor
    · rw [← congrArg (fun result ↦ result.1.mQfsFd) hitem]
      exact mQfsFd_clean _ _ hlast
    · rw [← congrArg (fun result ↦ result.2.created) hitem, created_clean]
  | cons item items ih =>
    obtain ⟨middle, between, hitem, hrest⟩ := exists_writeChunk hwrite
    obtain ⟨hfirst, hsucceed'⟩ := List.forall_mem_cons.mp hsucceed
    obtain ⟨hflag, hitems'⟩ := List.forall_mem_cons.mp hitems
    rw [writeChunk_of_ne hne qfs hfirst, hnowhere, clean_of_flag_eq_zero _ _ hflag] at hitem
    cases hitem
    exact ih hne hsucceed' hitems' hrest hnowhere

end ParquetFile

/-! ### All parquet files -/

/-- The files created for some parquet files, numbered from `owner` on. -/
def createdFiles : ℕ → List (SentFile QfsAnswer) → List CreatedFile
  | _, [] => []
  | owner, sent :: files => createdBy owner sent.items ++ createdFiles (owner + 1) files

theorem writeFiles_closed {files : List (SentFile QfsAnswer)} {writer writer' : Writer}
    {qfs qfs' : Qfs} (hzero : writer.mQfsFd = 0)
    (hsucceed : ∀ sent ∈ files, ∀ item ∈ sent.items, Succeeds item)
    (hwrite : writeFiles zone vars owner writer qfs files = some (writer', qfs')) :
    qfs'.created.map Prod.snd = qfs.created.map Prod.snd ++ createdFiles owner files := by
  induction files generalizing owner writer qfs with
  | nil =>
    cases hwrite
    exact (List.append_nil _).symm
  | cons sent files ih =>
    obtain ⟨⟨middle, between⟩, hsent, hfiles⟩ := Option.bind_eq_some_iff.mp hwrite
    obtain ⟨hfirst, hsucceed'⟩ := List.forall_mem_cons.mp hsucceed
    obtain ⟨hclosed, hmap⟩ :=
      writeToQfs_closed hzero hfirst sent.front_flag sent.last_flag_ne hsent
    rw [ih hclosed hsucceed' hfiles, hmap, List.append_assoc]
    rfl

/-- The bytes in a file of a parquet file. -/
def CreatedFile.piecesOf (file : CreatedFile) (indx : ℕ) : List (List (BitVec 8)) :=
  (file.pieces.filter fun piece ↦ piece.1 = indx).map Prod.snd

/-- `Create` is called once for each parquet file, and all its chunks are written, in order, to one
of the files created, and none to another. -/
def OneFileEach (files : List (SentFile QfsAnswer)) (created : List CreatedFile) : Prop :=
  ∀ indx sent, files[indx]? = some sent →
    (created.countP fun file ↦ file.owner = indx) = 1 ∧
      ∃ (target : ℕ) (file : CreatedFile), created[target]? = some file ∧
        file.piecesOf indx = sent.items.map (fun item ↦ item.2.data) ∧
        ∀ (other : ℕ) (file' : CreatedFile),
          created[other]? = some file' → other ≠ target → file'.piecesOf indx = []

/-- If a parquet file has more than one chunk, its first is not given the descriptor zero. -/
def FirstNonzero (sent : SentFile QfsAnswer) : Prop :=
  ∀ item ∈ sent.front.head?, item.1.descriptor ≠ 0

/-- A file is made for every parquet file, and for one of several chunks no other exactly if its
descriptor is not zero. -/
theorem length_createdBy_iff (owner : ℕ) (sent : SentFile QfsAnswer) :
    (createdBy owner sent.items).length = 1 ↔ FirstNonzero sent := by
  rw [SentFile.items, FirstNonzero]
  rcases sent.front with _ | ⟨first, rest⟩
  · simp [createdBy_singleton]
  · have hmore : (createdBy owner (rest ++ [sent.last])).length ≠ 0 := by
      rcases rest with _ | ⟨second, rest⟩
      · simp [createdBy_singleton]
      · rw [List.cons_append, createdBy]
        split_ifs
        · exact Nat.succ_ne_zero _
        · exact Nat.succ_ne_zero _
    simp only [List.head?_cons, Option.mem_def, Option.some.injEq, forall_eq']
    rw [List.cons_append, createdBy]
    split_ifs with hzero
    · rw [List.length_cons, Nat.succ_inj]
      exact iff_of_false hmore (not_not.mpr hzero)
    · exact iff_of_true rfl hzero

/-- Under a first descriptor other than zero all chunks are in one file. -/
theorem createdBy_of_firstNonzero (owner : ℕ) {sent : SentFile QfsAnswer}
    (h : FirstNonzero sent) :
    createdBy owner sent.items = [⟨owner, sent.items.map (piece owner)⟩] := by
  rw [SentFile.items]
  unfold FirstNonzero at h
  rcases hfront : sent.front with _ | ⟨first, rest⟩
  · exact createdBy_singleton owner sent.last
  · rw [hfront] at h
    rw [List.cons_append, createdBy, if_neg (h first rfl)]

theorem owner_of_mem_createdBy {items : List (QfsAnswer × ParquetMemChunk)} {file : CreatedFile}
    (hfile : file ∈ createdBy owner items) : file.owner = owner := by
  induction items with
  | nil => cases hfile
  | cons item items ih =>
    rw [createdBy] at hfile
    split_ifs at hfile
    · rcases List.mem_cons.mp hfile with rfl | hfile
      · rfl
      · exact ih hfile
    · rw [List.mem_singleton.mp hfile]

theorem le_owner_of_mem_createdFiles {files : List (SentFile QfsAnswer)} {file : CreatedFile}
    (hfile : file ∈ createdFiles owner files) : owner ≤ file.owner := by
  induction files generalizing owner with
  | nil => cases hfile
  | cons sent files ih =>
    rcases List.mem_append.mp hfile with hfile | hfile
    · exact (owner_of_mem_createdBy hfile).ge
    · exact (Nat.le_succ owner).trans (ih hfile)

/-- The files of one owner are those created for its chunks. -/
theorem countP_createdFiles (owner : ℕ) {files : List (SentFile QfsAnswer)} {indx : ℕ}
    {sent : SentFile QfsAnswer} (hsent : files[indx]? = some sent) :
    ((createdFiles owner files).countP fun file ↦ file.owner = owner + indx) =
      (createdBy (owner + indx) sent.items).length := by
  induction files generalizing owner indx with
  | nil => cases hsent
  | cons first files ih =>
    rw [createdFiles, List.countP_append]
    rcases indx with _ | indx
    · cases hsent
      have hrest : ((createdFiles (owner + 1) files).countP
          fun file ↦ file.owner = owner + 0) = 0 := by
        refine List.countP_eq_zero.mpr fun file hfile ↦ ?_
        have hle := le_owner_of_mem_createdFiles hfile
        rw [decide_eq_true_eq]
        omega
      rw [hrest, Nat.add_zero, Nat.add_zero, List.countP_eq_length]
      intro file hfile
      rw [owner_of_mem_createdBy hfile]
      exact decide_eq_true rfl
    · have hfirst : ((createdBy owner first.items).countP
          fun file ↦ file.owner = owner + (indx + 1)) = 0 := by
        refine List.countP_eq_zero.mpr fun file hfile ↦ ?_
        have heq := owner_of_mem_createdBy hfile
        rw [decide_eq_true_eq]
        omega
      have hadd : owner + (indx + 1) = owner + 1 + indx := by omega
      rw [hfirst, Nat.zero_add, hadd]
      exact ih (owner + 1) hsent

/-- With first descriptors other than zero there is one file for each parquet file. -/
theorem getElem?_createdFiles (owner : ℕ) {files : List (SentFile QfsAnswer)}
    (h : ∀ sent ∈ files, FirstNonzero sent) (indx : ℕ) :
    (createdFiles owner files)[indx]? = files[indx]?.map fun sent ↦
      ⟨owner + indx, sent.items.map (piece (owner + indx))⟩ := by
  induction files generalizing owner indx with
  | nil => rfl
  | cons first files ih =>
    rw [createdFiles, createdBy_of_firstNonzero owner (h first (List.mem_cons_self ..)),
      List.singleton_append]
    rcases indx with _ | indx
    · rfl
    · have hadd : owner + (indx + 1) = owner + 1 + indx := by omega
      rw [List.getElem?_cons_succ, List.getElem?_cons_succ, hadd]
      exact ih (owner + 1) (fun sent hsent ↦ h sent (List.mem_cons_of_mem _ hsent)) indx

theorem piecesOf_pieces (owner indx : ℕ) (items : List (QfsAnswer × ParquetMemChunk)) :
    CreatedFile.piecesOf ⟨owner, items.map (piece owner)⟩ indx =
      if owner = indx then items.map fun item ↦ item.2.data else [] := by
  rw [CreatedFile.piecesOf]
  split_ifs with heq
  · rw [List.filter_eq_self.mpr, List.map_map]
    · rfl
    · intro entry hentry
      obtain ⟨item, -, rfl⟩ := List.mem_map.mp hentry
      exact decide_eq_true heq
  · rw [List.filter_eq_nil_iff.mpr]
    · rfl
    · intro entry hentry
      obtain ⟨item, -, rfl⟩ := List.mem_map.mp hentry
      rw [decide_eq_true_eq]
      exact heq

theorem oneFileEach_createdFiles_iff (files : List (SentFile QfsAnswer)) :
    OneFileEach files (createdFiles 0 files) ↔ ∀ sent ∈ files, FirstNonzero sent := by
  constructor
  · intro hone sent hsent
    obtain ⟨indx, hindx⟩ := List.mem_iff_getElem?.mp hsent
    have hcount := countP_createdFiles 0 hindx
    rw [Nat.zero_add, (hone indx sent hindx).1] at hcount
    exact (length_createdBy_iff indx sent).mp hcount.symm
  · intro hfirst indx sent hindx
    have hget := getElem?_createdFiles 0 hfirst
    simp only [Nat.zero_add] at hget
    constructor
    · have hcount := countP_createdFiles 0 hindx
      rw [Nat.zero_add] at hcount
      rw [hcount]
      exact (length_createdBy_iff indx sent).mpr (hfirst sent (List.mem_of_getElem? hindx))
    · refine ⟨indx, ⟨indx, sent.items.map (piece indx)⟩, ?_, ?_, ?_⟩
      · rw [hget, hindx]
        rfl
      · rw [piecesOf_pieces, if_pos rfl]
      · intro other file' hother hne
        rw [hget] at hother
        obtain ⟨sent', -, rfl⟩ := Option.map_eq_some_iff.mp hother
        rw [piecesOf_pieces, if_neg hne]

/-- Assumes: QFS before the first `Create`, answers that succeed, and that the loop has handled all
chunks of some parquet files. `Create` was called once for each, for all of its chunks, exactly if
the member was zero at first and no parquet file of several chunks was given the descriptor zero. -/
theorem oneFileEach_iff {files : List (SentFile QfsAnswer)} {writer writer' : Writer}
    {qfs qfs' : Qfs} (hcreated : qfs.created = []) (hopenFiles : qfs.openFiles = [])
    (hsucceed : ∀ sent ∈ files, ∀ item ∈ sent.items, Succeeds item)
    (hwrite : writeFiles zone vars 0 writer qfs files = some (writer', qfs')) :
    OneFileEach files (qfs'.created.map Prod.snd) ↔
      (files ≠ [] → writer.mQfsFd = 0) ∧ ∀ sent ∈ files, FirstNonzero sent := by
  by_cases hzero : writer.mQfsFd = 0
  · rw [writeFiles_closed hzero hsucceed hwrite, hcreated, List.map_nil, List.nil_append,
      oneFileEach_createdFiles_iff]
    exact (and_iff_right fun _ ↦ hzero).symm
  · rcases files with _ | ⟨sent, files⟩
    · refine iff_of_true (fun indx sent hsent ↦ ?_)
        ⟨fun hne ↦ absurd rfl hne, fun sent hsent ↦ ?_⟩
      · cases hsent
      · cases hsent
    · -- nothing is created for the first parquet file
      refine iff_of_false (fun hone ↦ ?_) fun h ↦ hzero (h.1 (List.cons_ne_nil _ _))
      obtain ⟨⟨middle, between⟩, hsent, hfiles⟩ := Option.bind_eq_some_iff.mp hwrite
      obtain ⟨hfirst, hsucceed'⟩ := List.forall_mem_cons.mp hsucceed
      obtain ⟨hclosed, hbetween⟩ := writeToQfs_stray hzero hopenFiles hfirst sent.front_flag
        sent.last_flag_ne hsent
      have hmap := writeFiles_closed hclosed hsucceed' hfiles
      rw [hbetween, hcreated, List.map_nil, List.nil_append] at hmap
      obtain ⟨hcount, -⟩ := hone 0 sent rfl
      rw [hmap] at hcount
      obtain ⟨file, hfile, howner⟩ := List.countP_pos_iff.mp (hcount ▸ Nat.one_pos)
      have hle := le_owner_of_mem_createdFiles hfile
      rw [of_decide_eq_true howner] at hle
      exact absurd hle (by omega)

/-- A parquet file in two chunks of one byte each, with the descriptor that `Create` gives for each.
-/
def twoChunks (firstFd lastFd : ℤ) : SentFile QfsAnswer where
  front := [(⟨firstFd, 1⟩, ⟨[1], 0, 1504270800, 1504274400⟩)]
  last := (⟨lastFd, 1⟩, ⟨[2], 1, 1504270800, 1504274400⟩)
  front_flag := by simp
  last_flag := rfl

theorem succeeds_twoChunks {firstFd lastFd : ℤ} (hfirst : 0 ≤ firstFd) (hlast : 0 ≤ lastFd) :
    ∀ item ∈ (twoChunks firstFd lastFd).items, Succeeds item := by
  intro item hitem
  rcases List.mem_cons.mp hitem with rfl | hitem
  · exact ⟨hfirst, rfl⟩
  · rw [List.mem_singleton.mp hitem]
    exact ⟨hlast, rfl⟩

/-- What becomes of one file in two chunks. -/
def twoChunksWritten (firstFd lastFd : ℤ) : Option (Writer × Qfs) :=
  writeFiles utc ⟨"snappy".toList, false⟩ 0 ⟨0, [], [], 0⟩ ⟨[], [], [], []⟩
    [twoChunks firstFd lastFd]

/-- Under the descriptor three there is one file. -/
theorem oneFileEach_three : ∃ writer' qfs', twoChunksWritten 3 4 = some (writer', qfs') ∧
    OneFileEach [twoChunks 3 4] (qfs'.created.map Prod.snd) := by
  obtain ⟨⟨writer', qfs'⟩, hwrite⟩ :=
    Option.isSome_iff_exists.mp (show (twoChunksWritten 3 4).isSome by rfl)
  refine ⟨writer', qfs', hwrite, (oneFileEach_iff rfl rfl ?_ hwrite).mpr ⟨fun _ ↦ rfl, ?_⟩⟩
  · intro sent hsent
    rw [List.mem_singleton.mp hsent]
    exact succeeds_twoChunks (by decide) (by decide)
  · simp [twoChunks, FirstNonzero]

/-- Under the descriptor zero both chunks get a file of their own. -/
theorem not_oneFileEach_zero : ∃ writer' qfs', twoChunksWritten 0 1 = some (writer', qfs') ∧
    (∀ item ∈ (twoChunks 0 1).items, Succeeds item) ∧
    qfs'.created.map Prod.snd = [⟨0, [(0, [1])]⟩, ⟨0, [(0, [2])]⟩] ∧
    ¬ OneFileEach [twoChunks 0 1] (qfs'.created.map Prod.snd) := by
  obtain ⟨⟨writer', qfs'⟩, hwrite⟩ :=
    Option.isSome_iff_exists.mp (show (twoChunksWritten 0 1).isSome by rfl)
  have hcreated : qfs'.created.map Prod.snd = [⟨0, [(0, [1])]⟩, ⟨0, [(0, [2])]⟩] := by
    cases hwrite
    rfl
  refine ⟨writer', qfs', hwrite, succeeds_twoChunks (by decide) (by decide), hcreated,
    fun hone ↦ ?_⟩
  rw [hcreated] at hone
  obtain ⟨hcount, -⟩ := hone 0 _ rfl
  exact absurd hcount (by decide)

end CppLearn.RecvEngine.QfsParquetWriter
