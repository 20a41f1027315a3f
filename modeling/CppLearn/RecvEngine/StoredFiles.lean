import CppLearn.RecvEngine.HdfsParquetWriter

/-!
# What a failed open leaves on HDFS

Where `hdfsOpenFile` fails `write_to_hdfs` skips the chunk and tries again with the next one, which
may be of the same parquet file. `storeFiles` is the loop over whole parquet files, with a log of
the files created on HDFS and the chunks written to each (`writeToHdfs_storeFiles`).

A file created never gets chunks of two parquet files, but it has only those from the first open
that succeeds on. So `wholeOrAbsent_iff`: every file created holds its parquet file whole exactly if
no open fails for bytes before one that succeeds.
-/

set_option autoImplicit false
set_option relaxedAutoImplicit false

namespace CppLearn.RecvEngine.StoredFiles

open Foundation.DecimalText Foundation.LocalTime HdfsParquetWriter

/-! ### The loop with its log -/

/-- A file created on HDFS: the parquet file for whose chunk it was opened, and the parquet file and
the bytes of every chunk written to it. -/
structure CreatedFile where
  owner : ℕ
  pieces : List (ℕ × List (BitVec 8))

/-- The contents of a created file. -/
def CreatedFile.bytes (created : CreatedFile) : List (BitVec 8) := created.pieces.flatMap Prod.snd

/-- The writer, HDFS, the file that is open, and the files closed so far. -/
structure Stored where
  writer : Writer
  hdfs : Hdfs
  current : Option CreatedFile
  finished : List CreatedFile

/-- Before the first chunk. -/
def Stored.start (writer : Writer) (hdfs : Hdfs) : Stored := ⟨writer, hdfs, none, []⟩

/-- An open as it is given, and writes that are complete. -/
def answer (item : Bool × ParquetMemChunk) : HdfsAnswer := ⟨item.1, item.2.data.length⟩

/-- The file that a chunk of the parquet file `owner` is written to. -/
def logItem (s : Stored) (owner : ℕ) (item : Bool × ParquetMemChunk) : Option CreatedFile :=
  if s.writer.file then
    s.current.map fun created ↦
      { created with pieces := created.pieces ++ [(owner, item.2.data)] }
  else if item.1 then some ⟨owner, [(owner, item.2.data)]⟩
  else none

/-- One turn of the loop of `write_to_hdfs`, and the log of it. -/
def storeItem (zone : TimeZone) (vars : GlobalVars) (owner : ℕ) (s : Stored)
    (item : Bool × ParquetMemChunk) : Option Stored :=
  (writeChunk zone vars s.writer s.hdfs (answer item) item.2).map fun (writer, hdfs) ↦
    if item.2.flag ≠ 0 then ⟨writer, hdfs, none, s.finished ++ (logItem s owner item).toList⟩
    else ⟨writer, hdfs, logItem s owner item, s.finished⟩

/-- The chunks of one parquet file. -/
def storeItems (zone : TimeZone) (vars : GlobalVars) (owner : ℕ) :
    Stored → List (Bool × ParquetMemChunk) → Option Stored
  | s, [] => some s
  | s, item :: items =>
    (storeItem zone vars owner s item).bind fun s ↦ storeItems zone vars owner s items

/-- The parquet files one after the other, numbered from `owner` on. -/
def storeFiles (zone : TimeZone) (vars : GlobalVars) :
    ℕ → Stored → List (SentFile Bool) → Option Stored
  | _, s, [] => some s
  | owner, s, sent :: files =>
    (storeItems zone vars owner s sent.items).bind fun s ↦
      storeFiles zone vars (owner + 1) s files

variable {zone : TimeZone} {vars : GlobalVars} {owner : ℕ}

/-- The log does not change what the loop does. -/
theorem writeToHdfs_storeItems {s next : Stored} {items rest : List (Bool × ParquetMemChunk)}
    (hstore : storeItems zone vars owner s items = some next) :
    writeToHdfs zone vars s.writer s.hdfs ((items ++ rest).map fun item ↦ (answer item, item.2)) =
      writeToHdfs zone vars next.writer next.hdfs (rest.map fun item ↦ (answer item, item.2)) := by
  induction items generalizing s with
  | nil =>
    cases hstore
    rfl
  | cons item items ih =>
    obtain ⟨middle, hitem, hitems⟩ := Option.bind_eq_some_iff.mp hstore
    obtain ⟨⟨writer, hdfs⟩, hwrite, hmiddle⟩ := Option.map_eq_some_iff.mp hitem
    have hstate : middle.writer = writer ∧ middle.hdfs = hdfs := by
      rw [← hmiddle]
      split_ifs <;> exact ⟨rfl, rfl⟩
    rw [List.cons_append, List.map_cons, writeToHdfs, hwrite, Option.bind_some, ← hstate.1,
      ← hstate.2]
    exact ih hitems

theorem writeToHdfs_storeFiles {s next : Stored} {files : List (SentFile Bool)}
    (hstore : storeFiles zone vars owner s files = some next) :
    writeToHdfs zone vars s.writer s.hdfs
        ((files.flatMap SentFile.items).map fun item ↦ (answer item, item.2)) =
      some (next.writer, next.hdfs) := by
  induction files generalizing owner s with
  | nil =>
    cases hstore
    rfl
  | cons sent files ih =>
    obtain ⟨middle, hitems, hfiles⟩ := Option.bind_eq_some_iff.mp hstore
    rw [List.flatMap_cons, writeToHdfs_storeItems hitems]
    exact ih hfiles

/-! ### The files created -/

/-- A file is open in the log exactly while one is open in the writer. -/
def InStep (s : Stored) : Prop := s.writer.file = s.current.isSome

theorem InStep.exists_current {s : Stored} (h : InStep s) (hopen : s.writer.file = true) :
    ∃ created, s.current = some created :=
  Option.isSome_iff_exists.mp (h.symm.trans hopen)

theorem InStep.current_eq_none {s : Stored} (h : InStep s) (hclosed : s.writer.file = false) :
    s.current = none :=
  Option.isNone_iff_eq_none.mp (Option.isSome_eq_false_iff.mp (h.symm.trans hclosed))

/-- What becomes of the open file by a chunk. -/
def addItem (owner : ℕ) (current : Option CreatedFile) (item : Bool × ParquetMemChunk) :
    Option CreatedFile :=
  match current with
  | some created => some { created with pieces := created.pieces ++ [(owner, item.2.data)] }
  | none => if item.1 then some ⟨owner, [(owner, item.2.data)]⟩ else none

theorem logItem_eq {s : Stored} (h : InStep s) (item : Bool × ParquetMemChunk) :
    logItem s owner item = addItem owner s.current item := by
  unfold InStep at h
  rw [logItem, h]
  rcases s.current with _ | created
  · rfl
  · rfl

/-- After a chunk a file is open if one was open or opened for it, and it has no flag. -/
theorem file_clean (writer : Writer) (hdfs : Hdfs) (chunk : ParquetMemChunk) :
    (clean writer hdfs chunk).1.file = (writer.file && chunk.flag == 0) := by
  rw [clean]
  by_cases hflag : chunk.flag = 0
  · rw [if_neg (not_not.mpr hflag), hflag, beq_self_eq_true, Bool.and_true]
  · rw [if_pos hflag, beq_eq_false_iff_ne.mpr hflag, Bool.and_false]

/-- What one turn of the loop does: the chunk is written to the open file, or a name is made for a
new one, which is opened and written or else skipped. -/
theorem writeChunk_cases {writer writer' : Writer} {hdfs hdfs' : Hdfs}
    {item : Bool × ParquetMemChunk}
    (hwrite : writeChunk zone vars writer hdfs (answer item) item.2 = some (writer', hdfs')) :
    writer.file = true ∧
        clean writer (hdfs.write writer.hdfsName item.2.data) item.2 = (writer', hdfs') ∨
      writer.file = false ∧ ∃ named directories,
        named.file = false ∧
        if item.1 then
          clean { named with file := true }
            ((Hdfs.openFile ⟨directories, hdfs.files⟩ named.hdfsName).write named.hdfsName
              item.2.data) item.2 = (writer', hdfs')
        else clean named ⟨directories, hdfs.files⟩ item.2 = (writer', hdfs') := by
  rw [writeChunk, answer, List.take_length] at hwrite
  by_cases hfile : writer.file = true
  · rw [if_pos hfile] at hwrite
    exact Or.inl ⟨hfile, Option.some.inj hwrite⟩
  · rw [if_neg hfile] at hwrite
    obtain ⟨⟨named, named'⟩, hgenerate, hclean⟩ := Option.map_eq_some_iff.mp hwrite
    obtain ⟨path, -, heq⟩ := Option.map_eq_some_iff.mp hgenerate
    obtain ⟨rfl, rfl⟩ := Prod.mk.inj heq
    obtain ⟨directories, hfiles⟩ : ∃ directories,
        hdfs.createDirectory path = ⟨directories, hdfs.files⟩ := by
      rw [Hdfs.createDirectory]
      split_ifs <;> exact ⟨_, rfl⟩
    have hclosed : writer.file = false := Bool.eq_false_iff.mpr hfile
    refine Or.inr ⟨hclosed, { writer with
      hdfsPath := path
      hdfsName := pathName path item.2.startTime item.2.endTime writer.id },
      directories, hclosed, ?_⟩
    simp only [hfiles] at hclean
    split_ifs at hclean ⊢ with hopened
    · exact hclean
    · exact hclean

/-- A chunk goes to the open file, which a flag closes. -/
theorem storeItem_spec {s next : Stored} {item : Bool × ParquetMemChunk} (h : InStep s)
    (hstore : storeItem zone vars owner s item = some next) :
    InStep next ∧
      if item.2.flag ≠ 0 then
        next.current = none ∧ next.finished = s.finished ++ (addItem owner s.current item).toList
      else next.current = addItem owner s.current item ∧ next.finished = s.finished := by
  obtain ⟨⟨writer, hdfs⟩, hwrite, hnext⟩ := Option.map_eq_some_iff.mp hstore
  have hfile : writer.file = ((addItem owner s.current item).isSome && item.2.flag == 0) := by
    rcases writeChunk_cases hwrite with
      ⟨hopen, hclean⟩ | ⟨hclosed, named, directories, hnamed, hclean⟩
    · obtain ⟨created, hcurrent⟩ := h.exists_current hopen
      have hwriter := file_clean s.writer (s.hdfs.write s.writer.hdfsName item.2.data) item.2
      rw [hclean, hopen] at hwriter
      rw [hwriter, hcurrent]
      rfl
    · rw [h.current_eq_none hclosed, addItem]
      split_ifs at hclean ⊢ with hopened
      · have hwriter := congrArg (fun result ↦ result.1.file) hclean
        simp only [file_clean] at hwriter
        rw [← hwriter]
        rfl
      · have hwriter := congrArg (fun result ↦ result.1.file) hclean
        simp only [file_clean, hnamed, Bool.false_and] at hwriter
        rw [← hwriter]
        rfl
  rw [logItem_eq h] at hnext
  simp only at hnext
  by_cases hflag : item.2.flag = 0
  · rw [if_neg (not_not.mpr hflag)] at hnext ⊢
    cases hnext
    refine ⟨?_, rfl, rfl⟩
    simpa [InStep, hflag] using hfile
  · rw [if_pos hflag] at hnext ⊢
    cases hnext
    refine ⟨?_, rfl, rfl⟩
    show writer.file = false
    rw [hfile, beq_eq_false_iff_ne.mpr hflag, Bool.and_false]

/-- Chunks without a flag leave the file open that they are written to. -/
theorem storeItems_front {front : List (Bool × ParquetMemChunk)} {s next : Stored} (h : InStep s)
    (hfront : ∀ item ∈ front, item.2.flag = 0)
    (hstore : storeItems zone vars owner s front = some next) :
    InStep next ∧ next.current = front.foldl (addItem owner) s.current ∧
      next.finished = s.finished := by
  induction front generalizing s with
  | nil =>
    cases hstore
    exact ⟨h, rfl, rfl⟩
  | cons item front ih =>
    obtain ⟨middle, hitem, hitems⟩ := Option.bind_eq_some_iff.mp hstore
    obtain ⟨hmiddle, hspec⟩ := storeItem_spec h hitem
    obtain ⟨hflag, hfront'⟩ := List.forall_mem_cons.mp hfront
    rw [if_neg (not_not.mpr hflag)] at hspec
    obtain ⟨hnext, hcurrent, hfinished⟩ := ih hmiddle hfront' hitems
    refine ⟨hnext, ?_, hfinished.trans hspec.2⟩
    rw [hcurrent, hspec.1, List.foldl_cons]

theorem storeItems_append {front rest : List (Bool × ParquetMemChunk)} {s next : Stored}
    (hstore : storeItems zone vars owner s (front ++ rest) = some next) :
    ∃ middle, storeItems zone vars owner s front = some middle ∧
      storeItems zone vars owner middle rest = some next := by
  induction front generalizing s with
  | nil => exact ⟨s, rfl, hstore⟩
  | cons item front ih =>
    obtain ⟨first, hitem, hitems⟩ := Option.bind_eq_some_iff.mp hstore
    obtain ⟨middle, hfront, hrest⟩ := ih hitems
    exact ⟨middle, by rw [storeItems, hitem, Option.bind_some, hfront], hrest⟩

/-- The file created for the chunks of a parquet file: none if every open fails, and otherwise one
with the chunks from the first open that succeeds on. -/
def createdBy (owner : ℕ) (items : List (Bool × ParquetMemChunk)) : Option CreatedFile :=
  match items.dropWhile fun item ↦ !item.1 with
  | [] => none
  | item :: items => some ⟨owner, (item :: items).map fun item ↦ (owner, item.2.data)⟩

theorem foldl_addItem_some (items : List (Bool × ParquetMemChunk))
    (created : CreatedFile) : items.foldl (addItem owner) (some created) =
      some { created with
        pieces := created.pieces ++ items.map fun item ↦ (owner, item.2.data) } := by
  induction items generalizing created with
  | nil => simp
  | cons item items ih =>
    rw [List.foldl_cons, addItem, ih, List.append_assoc]
    rfl

theorem foldl_addItem_none (items : List (Bool × ParquetMemChunk)) :
    items.foldl (addItem owner) none = createdBy owner items := by
  induction items with
  | nil => rfl
  | cons item items ih =>
    by_cases hopened : item.1 = true
    · rw [List.foldl_cons, addItem, if_pos hopened, foldl_addItem_some, createdBy,
        List.dropWhile_cons, if_neg (by simp [hopened])]
      rfl
    · rw [List.foldl_cons, addItem, if_neg hopened, ih, createdBy, createdBy, List.dropWhile_cons,
        if_pos (by simp [hopened])]

/-- A parquet file is sent when no file is open, and leaves none open. -/
theorem storeItems_sent {sent : SentFile Bool} {s next : Stored} (h : InStep s)
    (hnone : s.current = none)
    (hstore : storeItems zone vars owner s sent.items = some next) :
    InStep next ∧ next.current = none ∧
      next.finished = s.finished ++ (createdBy owner sent.items).toList := by
  obtain ⟨middle, hfront, hlast⟩ := storeItems_append hstore
  obtain ⟨hmiddle, hcurrent, hfinished⟩ := storeItems_front h sent.front_flag hfront
  obtain ⟨last, hitem, hnext⟩ := Option.bind_eq_some_iff.mp hlast
  cases hnext
  obtain ⟨hlastStep, hspec⟩ := storeItem_spec hmiddle hitem
  rw [if_pos sent.last_flag_ne] at hspec
  refine ⟨hlastStep, hspec.1, ?_⟩
  rw [hspec.2, hfinished, hcurrent, hnone, ← foldl_addItem_none, SentFile.items, List.foldl_append]
  rfl

/-- The files created for some parquet files, numbered from `owner` on. -/
def createdFiles : ℕ → List (SentFile Bool) → List CreatedFile
  | _, [] => []
  | owner, sent :: files => (createdBy owner sent.items).toList ++ createdFiles (owner + 1) files

theorem storeFiles_created {files : List (SentFile Bool)} {s next : Stored} (h : InStep s)
    (hnone : s.current = none) (hstore : storeFiles zone vars owner s files = some next) :
    next.finished = s.finished ++ createdFiles owner files := by
  induction files generalizing owner s with
  | nil =>
    cases hstore
    exact (List.append_nil _).symm
  | cons sent files ih =>
    obtain ⟨middle, hitems, hfiles⟩ := Option.bind_eq_some_iff.mp hstore
    obtain ⟨hmiddle, hcurrent, hfinished⟩ := storeItems_sent h hnone hitems
    rw [ih hmiddle hcurrent hfiles, hfinished, createdFiles, List.append_assoc]

theorem mem_createdFiles_iff {files : List (SentFile Bool)} {created : CreatedFile} :
    created ∈ createdFiles owner files ↔
      ∃ indx sent, files[indx]? = some sent ∧
        createdBy (owner + indx) sent.items = some created := by
  induction files generalizing owner with
  | nil => simp [createdFiles]
  | cons first files ih =>
    rw [createdFiles, List.mem_append, Option.mem_toList, ih]
    constructor
    · rintro (hfirst | ⟨indx, sent, hsent, hcreated⟩)
      · exact ⟨0, first, rfl, hfirst⟩
      · refine ⟨indx + 1, sent, hsent, ?_⟩
        rw [← hcreated, Nat.add_assoc, Nat.add_comm 1]
    · rintro ⟨indx, sent, hsent, hcreated⟩
      rcases indx with _ | indx
      · cases hsent
        exact Or.inl hcreated
      · refine Or.inr ⟨indx, sent, hsent, ?_⟩
        rw [← hcreated, Nat.add_assoc, Nat.add_comm 1]

/-! ### Whole or absent -/

/-- No file created has bytes of two parquet files, and each has all bytes of its parquet file. -/
def WholeOrAbsent (files : List (SentFile Bool)) (created : List CreatedFile) : Prop :=
  ∀ file ∈ created, (∀ piece ∈ file.pieces, piece.1 = file.owner) ∧
    ∃ sent, files[file.owner]? = some sent ∧ file.bytes = itemBytes sent.items

/-- In no parquet file an open fails for bytes before one that succeeds. -/
def NoLateOpen (files : List (SentFile Bool)) : Prop :=
  ∀ sent ∈ files, (∃ item ∈ sent.items, item.1 = true) →
    itemBytes (sent.items.takeWhile fun item ↦ !item.1) = []

/-- A created file has the chunks that are left after those for which the open failed. -/
theorem createdBy_eq_some_iff {items : List (Bool × ParquetMemChunk)} {created : CreatedFile} :
    createdBy owner items = some created ↔ (∃ item ∈ items, item.1 = true) ∧
      created = ⟨owner, (items.dropWhile fun item ↦ !item.1).map fun item ↦
        (owner, item.2.data)⟩ := by
  have hnil := List.dropWhile_eq_nil_iff (p := fun item : Bool × ParquetMemChunk ↦ !item.1)
    (l := items)
  rcases hleft : items.dropWhile fun item ↦ !item.1 with _ | ⟨item, rest⟩
  · simp only [createdBy, hleft]
    constructor
    · intro hnone
      cases hnone
    · rintro ⟨⟨item, hitem, hopened⟩, -⟩
      have hfailed := hnil.mp hleft item hitem
      simp [hopened] at hfailed
  · simp only [createdBy, hleft, Option.some.injEq]
    rw [eq_comm]
    refine (and_iff_right ?_).symm
    by_contra hnone
    refine List.cons_ne_nil item rest (hleft.symm.trans (hnil.mpr fun other hother ↦ ?_))
    rw [Bool.not_eq_true']
    exact Bool.eq_false_iff.mpr fun hopened ↦ hnone ⟨other, hother, hopened⟩

/-- The bytes of a parquet file are those skipped and those of the file created for it. -/
theorem itemBytes_split (items : List (Bool × ParquetMemChunk)) :
    itemBytes items = itemBytes (items.takeWhile fun item ↦ !item.1) ++
      itemBytes (items.dropWhile fun item ↦ !item.1) := by
  rw [itemBytes, itemBytes, itemBytes, ← List.flatMap_append, List.takeWhile_append_dropWhile]

theorem bytes_created (owner : ℕ) (items : List (Bool × ParquetMemChunk)) :
    CreatedFile.bytes ⟨owner, items.map fun item ↦ (owner, item.2.data)⟩ = itemBytes items :=
  List.flatMap_map ..

theorem wholeOrAbsent_created_iff (files : List (SentFile Bool)) :
    WholeOrAbsent files (createdFiles 0 files) ↔ NoLateOpen files := by
  constructor
  · intro hwhole sent hsent hopened
    obtain ⟨indx, hindx⟩ := List.mem_iff_getElem?.mp hsent
    obtain ⟨-, sent', hsent', hbytes⟩ := hwhole _ (mem_createdFiles_iff.mpr
      ⟨indx, sent, hindx, createdBy_eq_some_iff.mpr ⟨hopened, rfl⟩⟩)
    rw [Nat.zero_add, hindx, Option.some.injEq] at hsent'
    rw [bytes_created, ← hsent', itemBytes_split sent.items] at hbytes
    exact List.self_eq_append_left.mp hbytes
  · intro hopens created hcreated
    obtain ⟨indx, sent, hindx, hcreated⟩ := mem_createdFiles_iff.mp hcreated
    obtain ⟨hopened, rfl⟩ := createdBy_eq_some_iff.mp hcreated
    refine ⟨fun piece hpiece ↦ ?_, sent, ?_, ?_⟩
    · obtain ⟨item, -, rfl⟩ := List.mem_map.mp hpiece
      rfl
    · rw [Nat.zero_add]
      exact hindx
    · rw [bytes_created, itemBytes_split sent.items,
        hopens sent (List.mem_of_getElem? hindx) hopened, List.nil_append]

/-! ### What is on HDFS -/

/-- The bytes of a file that was on HDFS at first or has been closed since. -/
def Kept (initial : Hdfs) (finished : List CreatedFile) (bytes : List (BitVec 8)) : Prop :=
  bytes ∈ initial.files.map Prod.snd ∨ ∃ created ∈ finished, bytes = created.bytes

/-- Every file on HDFS is the one that is open, with what has been written to it, or has been kept.
-/
def Traced (initial : Hdfs) (s : Stored) : Prop :=
  ∀ file ∈ s.hdfs.files,
    if s.writer.file = true ∧ file.1 = s.writer.hdfsName then
      ∃ created, s.current = some created ∧ file.2 = created.bytes
    else Kept initial s.finished file.2

theorem Kept.append {initial : Hdfs} {finished : List CreatedFile} {bytes : List (BitVec 8)}
    (h : Kept initial finished bytes) (more : List CreatedFile) :
    Kept initial (finished ++ more) bytes :=
  h.imp_right fun ⟨created, hcreated, hbytes⟩ ↦
    ⟨created, List.mem_append_left _ hcreated, hbytes⟩

/-- A renaming leaves the bytes of all files. -/
theorem exists_of_mem_rename {hdfs : Hdfs} {oldName newName : Text}
    {file : Text × List (BitVec 8)} (hfile : file ∈ (hdfs.rename oldName newName).files) :
    ∃ before ∈ hdfs.files, before.2 = file.2 := by
  unfold Hdfs.rename at hfile
  split_ifs at hfile
  · exact ⟨file, hfile, rfl⟩
  · obtain ⟨before, hbefore, rfl⟩ := List.mem_map.mp hfile
    refine ⟨before, hbefore, ?_⟩
    split_ifs <;> rfl

section Traced

variable {initial : Hdfs} {writer : Writer} {hdfs : Hdfs} {finished : List CreatedFile}

/-- With no file open every file has been kept. -/
theorem traced_closed_iff {current : Option CreatedFile} (hclosed : writer.file = false) :
    Traced initial ⟨writer, hdfs, current, finished⟩ ↔
      ∀ file ∈ hdfs.files, Kept initial finished file.2 := by
  refine forall_congr' fun file ↦ forall_congr' fun _ ↦ ?_
  rw [if_neg fun hopen ↦ Bool.false_ne_true (hclosed.symm.trans hopen.1)]

/-- A chunk is appended to the open file. -/
theorem Traced.write {created : CreatedFile} (hopen : writer.file = true)
    (h : Traced initial ⟨writer, hdfs, some created, finished⟩) (owner : ℕ)
    (bytes : List (BitVec 8)) :
    Traced initial ⟨writer, hdfs.write writer.hdfsName bytes,
      some { created with pieces := created.pieces ++ [(owner, bytes)] }, finished⟩ := by
  intro file hfile
  obtain ⟨before, hbefore, rfl⟩ := List.mem_map.mp hfile
  have hkept := h before hbefore
  by_cases hname : before.1 = writer.hdfsName
  · rw [if_pos ⟨hopen, hname⟩] at hkept
    obtain ⟨created', hcurrent, hbytes⟩ := hkept
    obtain rfl := Option.some.inj hcurrent
    rw [if_pos hname, if_pos ⟨hopen, rfl⟩]
    refine ⟨_, rfl, ?_⟩
    simp [CreatedFile.bytes, hbytes]
  · rw [if_neg fun hopen ↦ hname hopen.2] at hkept
    rw [if_neg hname, if_neg fun hopen ↦ hname hopen.2]
    exact hkept

/-- A file is opened under a name, empty, whatever was there under it. -/
theorem traced_openFile {named : Writer} (directories : List Text) (hopen : named.file = true)
    (hkept : ∀ file ∈ hdfs.files, Kept initial finished file.2) (owner : ℕ) :
    Traced initial ⟨named, Hdfs.openFile ⟨directories, hdfs.files⟩ named.hdfsName,
      some ⟨owner, []⟩, finished⟩ := by
  intro file hfile
  rcases List.mem_append.mp hfile with hfile | hfile
  · obtain ⟨hfile, hname⟩ := List.mem_filter.mp hfile
    rw [if_neg fun hopen ↦ of_decide_eq_true hname hopen.2]
    exact hkept file hfile
  · obtain rfl := List.mem_singleton.mp hfile
    rw [if_pos ⟨hopen, rfl⟩]
    exact ⟨_, rfl, rfl⟩

/-- A flag closes the open file and renames it. -/
theorem Traced.clean {current : Option CreatedFile}
    (h : Traced initial ⟨writer, hdfs, current, finished⟩) (chunk : ParquetMemChunk) :
    Traced initial
      (if chunk.flag ≠ 0 then
        ⟨(clean writer hdfs chunk).1, (clean writer hdfs chunk).2, none,
          finished ++ current.toList⟩
      else ⟨(clean writer hdfs chunk).1, (clean writer hdfs chunk).2, current, finished⟩) := by
  by_cases hflag : chunk.flag = 0
  · simp only [HdfsParquetWriter.clean, hflag, ne_eq, not_true_eq_false, if_false]
    exact h
  · simp only [HdfsParquetWriter.clean, ne_eq, hflag, not_false_eq_true, if_true]
    rw [traced_closed_iff rfl]
    intro file hfile
    obtain ⟨before, hbefore, hbytes⟩ := exists_of_mem_rename hfile
    have hkept := h before hbefore
    rw [← hbytes]
    split_ifs at hkept
    · obtain ⟨created, rfl, hcreated⟩ := hkept
      exact Or.inr ⟨created, List.mem_append_right _ (List.mem_singleton.mpr rfl), hcreated⟩
    · exact hkept.append _

theorem Traced.storeItem {s next : Stored} {item : Bool × ParquetMemChunk} (hstep : InStep s)
    (h : Traced initial s) (hstore : storeItem zone vars owner s item = some next) :
    Traced initial next := by
  obtain ⟨⟨writer, hdfs⟩, hwrite, hnext⟩ := Option.map_eq_some_iff.mp hstore
  rw [logItem_eq hstep] at hnext
  -- the state before a flag closes the file
  obtain ⟨writer', hdfs', hclean, htraced⟩ : ∃ writer' hdfs',
      HdfsParquetWriter.clean writer' hdfs' item.2 = (writer, hdfs) ∧
        Traced initial ⟨writer', hdfs', addItem owner s.current item, s.finished⟩ := by
    rcases writeChunk_cases hwrite with
      ⟨hopen, hclean⟩ | ⟨hclosed, named, directories, hnamed, hclean⟩
    · obtain ⟨created, hcurrent⟩ := hstep.exists_current hopen
      refine ⟨_, _, hclean, ?_⟩
      have hbefore : Traced initial ⟨s.writer, s.hdfs, some created, s.finished⟩ := by
        rw [← hcurrent]
        exact h
      rw [hcurrent]
      exact hbefore.write hopen owner item.2.data
    · have hkept := (traced_closed_iff hclosed).mp h
      rw [hstep.current_eq_none hclosed, addItem]
      split_ifs at hclean ⊢ with hopened
      · exact ⟨_, _, hclean,
          (traced_openFile directories rfl hkept owner).write rfl owner item.2.data⟩
      · exact ⟨_, _, hclean, (traced_closed_iff hnamed).mpr hkept⟩
  have hresult := htraced.clean item.2
  rw [hclean] at hresult
  rw [← hnext]
  exact hresult

/-- Every file on HDFS was there before or is one of the files created. -/
theorem Traced.storeItems {items : List (Bool × ParquetMemChunk)} {s next : Stored}
    (hstep : InStep s) (h : Traced initial s)
    (hstore : storeItems zone vars owner s items = some next) : Traced initial next := by
  induction items generalizing s with
  | nil =>
    cases hstore
    exact h
  | cons item items ih =>
    obtain ⟨middle, hitem, hitems⟩ := Option.bind_eq_some_iff.mp hstore
    exact ih (storeItem_spec hstep hitem).1 (h.storeItem hstep hitem) hitems

theorem Traced.storeFiles {files : List (SentFile Bool)} {s next : Stored} (hstep : InStep s)
    (hnone : s.current = none) (h : Traced initial s)
    (hstore : storeFiles zone vars owner s files = some next) :
    Traced initial next ∧ InStep next ∧ next.current = none := by
  induction files generalizing owner s with
  | nil =>
    cases hstore
    exact ⟨h, hstep, hnone⟩
  | cons sent files ih =>
    obtain ⟨middle, hitems, hfiles⟩ := Option.bind_eq_some_iff.mp hstore
    obtain ⟨hmiddle, hcurrent, -⟩ := storeItems_sent hstep hnone hitems
    exact ih hmiddle hcurrent (h.storeItems hstep hitems) hfiles

end Traced

/-- Assumes: a writer without an open file, and that the loop has handled all chunks of some parquet
files. Every file then on HDFS was there before or is one of those created, and these hold their
parquet files whole exactly if in no parquet file an open failed for bytes before one that
succeeded. -/
theorem wholeOrAbsent_iff {writer : Writer} {hdfs : Hdfs} {files : List (SentFile Bool)}
    {s : Stored} (hclosed : writer.file = false)
    (hstore : storeFiles zone vars 0 (.start writer hdfs) files = some s) :
    (WholeOrAbsent files s.finished ↔ NoLateOpen files) ∧
      ∀ file ∈ s.hdfs.files, Kept hdfs s.finished file.2 := by
  have hstart : InStep (.start writer hdfs) := hclosed
  constructor
  · rw [storeFiles_created hstart rfl hstore]
    exact wholeOrAbsent_created_iff files
  · have htraced : Traced hdfs (.start writer hdfs) := (traced_closed_iff hclosed).mpr
      fun file hfile ↦ Or.inl (List.mem_map_of_mem hfile)
    obtain ⟨htraced, hstep, hnone⟩ := htraced.storeFiles hstart rfl hstore
    refine (traced_closed_iff ?_).mp htraced
    rw [hstep, hnone]
    rfl

/-- A parquet file in two chunks of one byte each, with the two answers of `hdfsOpenFile`. -/
def twoChunks (firstOpened lastOpened : Bool) : SentFile Bool where
  front := [(firstOpened, ⟨[1], 0, 1504270800, 1504274400⟩)]
  last := (lastOpened, ⟨[2], 1, 1504270800, 1504274400⟩)
  front_flag := by simp
  last_flag := rfl

/-- The settings and the writer of an empty store. -/
def exampleVars : GlobalVars := ⟨"snappy".toList, false⟩

@[inherit_doc exampleVars] def exampleWriter : Writer := ⟨false, [], [], 0⟩

/-- What is logged for one file in two chunks. -/
def twoChunksStored (firstOpened lastOpened : Bool) : Option Stored :=
  storeFiles utc exampleVars 0 (.start exampleWriter ⟨[], []⟩) [twoChunks firstOpened lastOpened]

/-- A file whose first open succeeds is whole. -/
theorem wholeOrAbsent_twoChunks :
    ∃ s, twoChunksStored true true = some s ∧ WholeOrAbsent [twoChunks true true] s.finished := by
  obtain ⟨s, hstore⟩ := Option.isSome_iff_exists.mp (show (twoChunksStored true true).isSome by rfl)
  refine ⟨s, hstore, (wholeOrAbsent_iff rfl hstore).1.mpr fun sent hsent _ ↦ ?_⟩
  rw [List.mem_singleton.mp hsent]
  rfl

/-- A file whose first open fails and whose second succeeds lacks its first chunk. -/
theorem not_wholeOrAbsent_lateOpen : ∃ s, twoChunksStored false true = some s ∧
    s.finished = [⟨0, [(0, [2])]⟩] ∧ ¬ WholeOrAbsent [twoChunks false true] s.finished := by
  obtain ⟨s, hstore⟩ :=
    Option.isSome_iff_exists.mp (show (twoChunksStored false true).isSome by rfl)
  have hfinished : s.finished = [⟨0, [(0, [2])]⟩] := by
    cases hstore
    rfl
  refine ⟨s, hstore, hfinished, fun hwhole ↦ ?_⟩
  rw [hfinished] at hwhole
  obtain ⟨-, sent, hsent, hbytes⟩ := hwhole _ (List.mem_singleton.mpr rfl)
  cases hsent
  exact absurd hbytes (by decide)

end CppLearn.RecvEngine.StoredFiles
