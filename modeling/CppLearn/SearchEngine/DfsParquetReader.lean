import CppLearn.SearchEngine.ColumnReader
import CppLearn.SearchEngine.SessionFilter

/-!
# Reading the rows of a parquet file

`decode_parquet` reads the columns of every row group in batches into one buffer a column, and runs
over as many entries of the buffers as the last read, that of the payloads, returned. The buffers
keep what earlier reads left in them. `readRowGroup` is its loop over one row group with the body
of the inner loop as a parameter, `passedRows` the rows that it passes to that body while the body
does not stop it, and `passedRows_iff` says for which page layouts these are the stored rows.
-/

set_option autoImplicit false
set_option relaxedAutoImplicit false

namespace CppLearn.SearchEngine.DfsParquetReader

open ColumnReader SessionFilter TaskRequest

/-! ### Row groups and buffers -/

/-- The columns whose values are read, in the order of their reads. -/
inductive ReadColumn
  | time
  | sip
  | dip
  | sport
  | dport
  | proto
  | payload
  deriving DecidableEq

/-- All of them. -/
def ReadColumn.all : List ReadColumn := [time, sip, dip, sport, dport, proto, payload]

theorem ReadColumn.mem_all (column : ReadColumn) : column ∈ ReadColumn.all := by
  cases column <;> decide

/-- The values of a column. -/
abbrev Cell : ReadColumn → Type
  | .time => BitVec 64
  | .payload => List (BitVec 8)
  | _ => BitVec 32

/-- One value of every column that is read. -/
abbrev Row := (column : ReadColumn) → Cell column

/-- The pages of a row group still to be read. The column `dsize` is never read, only asked whether
it has a value left. -/
structure RowGroup where
  column : (column : ReadColumn) → List (List (Cell column))
  dsize : List (List (BitVec 32))

/-- The arrays `time_val` to `payload_val`. -/
abbrev Buffers := (column : ReadColumn) → ℕ → Cell column

/-- The condition of the loop over a row group. -/
def RowGroup.hasNext (group : RowGroup) : Bool :=
  (ReadColumn.all.all fun column ↦ ColumnReader.hasNext (group.column column)) &&
    ColumnReader.hasNext group.dsize

/-- One `ReadBatch` of every column that is read: the values and the row group left. -/
def RowGroup.readBatches (batchSize : ℕ) (group : RowGroup) :
    ((column : ReadColumn) → List (Cell column)) × RowGroup :=
  (fun column ↦ (readBatch batchSize (group.column column)).1,
    { group with column := fun column ↦ (readBatch batchSize (group.column column)).2 })

/-- The buffers after a read has overwritten their first entries. -/
def overwrite (buffers : Buffers) (values : (column : ReadColumn) → List (Cell column)) : Buffers :=
  fun column idx ↦ (values column)[idx]?.getD (buffers column idx)

/-- The rows of the inner loop, the first `valuesRead` entries of the buffers. -/
def bufferRows (buffers : Buffers) (valuesRead : ℕ) : List Row :=
  (List.range valuesRead).map fun idx column ↦ buffers column idx

/-! ### The loops -/

section Loops

variable {State : Type*} (visit : State → Row → Bool × State)

/-- The inner loop, which the body leaves with a result of false. -/
def visitRows : List Row → State → Bool × State
  | [], st => (true, st)
  | row :: rows, st =>
    match visit st row with
    | (true, st) => visitRows rows st
    | (false, st) => (false, st)

/-- The loop over one row group, with a bound on its turns. -/
def readRowGroup (batchSize : ℕ) : ℕ → RowGroup → Buffers → State → Option (Bool × Buffers × State)
  | turns, group, buffers, st =>
    if group.hasNext then
      match turns with
      | 0 => none
      | turns + 1 =>
        let (values, group) := group.readBatches batchSize
        let buffers := overwrite buffers values
        match visitRows visit (bufferRows buffers (values .payload).length) st with
        | (true, st) => readRowGroup batchSize turns group buffers st
        | (false, st) => some (false, buffers, st)
    else some (true, buffers, st)

/-- The number of turns that a row group takes at most, one for every payload. -/
def RowGroup.turns (group : RowGroup) : ℕ := (group.column .payload).flatten.length

/-- The loop over the row groups of a file, with the buffers of the whole file. -/
def readRowGroups (batchSize : ℕ) : List RowGroup → Buffers → State → Option (Bool × State)
  | [], _, st => some (true, st)
  | group :: groups, buffers, st =>
    match readRowGroup visit batchSize group.turns group buffers st with
    | none => none
    | some (true, buffers, st) => readRowGroups batchSize groups buffers st
    | some (false, _, st) => some (false, st)

end Loops

/-! ### The body of the inner loop -/

/-- `Payload`, whose buffer is null where it has no bytes. -/
structure Payload where
  ts : BitVec 64
  buf : Option (List (BitVec 8))
  deriving DecidableEq

/-- The constructor of `Payload`. -/
def payload (ts : BitVec 64) (bytes : List (BitVec 8)) : Payload :=
  { ts := ts, buf := if bytes.length = 0 then none else some bytes }

/-- What a search reads while it runs: the window, the request, and the setting of
`enable_total_matches`. -/
structure SearchEnv where
  stime : ℤ
  etime : ℤ
  taskInfo : TaskInfo
  enableTotalMatches : BitVec 16

/-- What the readers of a search write: the size of the matches and the payload blocks pushed. -/
structure SearchState where
  matchPacketSize : BitVec 64
  pushed : List Payload

/-- The second of a stored time, its microseconds discarded. -/
def tvSec (time : BitVec 64) : ℤ := (time >>> 32).toInt

/-- The body of the inner loop of `decode_parquet`: false where the limit is hit. -/
def visitRow (env : SearchEnv) (st : SearchState) (row : Row) : Bool × SearchState :=
  let second := tvSec (row .time)
  if 0 ≠ env.stime ∧ 0 ≠ env.etime ∧ (env.etime < second ∨ second < env.stime) then (true, st)
  else if !isMatchSession env.taskInfo (row .sip) (row .dip) ((row .sport).setWidth 16)
      ((row .dport).setWidth 16) ((row .proto).setWidth 16) then (true, st)
  else
    let limit := env.taskInfo.limit
    let matchPacketSize := st.matchPacketSize + BitVec.ofNat 64 ((row .payload).length + 16)
    if 0 ≠ limit ∧ limit < matchPacketSize ∧ 0 = env.enableTotalMatches then
      (false, { st with matchPacketSize := matchPacketSize })
    else
      (true,
        { matchPacketSize := matchPacketSize
          pushed := st.pushed ++ [payload (row .time) (row .payload)] })

/-- A parquet file as its reader gives it. -/
structure ParquetFile where
  numColumns : ℕ
  rowGroups : List RowGroup

/-- `batch_size`, the configured size up to 1024. -/
def batchSize (dfsFileReaderBatchSize : BitVec 16) : ℕ := min 1024 dfsFileReaderBatchSize.toNat

/-- `DfsParquetReader::decode_parquet`. `buffers` is what its arrays hold when they are made. -/
def decodeParquet (env : SearchEnv) (dfsFileReaderBatchSize : BitVec 16) (file : ParquetFile)
    (buffers : Buffers) (st : SearchState) : Option (Bool × SearchState) :=
  if file.numColumns ≠ 8 then some (true, st)
  else readRowGroups (visitRow env) (batchSize dfsFileReaderBatchSize) file.rowGroups buffers st

/-! ### The rows passed to the body -/

/-- A body that records the rows and never stops. -/
def recordRow (rows : List Row) (row : Row) : Bool × List Row := (true, rows ++ [row])

/-- The rows of one row group that are passed to the body of the inner loop while it does not stop
the search. -/
def passedRows (batchSize : ℕ) (group : RowGroup) (buffers : Buffers) : Option (List Row) :=
  (readRowGroup recordRow batchSize group.turns group buffers []).map fun result ↦ result.2.2

theorem visitRows_recordRow (rows recorded : List Row) :
    visitRows recordRow rows recorded = (true, recorded ++ rows) := by
  induction rows generalizing recorded with
  | nil => simp [visitRows]
  | cons row rows ih => simp [visitRows, recordRow, ih]

/-- One turn of the loop: the rows of the buffers after one read of every column. -/
theorem readRowGroup_turn (batchSize turns : ℕ) {group : RowGroup} (hnext : group.hasNext = true)
    (buffers : Buffers) (recorded : List Row) :
    readRowGroup recordRow batchSize (turns + 1) group buffers recorded =
      readRowGroup recordRow batchSize turns (group.readBatches batchSize).2
        (overwrite buffers (group.readBatches batchSize).1)
        (recorded ++ bufferRows (overwrite buffers (group.readBatches batchSize).1)
          ((group.readBatches batchSize).1 .payload).length) := by
  rw [readRowGroup, if_pos hnext]
  simp only [visitRows_recordRow]

theorem readRowGroup_done (batchSize turns : ℕ) {group : RowGroup}
    (hnext : group.hasNext = false) (buffers : Buffers) (recorded : List Row) :
    readRowGroup recordRow batchSize turns group buffers recorded =
      some (true, buffers, recorded) := by
  unfold readRowGroup
  rw [hnext]
  rfl

/-- A run over a row group with a next batch takes its turn and goes on. -/
theorem exists_readRowGroup_turn {batchSize turns : ℕ} {group : RowGroup}
    (hnext : group.hasNext = true) {buffers : Buffers} {recorded : List Row}
    {result : Bool × Buffers × List Row}
    (hread : readRowGroup recordRow batchSize turns group buffers recorded = some result) :
    ∃ turns', readRowGroup recordRow batchSize turns' (group.readBatches batchSize).2
      (overwrite buffers (group.readBatches batchSize).1)
      (recorded ++ bufferRows (overwrite buffers (group.readBatches batchSize).1)
        ((group.readBatches batchSize).1 .payload).length) = some result := by
  cases turns with
  | zero =>
    rw [readRowGroup, if_pos hnext] at hread
    cases hread
  | succ turns => exact ⟨turns, by rwa [readRowGroup_turn _ _ hnext] at hread⟩

/-- What has been recorded stays at the front. -/
theorem readRowGroup_keeps {batchSize turns : ℕ} {group : RowGroup} {buffers : Buffers}
    {recorded : List Row} {result : Bool × Buffers × List Row}
    (hread : readRowGroup recordRow batchSize turns group buffers recorded = some result) :
    recorded <+: result.2.2 := by
  induction turns generalizing group buffers recorded with
  | zero =>
    cases hnext : group.hasNext
    · rw [readRowGroup_done _ _ hnext] at hread
      cases hread
      exact List.prefix_rfl
    · rw [readRowGroup, if_pos hnext] at hread
      cases hread
  | succ turns ih =>
    cases hnext : group.hasNext
    · rw [readRowGroup_done _ _ hnext] at hread
      cases hread
      exact List.prefix_rfl
    · rw [readRowGroup_turn _ _ hnext] at hread
      exact (List.prefix_append _ _).trans (ih hread)

theorem visitRows_append {State : Type*} (visit : State → Row → Bool × State)
    (first second : List Row) (st : State) :
    visitRows visit (first ++ second) st =
      if (visitRows visit first st).1 then visitRows visit second (visitRows visit first st).2
      else visitRows visit first st := by
  induction first generalizing st with
  | nil => rfl
  | cons row rows ih =>
    rw [List.cons_append, visitRows, visitRows]
    rcases visit st row with ⟨_ | _, next⟩
    · rfl
    · exact ih next

/-- Whatever its body, the loop over a row group runs it on the rows that `passedRows` lists, until
the body stops it. -/
theorem readRowGroup_visit {State : Type*} (visit : State → Row → Bool × State)
    {batchSize turns : ℕ} {group : RowGroup} {buffers : Buffers} (recorded : List Row)
    {rows : List Row} {ok : Bool} {last : Buffers}
    (hread : readRowGroup recordRow batchSize turns group buffers recorded =
      some (ok, last, recorded ++ rows)) (st : State) :
    ∃ last, readRowGroup visit batchSize turns group buffers st =
      some ((visitRows visit rows st).1, last, (visitRows visit rows st).2) := by
  induction turns generalizing group buffers recorded rows st with
  | zero =>
    cases hnext : group.hasNext
    · rw [readRowGroup_done _ _ hnext] at hread
      have hrows : rows = [] := by
        simp only [Option.some.injEq, Prod.mk.injEq] at hread
        exact List.self_eq_append_right.mp hread.2.2
      rw [hrows, readRowGroup, if_neg (by simp [hnext])]
      exact ⟨buffers, rfl⟩
    · rw [readRowGroup, if_pos hnext] at hread
      cases hread
  | succ turns ih =>
    cases hnext : group.hasNext
    · rw [readRowGroup_done _ _ hnext] at hread
      have hrows : rows = [] := by
        simp only [Option.some.injEq, Prod.mk.injEq] at hread
        exact List.self_eq_append_right.mp hread.2.2
      rw [hrows, readRowGroup, if_neg (by simp [hnext])]
      exact ⟨buffers, rfl⟩
    · rw [readRowGroup_turn _ _ hnext] at hread
      obtain ⟨rest, hrest⟩ := readRowGroup_keeps hread
      rw [List.append_assoc] at hrest
      obtain rfl := List.append_cancel_left hrest
      rw [← List.append_assoc] at hread
      rw [readRowGroup, if_pos hnext, visitRows_append]
      simp only
      rcases visitRows visit _ st with ⟨_ | _, next⟩
      · exact ⟨_, rfl⟩
      · exact ih _ hread next

/-! ### Stored row groups -/

/-- The row group that holds the given rows, each column in pages of its own sizes. -/
def storedGroup (sizes : ReadColumn → List ℕ) (dsize : List (List (BitVec 32))) (rows : List Row) :
    RowGroup :=
  { column := fun column ↦ paginate (sizes column) (rows.map fun row ↦ row column)
    dsize := dsize }

/-- The sizes of the pages left after one read of every column. -/
def sizesLeft (batchSize : ℕ) (sizes : ReadColumn → List ℕ) : ReadColumn → List ℕ :=
  fun column ↦ (nextRead batchSize (sizes column)).2

/-- The length of the next read of a column. -/
def readLength (batchSize : ℕ) (sizes : ReadColumn → List ℕ) (column : ReadColumn) : ℕ :=
  (nextRead batchSize (sizes column)).1

variable {batchSize : ℕ} {sizes : ReadColumn → List ℕ} {dsize : List (List (BitVec 32))}
  {rows : List Row}

theorem RowGroup.hasNext_column {group : RowGroup} (hnext : group.hasNext = true)
    (column : ReadColumn) : ColumnReader.hasNext (group.column column) = true := by
  rw [RowGroup.hasNext, Bool.and_eq_true] at hnext
  exact List.all_eq_true.mp hnext.1 column (ReadColumn.mem_all column)

/-- A stored row group has a next batch as long as it holds rows. -/
theorem hasNext_storedGroup (hsizes : ∀ column, (sizes column).sum = rows.length)
    (hdsize : ColumnReader.hasNext dsize = true) :
    (storedGroup sizes dsize rows).hasNext = !rows.isEmpty := by
  have hcolumn (column : ReadColumn) :
      ColumnReader.hasNext ((storedGroup sizes dsize rows).column column) = !rows.isEmpty := by
    rw [storedGroup, hasNext_paginate (by rw [hsizes, List.length_map]), List.isEmpty_map]
  rw [RowGroup.hasNext]
  simp only [hcolumn]
  rw [storedGroup, hdsize, Bool.and_true]
  cases rows <;> rfl

/-- One read of every column of a stored row group. -/
theorem readBatches_storedGroup (batchSize : ℕ)
    (hsizes : ∀ column, (sizes column).sum = rows.length) :
    (storedGroup sizes dsize rows).readBatches batchSize =
      (fun column ↦ (rows.map fun row ↦ row column).take (readLength batchSize sizes column),
        { column := fun column ↦ paginate (sizesLeft batchSize sizes column)
            ((rows.map fun row ↦ row column).drop (readLength batchSize sizes column))
          dsize := dsize }) := by
  have hcolumn (column : ReadColumn) :
      readBatch batchSize ((storedGroup sizes dsize rows).column column) =
        ((rows.map fun row ↦ row column).take (readLength batchSize sizes column),
          paginate (sizesLeft batchSize sizes column)
            ((rows.map fun row ↦ row column).drop (readLength batchSize sizes column))) :=
    readBatch_paginate batchSize (by rw [hsizes, List.length_map])
  simp only [RowGroup.readBatches, hcolumn]
  rfl

/-- The reads of a column that has values left. -/
theorem chunkLengths_eq_cons (hbatch : 0 < batchSize) {column : ReadColumn}
    (hpos : 0 < (sizes column).sum) :
    chunkLengths batchSize (sizes column) = readLength batchSize sizes column ::
      chunkLengths batchSize (sizesLeft batchSize sizes column) :=
  chunkLengths_of_pos hbatch hpos

theorem sum_sizesLeft (batchSize : ℕ) (hsizes : ∀ column, (sizes column).sum = rows.length)
    (column : ReadColumn) :
    readLength batchSize sizes column + (sizesLeft batchSize sizes column).sum = rows.length := by
  rw [readLength, sizesLeft, nextRead_sum, hsizes]

/-- Where all reads of a turn have one length, the rows of the buffers are the stored rows. -/
theorem bufferRows_of_eq {length : ℕ} (hlength : length ≤ rows.length) (buffers : Buffers) :
    bufferRows (overwrite buffers fun column ↦ (rows.map fun row ↦ row column).take length) length =
      rows.take length := by
  refine List.ext_getElem ?_ fun idx hleft hright ↦ ?_
  · simp [bufferRows, hlength]
  · have hidx : idx < length := by simpa [bufferRows] using hleft
    have hrows : idx < rows.length := by omega
    simp only [bufferRows, List.getElem_map, List.getElem_range, List.getElem_take]
    funext column
    simp [overwrite, hidx, List.getElem?_map, List.getElem?_eq_getElem hrows]

/-- The reads of every column go on as those of the payloads do. -/
def ReadsAligned (batchSize : ℕ) (sizes : ReadColumn → List ℕ) : Prop :=
  ∀ column, chunkLengths batchSize (sizes column) = chunkLengths batchSize (sizes .payload)

/-- In an aligned row group that holds rows, the next reads have one length and leave an aligned
row group. -/
theorem ReadsAligned.step (hbatch : 0 < batchSize) (haligned : ReadsAligned batchSize sizes)
    (hsizes : ∀ column, (sizes column).sum = rows.length) (hpos : 0 < rows.length) :
    (∀ column, readLength batchSize sizes column = readLength batchSize sizes .payload) ∧
      ReadsAligned batchSize (sizesLeft batchSize sizes) := by
  have hpositive (column : ReadColumn) : 0 < (sizes column).sum := by rwa [hsizes]
  have hchunks (column : ReadColumn) := chunkLengths_eq_cons hbatch (hpositive column)
  have hcons (column : ReadColumn) := haligned column
  simp only [hchunks] at hcons
  exact ⟨fun column ↦ (List.cons.inj (hcons column)).1,
    fun column ↦ (List.cons.inj (hcons column)).2⟩

/-- An aligned row group is read back whole. -/
theorem ReadsAligned.readRowGroup (hbatch : 0 < batchSize) (haligned : ReadsAligned batchSize sizes)
    (hsizes : ∀ column, (sizes column).sum = rows.length)
    (hdsize : ColumnReader.hasNext dsize = true) {turns : ℕ} (hturns : rows.length ≤ turns)
    (buffers : Buffers) (recorded : List Row) :
    ∃ last, DfsParquetReader.readRowGroup recordRow batchSize turns (storedGroup sizes dsize rows)
      buffers recorded = some (true, last, recorded ++ rows) := by
  induction turns generalizing sizes rows buffers recorded with
  | zero =>
    have hnil : rows = [] := List.length_eq_zero_iff.mp (Nat.le_zero.mp hturns)
    subst hnil
    refine ⟨buffers, ?_⟩
    rw [readRowGroup_done _ _ (by rw [hasNext_storedGroup hsizes hdsize]; rfl), List.append_nil]
  | succ turns ih =>
    by_cases hnil : rows = []
    · subst hnil
      refine ⟨buffers, ?_⟩
      rw [readRowGroup_done _ _ (by rw [hasNext_storedGroup hsizes hdsize]; rfl), List.append_nil]
    · have hpos : 0 < rows.length := List.length_pos_of_ne_nil hnil
      have hnext : (storedGroup sizes dsize rows).hasNext = true := by
        rw [hasNext_storedGroup hsizes hdsize]
        simpa using hnil
      obtain ⟨hlength, hleft⟩ := haligned.step hbatch hsizes hpos
      generalize hread : readLength batchSize sizes .payload = length at hlength
      have hreadPos : 0 < length := hread ▸ nextRead_pos hbatch (by rwa [hsizes])
      have hsum (column : ReadColumn) :
          (sizesLeft batchSize sizes column).sum = (rows.drop length).length := by
        have := sum_sizesLeft batchSize hsizes column
        rw [hlength] at this
        rw [List.length_drop]
        omega
      have hle : length ≤ rows.length := by
        have := sum_sizesLeft batchSize hsizes .payload
        omega
      obtain ⟨last, hlast⟩ := ih hleft hsum (by rw [List.length_drop]; omega)
        (overwrite buffers fun column ↦ (rows.map fun row ↦ row column).take length)
        (recorded ++ rows.take length)
      refine ⟨last, ?_⟩
      rw [readRowGroup_turn _ _ hnext, readBatches_storedGroup _ hsizes]
      simp only [hlength, ← List.map_drop, ← List.map_take, List.length_map, List.length_take,
        Nat.min_eq_left hle]
      simp only [List.map_take, bufferRows_of_eq hle]
      rw [List.append_assoc, List.take_append_drop] at hlast
      simpa only [storedGroup] using hlast

/-- The same for a whole row group, with the turns that its payloads allow. -/
theorem ReadsAligned.readRowGroup_turns (hbatch : 0 < batchSize)
    (haligned : ReadsAligned batchSize sizes)
    (hsizes : ∀ column, (sizes column).sum = rows.length) {dsizeSizes : List ℕ}
    (hdsizeSizes : dsizeSizes.sum = rows.length) {dsizes : List (BitVec 32)}
    (hdsizes : dsizes.length = rows.length) (buffers : Buffers) :
    ∃ last, DfsParquetReader.readRowGroup recordRow batchSize
      (storedGroup sizes (paginate dsizeSizes dsizes) rows).turns
      (storedGroup sizes (paginate dsizeSizes dsizes) rows) buffers [] = some (true, last, rows) := by
  by_cases hnil : rows = []
  · subst hnil
    have hzero : (sizes .payload).sum = ([] : List (Cell .payload)).length := hsizes .payload
    have hdone : (storedGroup sizes (paginate dsizeSizes dsizes) []).hasNext = false := by
      by_contra hnext
      have hcolumn : ColumnReader.hasNext (paginate (sizes .payload) ([] : List (Cell .payload))) =
          true := RowGroup.hasNext_column (Bool.eq_true_of_not_eq_false hnext) .payload
      rw [hasNext_paginate hzero] at hcolumn
      cases hcolumn
    exact ⟨buffers, readRowGroup_done _ _ hdone _ _⟩
  · have hdsize : ColumnReader.hasNext (paginate dsizeSizes dsizes) = true := by
      rw [hasNext_paginate (by rw [hdsizeSizes, hdsizes]), Bool.not_eq_true',
        List.isEmpty_eq_false_iff]
      refine List.ne_nil_of_length_pos ?_
      rw [hdsizes]
      exact List.length_pos_of_ne_nil hnil
    have hturns : rows.length ≤ (storedGroup sizes (paginate dsizeSizes dsizes) rows).turns := by
      rw [RowGroup.turns, storedGroup, flatten_paginate (by rw [hsizes, List.length_map]),
        List.length_map]
    exact haligned.readRowGroup hbatch hsizes hdsize hturns buffers []

/-! ### Rows that are not read back -/

instance : (column : ReadColumn) → Inhabited (Cell column)
  | .payload => ⟨([] : List (BitVec 8))⟩
  | .time => ⟨(0 : BitVec 64)⟩
  | .sip | .dip | .sport | .dport | .proto => ⟨(0 : BitVec 32)⟩

/-- Every column has a value other than a given one. -/
theorem exists_cell_ne (column : ReadColumn) (cell : Cell column) :
    ∃ other : Cell column, other ≠ cell := by
  cases column
  case payload => exact ⟨0 :: cell, fun h ↦ by simpa using congrArg List.length h⟩
  case time =>
    refine ⟨(cell + 1 : BitVec 64), fun h ↦ ?_⟩
    exact absurd (add_eq_left.mp h) (by decide)
  all_goals
    refine ⟨(cell + 1 : BitVec 32), fun h ↦ ?_⟩
    exact absurd (add_eq_left.mp h) (by decide)

/-- A row with one value given and the others default. -/
def rowWith (column : ReadColumn) (cell : Cell column) : Row :=
  Function.update (fun _ ↦ default) column cell

@[simp] theorem rowWith_self (column : ReadColumn) (cell : Cell column) :
    rowWith column cell column = cell := Function.update_self ..

/-- Rows that begin with those of the buffers have the entries of the buffers. -/
theorem cell_of_prefix {buffers : Buffers} {valuesRead idx : ℕ} {rows : List Row}
    (hstarts : bufferRows buffers valuesRead <+: rows) (hidx : idx < valuesRead)
    (column : ReadColumn) :
    ∃ hlt : idx < rows.length, rows[idx] column = buffers column idx := by
  have hlt : idx < (bufferRows buffers valuesRead).length := by simpa [bufferRows] using hidx
  have hrow : (bufferRows buffers valuesRead)[idx] = fun column ↦ buffers column idx := by
    simp [bufferRows]
  exact ⟨hlt.trans_le hstarts.length_le, by rw [← hstarts.getElem hlt, hrow]⟩

/-- The buffers after the next read of a stored row group. -/
def buffersAfter (batchSize : ℕ) (sizes : ReadColumn → List ℕ) (rows : List Row)
    (buffers : Buffers) : Buffers :=
  overwrite buffers fun column ↦
    (rows.map fun row ↦ row column).take (readLength batchSize sizes column)

/-- The pages left after the next read of a stored row group. -/
def groupAfter (batchSize : ℕ) (sizes : ReadColumn → List ℕ) (dsize : List (List (BitVec 32)))
    (rows : List Row) : RowGroup :=
  { column := fun column ↦ paginate (sizesLeft batchSize sizes column)
      ((rows.map fun row ↦ row column).drop (readLength batchSize sizes column))
    dsize := dsize }

/-- A run over a stored row group that holds rows: a turn, and a run over what it leaves. -/
theorem exists_storedGroup_turn (hsizes : ∀ column, (sizes column).sum = rows.length)
    (hdsize : ColumnReader.hasNext dsize = true) (hpos : 0 < rows.length) {turns : ℕ}
    {buffers : Buffers} {recorded : List Row} {result : Bool × Buffers × List Row}
    (hread : readRowGroup recordRow batchSize turns (storedGroup sizes dsize rows) buffers
      recorded = some result) :
    ∃ turns', readRowGroup recordRow batchSize turns' (groupAfter batchSize sizes dsize rows)
      (buffersAfter batchSize sizes rows buffers)
      (recorded ++ bufferRows (buffersAfter batchSize sizes rows buffers)
        (readLength batchSize sizes .payload)) = some result := by
  have hnext : (storedGroup sizes dsize rows).hasNext = true := by
    rw [hasNext_storedGroup hsizes hdsize, Bool.not_eq_true', List.isEmpty_eq_false_iff]
    exact List.ne_nil_of_length_pos hpos
  have hpayload := sum_sizesLeft batchSize hsizes .payload
  obtain ⟨turns', hturn⟩ := exists_readRowGroup_turn hnext hread
  refine ⟨turns', ?_⟩
  rw [readBatches_storedGroup _ hsizes] at hturn
  simp only [List.length_take, List.length_map] at hturn
  rwa [Nat.min_eq_left (by omega)] at hturn

/-- A read shorter than that of the payloads leaves the last entries of its buffer as they were,
and one of them becomes part of a row. -/
theorem exists_misread_of_lt {column : ReadColumn} {count : ℕ}
    (hsizes : ∀ column, (sizes column).sum = count)
    (hdsize : ColumnReader.hasNext dsize = true)
    (hlt : readLength batchSize sizes column < readLength batchSize sizes .payload)
    (buffers : Buffers) (recorded : List Row) :
    ∃ rows : List Row, rows.length = count ∧ ∀ turns result,
      readRowGroup recordRow batchSize turns (storedGroup sizes dsize rows) buffers recorded =
        some result → result.2.2 ≠ recorded ++ rows := by
  obtain ⟨cell, hcell⟩ :=
    exists_cell_ne column (buffers column (readLength batchSize sizes column))
  refine ⟨List.replicate count (rowWith column cell), by simp,
    fun turns result hread hresult ↦ hcell ?_⟩
  generalize hrows : List.replicate count (rowWith column cell) = rows at hread hresult
  have hsizes' : ∀ other, (sizes other).sum = rows.length := by simp [← hrows, hsizes]
  have hpayload := sum_sizesLeft batchSize hsizes' .payload
  obtain ⟨turns, hturn⟩ := exists_storedGroup_turn hsizes' hdsize (by omega) hread
  have hstarts := (List.prefix_append_right_inj _).mp (hresult ▸ readRowGroup_keeps hturn)
  obtain ⟨hidx, hcellEq⟩ := cell_of_prefix hstarts hlt column
  have hrow : rows[readLength batchSize sizes column] column = cell := by
    subst hrows
    simp
  rw [← hrow, hcellEq]
  simp [buffersAfter, overwrite]

section GroupAfter

variable {rows : List Row}

/-- What a turn leaves of the pages of a column is as long as what it leaves of its values. -/
theorem sum_sizesLeft_drop (hsizes : ∀ column, (sizes column).sum = rows.length)
    (column : ReadColumn) :
    (sizesLeft batchSize sizes column).sum =
      ((rows.map fun row ↦ row column).drop (readLength batchSize sizes column)).length := by
  have := sum_sizesLeft batchSize hsizes column
  rw [List.length_drop, List.length_map]
  omega

/-- The next turn begins a column with the row at which the turn before has left it. -/
theorem head_readBatches_groupAfter (hbatch : 0 < batchSize)
    (hsizes : ∀ column, (sizes column).sum = rows.length) (column : ReadColumn) :
    (((groupAfter batchSize sizes dsize rows).readBatches batchSize).1 column)[0]? =
      (rows[readLength batchSize sizes column]?).map fun row ↦ row column := by
  rw [← List.head?_eq_getElem?, RowGroup.readBatches, groupAfter,
    head?_readBatch_paginate hbatch (sum_sizesLeft_drop hsizes column), List.head?_drop,
    List.getElem?_map]

/-- Where there is a next turn every column has values left. -/
theorem readLength_lt_of_hasNext (hsizes : ∀ column, (sizes column).sum = rows.length)
    (hnext : (groupAfter batchSize sizes dsize rows).hasNext = true) (column : ReadColumn) :
    readLength batchSize sizes column < rows.length := by
  have hmore := RowGroup.hasNext_column hnext column
  rw [groupAfter, hasNext_paginate (sum_sizesLeft_drop hsizes column), Bool.not_eq_true',
    List.isEmpty_eq_false_iff, ← List.length_pos_iff, List.length_drop, List.length_map] at hmore
  omega

end GroupAfter

/-- A read longer than that of the payloads moves its column on too far: the next turn makes a row
of values that are stored in different rows, and where there is no next turn rows are missing. -/
theorem exists_misread_of_gt (hbatch : 0 < batchSize) {column : ReadColumn} {count : ℕ}
    (hsizes : ∀ column, (sizes column).sum = count)
    (hdsize : ColumnReader.hasNext dsize = true)
    (hgt : readLength batchSize sizes .payload < readLength batchSize sizes column)
    (buffers : Buffers) (recorded : List Row) :
    ∃ rows : List Row, rows.length = count ∧ ∀ turns result,
      readRowGroup recordRow batchSize turns (storedGroup sizes dsize rows) buffers recorded =
        some result → result.2.2 ≠ recorded ++ rows := by
  obtain ⟨marked, hmarked⟩ := exists_cell_ne column default
  refine ⟨(List.range count).map fun idx ↦ rowWith column
    (if idx = readLength batchSize sizes .payload then marked else default), by simp,
    fun turns result hread hresult ↦ ?_⟩
  generalize hrows : ((List.range count).map fun idx ↦ rowWith column
    (if idx = readLength batchSize sizes .payload then marked else default)) = rows at hread hresult
  have hlength : rows.length = count := by simp [← hrows]
  have hentry {idx : ℕ} (hidx : idx < rows.length) : rows[idx] column =
      if idx = readLength batchSize sizes .payload then marked else default := by
    subst hrows
    simp
  have hsizes' : ∀ other, (sizes other).sum = rows.length := by simp [hlength, hsizes]
  have hcolumn := sum_sizesLeft batchSize hsizes' column
  obtain ⟨turns, hturn⟩ := exists_storedGroup_turn hsizes' hdsize (by omega) hread
  cases hnext : (groupAfter batchSize sizes dsize rows).hasNext with
  | false =>
    rw [readRowGroup_done _ _ hnext] at hturn
    cases hturn
    have hall := congrArg List.length (List.append_cancel_left hresult)
    simp only [bufferRows, List.length_map, List.length_range] at hall
    omega
  | true =>
    have hhead := @head_readBatches_groupAfter batchSize sizes dsize rows hbatch hsizes'
    have hlt := readLength_lt_of_hasNext hsizes' hnext
    have hpayload : 0 <
        (((groupAfter batchSize sizes dsize rows).readBatches batchSize).1 .payload).length := by
      have hsome := hhead .payload
      rw [List.getElem?_eq_getElem (hlt .payload)] at hsome
      exact (List.getElem?_eq_some_iff.mp hsome).1
    obtain ⟨turns, hturn⟩ := exists_readRowGroup_turn hnext hturn
    have hstarts := readRowGroup_keeps hturn
    rw [List.append_assoc, hresult] at hstarts
    obtain ⟨rest, hrows'⟩ := (List.prefix_append_right_inj _).mp hstarts
    have hfirst : (bufferRows (buffersAfter batchSize sizes rows buffers)
        (readLength batchSize sizes .payload)).length = readLength batchSize sizes .payload := by
      simp [bufferRows]
    have hsecond : bufferRows (overwrite (buffersAfter batchSize sizes rows buffers)
        ((groupAfter batchSize sizes dsize rows).readBatches batchSize).1)
        (((groupAfter batchSize sizes dsize rows).readBatches batchSize).1 .payload).length <+:
          rows.drop (readLength batchSize sizes .payload) := by
      have hdrop := congrArg (List.drop (readLength batchSize sizes .payload)) hrows'
      rw [List.append_assoc, List.drop_left' hfirst] at hdrop
      exact ⟨rest, hdrop⟩
    obtain ⟨hpos, hcell⟩ := cell_of_prefix hsecond hpayload column
    have hpayloadLt := hlt .payload
    have hcolumnLt := hlt column
    refine hmarked ?_
    calc marked = rows[readLength batchSize sizes .payload] column := by
          rw [hentry, if_pos rfl]
      _ = (rows.drop (readLength batchSize sizes .payload))[0] column := by
          simp only [List.getElem_drop, Nat.add_zero]
      _ = rows[readLength batchSize sizes column] column := by
          rw [hcell, overwrite, hhead column, List.getElem?_eq_getElem hcolumnLt]
          rfl
      _ = default := by
          rw [hentry, if_neg hgt.ne']

/-- Where some column is not read as the payloads are, there are rows that are not read back. The
first turn whose reads differ is reached over rows that are read back. -/
theorem exists_misread (hbatch : 0 < batchSize) {count : ℕ}
    (hsizes : ∀ column, (sizes column).sum = count)
    (hdsize : ColumnReader.hasNext dsize = true) (hnot : ¬ReadsAligned batchSize sizes)
    (buffers : Buffers) (recorded : List Row) :
    ∃ rows : List Row, rows.length = count ∧ ∀ turns result,
      readRowGroup recordRow batchSize turns (storedGroup sizes dsize rows) buffers recorded =
        some result → result.2.2 ≠ recorded ++ rows := by
  induction count using Nat.strongRecOn generalizing sizes buffers recorded with
  | _ count ih =>
    have hpos : 0 < count := by
      refine Nat.pos_of_ne_zero fun hzero ↦ hnot fun column ↦ ?_
      rw [chunkLengths_of_sum_eq_zero _ (by rw [hsizes, hzero]),
        chunkLengths_of_sum_eq_zero _ (by rw [hsizes, hzero])]
    by_cases hlength : ∀ column, readLength batchSize sizes column =
        readLength batchSize sizes .payload
    · generalize hread : readLength batchSize sizes .payload = length at hlength
      have hlengthPos : 0 < length := hread ▸ nextRead_pos hbatch (by rwa [hsizes])
      have hleft (column : ReadColumn) :
          length + (sizesLeft batchSize sizes column).sum = count := by
        rw [← hlength column, ← hsizes column]
        exact nextRead_sum batchSize (sizes column)
      have hnotLeft : ¬ReadsAligned batchSize (sizesLeft batchSize sizes) := by
        have hpositive (column : ReadColumn) : 0 < (sizes column).sum := by rwa [hsizes]
        refine fun haligned ↦ hnot fun column ↦ ?_
        rw [chunkLengths_eq_cons hbatch (hpositive column),
          chunkLengths_eq_cons hbatch (hpositive .payload), hlength, hread, haligned]
      have hlt := hleft .payload
      -- rows of this turn, which are read back, and those after it, which are not
      let first : List Row := List.replicate length fun _ ↦ default
      have hfirst : first.length = length := List.length_replicate
      obtain ⟨rest, hrest, hmisread⟩ := ih (count - length) (by omega)
        (fun column ↦ by have := hleft column; omega) hnotLeft
        (overwrite buffers fun column ↦ first.map fun row ↦ row column) (recorded ++ first)
      refine ⟨first ++ rest, by rw [List.length_append, hrest, hfirst]; omega,
        fun turns result hturn hresult ↦ ?_⟩
      obtain ⟨turns, hturn⟩ := exists_storedGroup_turn
        (fun column ↦ by rw [hsizes, List.length_append, hrest, hfirst]; omega) hdsize
        (by rw [List.length_append, hfirst]; omega) hturn
      have hbuffers : buffersAfter batchSize sizes (first ++ rest) buffers =
          overwrite buffers fun column ↦ first.map fun row ↦ row column := by
        simp only [buffersAfter, hlength, List.map_append]
        congr 1
        funext column
        exact List.take_left' (by rw [List.length_map, hfirst])
      have hgroup : groupAfter batchSize sizes dsize (first ++ rest) =
          storedGroup (sizesLeft batchSize sizes) dsize rest := by
        simp only [groupAfter, storedGroup, hlength, List.map_append]
        congr 1
        funext column
        rw [List.drop_left' (by rw [List.length_map, hfirst])]
      have hrows : bufferRows (overwrite buffers fun column ↦ first.map fun row ↦ row column)
          length = first := by
        have hread := bufferRows_of_eq hfirst.ge buffers
        rw [List.take_of_length_le hfirst.le] at hread
        simp only [List.take_of_length_le, List.length_map, hfirst, le_refl] at hread
        exact hread
      rw [hbuffers, hgroup, hread, hrows] at hturn
      exact hmisread turns result hturn (by rw [hresult, List.append_assoc])
    · push Not at hlength
      obtain ⟨column, hcolumn⟩ := hlength
      rcases Nat.lt_or_gt_of_ne hcolumn with hlt | hgt
      · exact exists_misread_of_lt hsizes hdsize hlt buffers recorded
      · exact exists_misread_of_gt hbatch hsizes hdsize hgt buffers recorded

/-- The rows passed to the filters are the stored rows, whatever these and the buffers hold,
exactly where the reads of every column go on as those of the payloads do. Assumes: a batch of at
least one value, and columns that hold as many values as there are rows. -/
theorem passedRows_iff (hbatch : 0 < batchSize) {count : ℕ}
    (hsizes : ∀ column, (sizes column).sum = count) {dsizeSizes : List ℕ}
    (hdsizeSizes : dsizeSizes.sum = count) :
    (∀ (rows : List Row) (dsizes : List (BitVec 32)) (buffers : Buffers),
        rows.length = count → dsizes.length = count →
          passedRows batchSize (storedGroup sizes (paginate dsizeSizes dsizes) rows) buffers =
            some rows) ↔
      ReadsAligned batchSize sizes := by
  constructor
  · intro hpassed
    by_contra hnot
    have hpos : 0 < count := by
      refine Nat.pos_of_ne_zero fun hzero ↦ hnot fun column ↦ ?_
      rw [chunkLengths_of_sum_eq_zero _ (by rw [hsizes, hzero]),
        chunkLengths_of_sum_eq_zero _ (by rw [hsizes, hzero])]
    have hlength : (List.replicate count (0 : BitVec 32)).length = count := List.length_replicate
    have hdsize : ColumnReader.hasNext (paginate dsizeSizes (List.replicate count (0 : BitVec 32))) =
        true := by
      rw [hasNext_paginate (by rw [hdsizeSizes, hlength]), Bool.not_eq_true',
        List.isEmpty_eq_false_iff]
      exact List.ne_nil_of_length_pos (by omega)
    obtain ⟨rows, hrows, hmisread⟩ :=
      exists_misread hbatch hsizes hdsize hnot (fun _ _ ↦ default) []
    obtain ⟨result, hresult, heq⟩ := Option.map_eq_some_iff.mp
      (hpassed rows _ (fun _ _ ↦ default) hrows hlength)
    exact hmisread _ result hresult heq
  · intro haligned rows dsizes buffers hrows hdsizes
    obtain ⟨last, hlast⟩ := haligned.readRowGroup_turns hbatch
      (fun column ↦ (hsizes column).trans hrows.symm) (hdsizeSizes.trans hrows.symm)
      (hdsizes.trans hrows.symm) buffers
    rw [passedRows, hlast]
    rfl

/-- Three rows in two pages each, read in batches of two. -/
theorem passedRows_iff_two_pages :
    (∀ (rows : List Row) (dsizes : List (BitVec 32)) (buffers : Buffers),
        rows.length = 3 → dsizes.length = 3 →
          passedRows 2 (storedGroup (fun _ ↦ [1, 2]) (paginate [3] dsizes) rows) buffers =
            some rows) ↔
      ReadsAligned 2 fun _ ↦ [1, 2] :=
  @passedRows_iff 2 (fun _ ↦ [1, 2]) (by decide) 3 (fun _ ↦ rfl) [3] rfl

/-- The page sizes of a row group in which the column of the times is cut in one place, within a
batch, and the others are not. -/
def cutTimes : ReadColumn → List ℕ
  | .time => [1, 1]
  | _ => [2]

/-- The second row has the time that the buffer held before, for want of a second time in the page
that was read. -/
theorem not_passedRows : ¬∀ (batchSize count : ℕ) (sizes : ReadColumn → List ℕ)
    (dsizeSizes : List ℕ), 1 ≤ batchSize → batchSize ≤ 1024 →
      (∀ column, (sizes column).sum = count) → dsizeSizes.sum = count →
        ∀ (rows : List Row) (dsizes : List (BitVec 32)) (buffers : Buffers),
          rows.length = count → dsizes.length = count →
            passedRows batchSize (storedGroup sizes (paginate dsizeSizes dsizes) rows) buffers =
              some rows := by
  intro hclaim
  have hsizes (column : ReadColumn) : (cutTimes column).sum = 2 := by
    cases column <;> rfl
  have hread := hclaim 2 2 cutTimes [2] (by decide) (by decide) hsizes rfl
    [rowWith .time 1, rowWith .time 2] [0, 0] (fun _ _ ↦ default) rfl rfl
  have hsecond := congrArg (Option.map fun rows : List Row ↦ rows.map fun row ↦ row .time) hread
  exact absurd hsecond (by decide)

/-! ### Whole files -/

/-- A row group as it is stored: its rows, and the page sizes of its columns. -/
structure StoredRowGroup where
  rows : List Row
  dsizes : List (BitVec 32)
  sizes : ReadColumn → List ℕ
  dsizeSizes : List ℕ
  sum_sizes : ∀ column, (sizes column).sum = rows.length
  sum_dsizeSizes : dsizeSizes.sum = rows.length
  length_dsizes : dsizes.length = rows.length

/-- The row group that a reader gets. -/
def StoredRowGroup.rowGroup (stored : StoredRowGroup) : RowGroup :=
  storedGroup stored.sizes (paginate stored.dsizeSizes stored.dsizes) stored.rows

/-- Where the columns of all row groups are aligned, the filters and the limit of a search see the
rows of the whole file, in order. -/
theorem readRowGroups_of_aligned {State : Type*} (visit : State → Row → Bool × State)
    (hbatch : 0 < batchSize) {groups : List StoredRowGroup}
    (haligned : ∀ stored ∈ groups, ReadsAligned batchSize stored.sizes) (buffers : Buffers)
    (st : State) :
    readRowGroups visit batchSize (groups.map StoredRowGroup.rowGroup) buffers st =
      some (visitRows visit (groups.flatMap StoredRowGroup.rows) st) := by
  induction groups generalizing buffers st with
  | nil => rfl
  | cons stored groups ih =>
    obtain ⟨last, hread⟩ := (haligned stored (List.mem_cons_self ..)).readRowGroup_turns hbatch
      stored.sum_sizes stored.sum_dsizeSizes stored.length_dsizes buffers
    obtain ⟨last, hvisit⟩ := readRowGroup_visit visit [] hread st
    rw [List.map_cons, List.flatMap_cons, readRowGroups, visitRows_append, StoredRowGroup.rowGroup,
      hvisit]
    rcases visitRows visit stored.rows st with ⟨_ | _, next⟩
    · rfl
    · exact ih (fun other hother ↦ haligned other (List.mem_cons_of_mem _ hother)) last next

end CppLearn.SearchEngine.DfsParquetReader
