import CppLearn.Foundation.PriorityQueue
import CppLearn.SearchEngine.DfsParquetReader

/-!
# The pcap writer

`write_pcap` takes what a search has pushed off a ring, puts it into a heap, and turns the payloads
one after the other into records of the pcap file. A record's time is the stored time, its upper
half the seconds and its lower half the microseconds. `pcapFileSize_eq` is the size of the file.

A payload without bytes has no buffer, and the null pointer is followed when it is dumped. The file
has the records of all rows in the order of their times just when there is none
(`writtenInOrder_iff`).
-/

set_option autoImplicit false
set_option relaxedAutoImplicit false

namespace CppLearn.SearchEngine.DiskPcapWriter

open Foundation.PriorityQueue DfsParquetReader

/-- `pcap_pkthdr` with the bytes that follow it in the file. -/
structure PcapRecord where
  tvSec : BitVec 64
  tvUsec : BitVec 64
  caplen : BitVec 32
  len : BitVec 32
  bytes : List (BitVec 8)
  deriving DecidableEq

/-- The record that `write_pcap` dumps of one payload; none where the payload has no buffer to take
the length from. -/
def pcapRecord (payload : Payload) : Option PcapRecord :=
  payload.buf.map fun bytes ↦
    { tvSec := payload.ts >>> 32
      tvUsec := payload.ts &&& (1#64 <<< 32 - 1)
      caplen := BitVec.ofNat 32 bytes.length
      len := BitVec.ofNat 32 bytes.length
      bytes := bytes }

/-! ### The size of the file -/

/-- The bytes of the pcap file with some records: its header, and each record behind one of its
own. -/
def pcapFileSize (records : List PcapRecord) : ℕ :=
  24 + (records.map fun record ↦ record.bytes.length + 16).sum

/-- The bytes that a pushed payload takes in the pcap file. -/
def payloadSize (payload : Payload) : ℕ := (payload.buf.getD []).length + 16

/-- The bytes that some payloads take. -/
def pushedSize (pushed : List Payload) : ℕ := (pushed.map payloadSize).sum

theorem payloadSize_payload (ts : BitVec 64) (bytes : List (BitVec 8)) :
    payloadSize (payload ts bytes) = bytes.length + 16 := by
  rw [payloadSize, payload]
  split_ifs with hempty
  · rw [hempty]
    rfl
  · rfl

theorem pushedSize_append (pushed : List Payload) (ts : BitVec 64) (bytes : List (BitVec 8)) :
    pushedSize (pushed ++ [payload ts bytes]) = pushedSize pushed + (bytes.length + 16) := by
  rw [pushedSize, List.map_append, List.sum_append, List.map_singleton, List.sum_singleton,
    payloadSize_payload]
  rfl

theorem pushedSize_pos {pushed : List Payload} (hne : pushed ≠ []) : 0 < pushedSize pushed := by
  obtain ⟨payload, rest, rfl⟩ := List.exists_cons_of_ne_nil hne
  rw [pushedSize, List.map_cons, List.sum_cons, payloadSize]
  omega

/-- Assumes: that every payload has a buffer. In whatever order `write_pcap` takes them, the file
has the bytes that they take behind its header. -/
theorem pcapFileSize_eq {pushed order : List Payload} {records : List PcapRecord}
    (horder : order.Perm pushed) (hrecords : order.mapM pcapRecord = some records) :
    pcapFileSize records = 24 + pushedSize pushed := by
  have hsizes : (records.map fun record ↦ record.bytes.length + 16) = order.map payloadSize := by
    clear horder
    induction order generalizing records with
    | nil =>
      cases hrecords
      rfl
    | cons payload order ih =>
      simp only [List.mapM_cons, Option.bind_eq_bind, Option.bind_eq_some_iff, Option.pure_def,
        Option.some.injEq] at hrecords
      obtain ⟨record, hrecord, rest, hrest, rfl⟩ := hrecords
      obtain ⟨bytes, hbuf, rfl⟩ := Option.map_eq_some_iff.mp hrecord
      rw [List.map_cons, List.map_cons, ih hrest, payloadSize, hbuf]
      rfl
  rw [pcapFileSize, hsizes, pushedSize]
  exact congrArg (24 + ·) (horder.map payloadSize).sum_eq

/-! ### The records in order -/

/-- `PayloadBlock`. -/
structure PayloadBlock where
  payload : Option Payload
  flag : ℕ

/-- `compare`: the payload with the later time is the lesser one. -/
def compare (l r : Payload) : Prop := r.ts < l.ts

instance : IsStrictOrder Payload compare where
  irrefl payload := BitVec.lt_irrefl payload.ts
  trans _ _ _ hfirst hsecond := BitVec.lt_trans hsecond hfirst

/-- The first loop of `write_pcap`: what it has put into the heap when it comes to a block with a
flag. On a ring without one it waits for ever, and a block without a payload cannot be compared. -/
def collect : List PayloadBlock → Option (List Payload)
  | [] => none
  | block :: ring =>
    if block.flag ≠ 0 then some []
    else block.payload.bind fun payload ↦ (collect ring).map (payload :: ·)

/-- The block that `decode_parquet` pushes for a row. -/
def pushedBlock (row : Row) : PayloadBlock := ⟨some (payload (row .time) (row .payload)), 0⟩

/-- The block that `do_search` pushes last. -/
def endBlock : PayloadBlock := ⟨none, 1⟩

/-- The record of a row: its own bytes under its own time. -/
def rowRecord (row : Row) : PcapRecord :=
  { tvSec := row .time >>> 32
    tvUsec := row .time % 2 ^ 32
    caplen := BitVec.ofNat 32 (row .payload).length
    len := BitVec.ofNat 32 (row .payload).length
    bytes := row .payload }

/-- The time of a record, with the seconds above the microseconds. -/
def PcapRecord.timeStamp (record : PcapRecord) : ℕ :=
  record.tvSec.toNat * 2 ^ 32 + record.tvUsec.toNat

/-- In whatever order the rows are pushed, `write_pcap` comes to the last block and can empty its
heap; and in whatever order it does, every payload has a buffer and the records are those of the
rows in the order of their times. -/
def WrittenInOrder (rows : List Row) : Prop :=
  ∀ (pushes : List Row) (after : List PayloadBlock), pushes.Perm rows →
    ∃ heap, collect (pushes.map pushedBlock ++ endBlock :: after) = some heap ∧
      (∃ order, Drains compare heap order) ∧ ∀ order, Drains compare heap order →
        (∀ payload ∈ order, payload.buf ≠ none) ∧
          ∃ records, order.mapM pcapRecord = some records ∧ records.Perm (rows.map rowRecord) ∧
            records.Pairwise fun first later ↦ first.timeStamp ≤ later.timeStamp

theorem collect_pushed (pushes : List Row) (after : List PayloadBlock) :
    collect (pushes.map pushedBlock ++ endBlock :: after) =
      some (pushes.map fun row ↦ payload (row .time) (row .payload)) := by
  induction pushes with
  | nil => rfl
  | cons row pushes ih =>
    rw [List.map_cons, List.cons_append, collect, ih]
    rfl

/-- A row with bytes has the record it should have. -/
theorem pcapRecord_payload {row : Row} (hbytes : row .payload ≠ []) :
    pcapRecord (payload (row .time) (row .payload)) = some (rowRecord row) := by
  have husec : row .time &&& (1#64 <<< 32 - 1) = row .time % 2 ^ 32 := by
    apply BitVec.eq_of_toNat_eq
    rw [BitVec.toNat_and, BitVec.toNat_umod]
    exact Nat.and_two_pow_sub_one_eq_mod _ 32
  rw [payload, if_neg (List.length_eq_zero_iff.not.mpr hbytes), pcapRecord, Option.map_some,
    rowRecord, husec]

theorem buf_payload {ts : BitVec 64} {bytes : List (BitVec 8)} :
    (payload ts bytes).buf ≠ none ↔ bytes ≠ [] := by
  unfold payload
  split_ifs with hempty
  · exact ⟨fun h ↦ absurd rfl h, fun h ↦ absurd (List.length_eq_zero_iff.mp hempty) h⟩
  · exact ⟨fun _ h ↦ hempty (List.length_eq_zero_iff.mpr h), fun _ ↦ Option.some_ne_none _⟩

theorem timeStamp_rowRecord (row : Row) :
    (rowRecord row).timeStamp = BitVec.toNat (row .time) := by
  rw [PcapRecord.timeStamp, rowRecord, BitVec.toNat_ushiftRight, BitVec.toNat_umod,
    Nat.shiftRight_eq_div_pow]
  exact Nat.div_add_mod' _ _

/-- Assumes: that every row has bytes. Their payloads become their records. -/
theorem mapM_pcapRecord {rows : List Row} (hbytes : ∀ row ∈ rows, row .payload ≠ []) :
    (rows.map fun row ↦ payload (row .time) (row .payload)).mapM pcapRecord =
      some (rows.map rowRecord) := by
  induction rows with
  | nil => rfl
  | cons row rows ih =>
    have hrest := ih fun other hother ↦ hbytes other (List.mem_cons_of_mem _ hother)
    rw [List.map_cons, List.mapM_cons, pcapRecord_payload (hbytes row (List.mem_cons_self ..)),
      hrest]
    rfl

/-- A row without bytes leaves a payload that cannot be dumped. -/
theorem WrittenInOrder.bytes {rows : List Row} (hwritten : WrittenInOrder rows) {row : Row}
    (hrow : row ∈ rows) : row .payload ≠ [] := by
  obtain ⟨heap, hheap, ⟨order, hdrains⟩, hall⟩ := hwritten rows [] (.refl rows)
  have hmem : payload (row .time) (row .payload) ∈ order := by
    rw [collect_pushed, Option.some.injEq] at hheap
    rw [hdrains.perm.mem_iff, ← hheap]
    exact List.mem_map_of_mem hrow
  exact buf_payload.mp ((hall order hdrains).1 _ hmem)

/-- `write_pcap` writes the records of all rows in the order of their times, for every order in
which they are pushed, if and only if no row is without bytes. -/
theorem writtenInOrder_iff (rows : List Row) :
    WrittenInOrder rows ↔ ∀ row ∈ rows, row .payload ≠ [] := by
  constructor
  · exact fun hwritten row hrow ↦ hwritten.bytes hrow
  · intro hbytes pushes after hpushes
    refine ⟨_, collect_pushed pushes after, exists_drains _, fun order hdrains ↦ ?_⟩
    -- the heap gives up the payloads of the rows in some order of the rows
    obtain ⟨ordered, rfl, hordered⟩ :
        ∃ ordered : List Row, order = ordered.map (fun row ↦ payload (row .time) (row .payload)) ∧
          ordered.Perm pushes :=
      (congrFun (congrFun (List.eq_map_comp_perm _) order) pushes).mpr hdrains.perm
    have hperm := hordered.trans hpushes
    have hnonempty : ∀ row ∈ ordered, row .payload ≠ [] := fun row hrow ↦
      hbytes row (hperm.mem_iff.mp hrow)
    refine ⟨?_, ordered.map rowRecord, mapM_pcapRecord hnonempty, hperm.map rowRecord, ?_⟩
    · intro dumped hdumped
      obtain ⟨row, hrow, rfl⟩ := List.mem_map.mp hdumped
      exact buf_payload.mpr (hnonempty row hrow)
    · refine List.pairwise_map.mpr ((List.pairwise_map.mp hdrains.pairwise).imp fun hnot ↦ ?_)
      rw [timeStamp_rowRecord, timeStamp_rowRecord]
      exact BitVec.le_def.mp (BitVec.not_lt.mp hnot)

/-- A row whose packet has no bytes, as the receiver stores a packet of length zero. -/
def emptyRow : Row
  | .time => (0 : BitVec 64)
  | .sip => (1 : BitVec 32)
  | .dip => (0 : BitVec 32)
  | .sport => (0 : BitVec 32)
  | .dport => (0 : BitVec 32)
  | .proto => (0 : BitVec 32)
  | .payload => []

/-- With that row alone the null pointer is followed. -/
theorem not_writtenInOrder : ¬ ∀ rows, WrittenInOrder rows := fun hclaim ↦
  (hclaim [emptyRow]).bytes (List.mem_singleton_self emptyRow) rfl

end CppLearn.SearchEngine.DiskPcapWriter
