import CppLearn.Foundation.GuardedRun
import CppLearn.Foundation.ThreadTable
import CppLearn.SearchEngine.DiskPcapWriter

/-!
# The size limit of a search

The readers of a search share one counter. For a row that matches, a reader adds the row's size to
it, compares it with the limit and pushes the row: three steps, and other readers may move between
them. `limitStep` is one step of one reader, and `visitRows_alone` says that a reader on its own
does what `decode_parquet` does.

A row that is pushed was within the limit together with everything pushed before, so the pcap file
stays within it as long as no addition wraps round (`pushed_le_limit`). A row that is rejected stays
in the counter, so the size that is reported is the size written only while no row is
(`reported_of_kept`).
-/

set_option autoImplicit false
set_option relaxedAutoImplicit false

namespace CppLearn.SearchEngine.LimitedSearch

open Foundation.GuardedRun Foundation.ThreadTable
open DfsParquetReader DiskPcapWriter SessionFilter TaskRequest

/-! ### The body of the inner loop in three steps -/

/-- A row that is passed over: outside the window, or of another session. -/
def skips (env : SearchEnv) (row : Row) : Bool :=
  let second := tvSec (row .time)
  (0 ≠ env.stime ∧ 0 ≠ env.etime ∧ (env.etime < second ∨ second < env.stime)) ||
    !isMatchSession env.taskInfo (row .sip) (row .dip) ((row .sport).setWidth 16)
      ((row .dport).setWidth 16) ((row .proto).setWidth 16)

/-- What a row adds to `match_packet_size`. -/
def rowSize (row : Row) : ℕ := (row .payload).length + 16

/-- The comparison of `match_packet_size` with the limit. -/
def hitsLimit (env : SearchEnv) (matchPacketSize : BitVec 64) : Bool :=
  0 ≠ env.taskInfo.limit ∧ env.taskInfo.limit < matchPacketSize ∧ 0 = env.enableTotalMatches

/-- The addition. -/
def SearchState.add (st : SearchState) (row : Row) : SearchState :=
  { st with matchPacketSize := st.matchPacketSize + BitVec.ofNat 64 (rowSize row) }

/-- The push. -/
def SearchState.push (st : SearchState) (row : Row) : SearchState :=
  { st with pushed := st.pushed ++ [payload (row .time) (row .payload)] }

/-- The body of the inner loop, by these steps. -/
theorem visitRow_eq (env : SearchEnv) (st : SearchState) (row : Row) :
    visitRow env st row =
      if skips env row then (true, st)
      else if hitsLimit env (SearchState.add st row).matchPacketSize then
        (false, SearchState.add st row)
      else (true, SearchState.push (SearchState.add st row) row) := by
  by_cases hwindow : 0 ≠ env.stime ∧ 0 ≠ env.etime ∧
      (env.etime < tvSec (row .time) ∨ tvSec (row .time) < env.stime)
  · simp only [visitRow, skips, if_pos hwindow, decide_eq_true hwindow, Bool.true_or, if_true]
  · simp only [visitRow, skips, if_neg hwindow, decide_eq_false hwindow, Bool.false_or]
    split_ifs with hsession hlimit hhit hhit
    · rfl
    · rfl
    · exact absurd (decide_eq_true hlimit) hhit
    · exact absurd (of_decide_eq_true hhit) hlimit
    · rfl

/-! ### The readers -/

/-- Where a reader stands: in `file_list_ring_pop`, with a file it has popped, before the next row
of a file, after the addition of a row, after a comparison that keeps it, with a result to assign to
`continue_searching`, or past its loop. A file is the list of the rows that `decode_parquet` passes
to the body of its inner loop, empty where it cannot be read. -/
inductive Reader
  | waiting
  | holding (rows : List Row)
  | reading (rows : List Row)
  | comparing (row : Row) (rows : List Row)
  | keeping (row : Row) (rows : List Row)
  | returning (result : Bool)
  | finished

/-- What the readers share, and the rows that a comparison has rejected, in order. -/
structure Shared where
  continueSearching : Bool
  search : SearchState
  rejected : List Row

/-- A step of a reader outside `file_list_ring_pop`. -/
def readerStep (env : SearchEnv) (shared : Shared) : Reader → Option (Reader × Shared)
  | .holding rows => some (if shared.continueSearching then .reading rows else .waiting, shared)
  | .reading [] => some (.returning true, shared)
  | .reading (row :: rows) =>
    if skips env row then some (.reading rows, shared)
    else some (.comparing row rows, { shared with search := SearchState.add shared.search row })
  | .comparing row rows =>
    if hitsLimit env shared.search.matchPacketSize then
      some (.returning false, { shared with rejected := shared.rejected ++ [row] })
    else some (.keeping row rows, shared)
  | .keeping row rows =>
    some (.reading rows, { shared with search := SearchState.push shared.search row })
  | .returning result => some (.waiting, { shared with continueSearching := result })
  | .waiting => none
  | .finished => none

/-- The readers, what they share, and the `file_size` of the task once `do_search` has stored it. -/
structure LimitedRun where
  readers : List Reader
  shared : Shared
  fileSize : Option (BitVec 64)

/-- A reader has moved to another place and left the shared state. -/
def LimitedRun.place (s : LimitedRun) (reader : ℕ) (standing : Reader) (shared : Shared) :
    LimitedRun :=
  { s with readers := s.readers.set reader standing, shared := shared }

/-- The start of `do_search`: the counter is the length of the header of a pcap file. -/
def LimitedRun.start (dfsFileReaderThreadNum : ℕ) : LimitedRun :=
  { readers := List.replicate dfsFileReaderThreadNum .waiting
    shared := ⟨true, ⟨24, []⟩, []⟩
    fileSize := none }

/-- A reader pops a file, or the entry that ends its loop; it moves on; or `do_search` has joined
all readers and stores the size. -/
inductive LimitEvent
  | pop (reader : ℕ) (file : Option (List Row))
  | move (reader : ℕ)
  | join

/-- A reader after its pop. -/
def afterPop : Option (List Row) → Reader
  | some rows => .holding rows
  | none => .finished

/-- A reader past its loop. -/
def Reader.isFinished : Reader → Bool
  | .finished => true
  | _ => false

/-- One step of one thread. -/
def limitStep (env : SearchEnv) (s : LimitedRun) : LimitEvent → Option LimitedRun
  | .pop reader file =>
    match s.readers[reader]? with
    | some .waiting => some (s.place reader (afterPop file) s.shared)
    | _ => none
  | .move reader =>
    match s.readers[reader]? with
    | some standing =>
      (readerStep env s.shared standing).map fun (standing, shared) ↦
        s.place reader standing shared
    | none => none
  | .join =>
    if s.readers.all Reader.isFinished then
      some { s with fileSize := some s.shared.search.matchPacketSize }
    else none

/-! ### A reader on its own -/

section Alone

variable {env : SearchEnv} {s : LimitedRun} {reader : ℕ} {shared : Shared} {row : Row}

theorem readerStep_skip (hskips : skips env row = true) (rows : List Row) :
    readerStep env shared (.reading (row :: rows)) = some (.reading rows, shared) := by
  rw [readerStep, if_pos hskips]

theorem readerStep_add (hskips : skips env row = false) (rows : List Row) :
    readerStep env shared (.reading (row :: rows)) =
      some (.comparing row rows,
        { shared with search := SearchState.add shared.search row }) := by
  rw [readerStep, if_neg (Bool.eq_false_iff.mp hskips)]

theorem readerStep_reject (hhit : hitsLimit env shared.search.matchPacketSize = true)
    (rows : List Row) :
    readerStep env shared (.comparing row rows) =
      some (.returning false, { shared with rejected := shared.rejected ++ [row] }) := by
  rw [readerStep, if_pos hhit]

theorem readerStep_keep (hhit : hitsLimit env shared.search.matchPacketSize = false)
    (rows : List Row) :
    readerStep env shared (.comparing row rows) = some (.keeping row rows, shared) := by
  rw [readerStep, if_neg (Bool.eq_false_iff.mp hhit)]

theorem readers_place (hreader : reader < s.readers.length) (standing : Reader) (shared : Shared) :
    (s.place reader standing shared).readers[reader]? = some standing :=
  List.getElem?_set_self hreader

theorem place_place (standing standing' : Reader) (shared shared' : Shared) :
    (s.place reader standing shared).place reader standing' shared' =
      s.place reader standing' shared' := by
  simp only [LimitedRun.place, List.set_set]

/-- A reader moves on, and a run goes on from there. -/
theorem reachable_move (hreader : reader < s.readers.length) {standing standing' : Reader}
    {shared' : Shared} {finish : LimitedRun}
    (hstep : readerStep env shared standing = some (standing', shared'))
    (hrest : Reachable (limitStep env) (s.place reader standing' shared') finish) :
    Reachable (limitStep env) (s.place reader standing shared) finish := by
  have htaken : limitStep env (s.place reader standing shared) (.move reader) =
      some (s.place reader standing' shared') := by
    have hstep' : readerStep env (s.place reader standing shared).shared standing =
        some (standing', shared') := hstep
    simp only [limitStep, readers_place hreader, hstep', Option.map_some, place_place]
  exact (Run.tail (.move reader) .refl trivial htaken).trans hrest

/-- Assumes: a reader in front of some rows, and no other that moves. It ends with the result and
the shared state of the inner loop. -/
theorem visitRows_alone (env : SearchEnv) (hreader : reader < s.readers.length) (rows : List Row)
    (shared : Shared) :
    ∃ rejected, Reachable (limitStep env) (s.place reader (.reading rows) shared)
      (s.place reader (.returning (visitRows (visitRow env) rows shared.search).1)
        { shared with
          search := (visitRows (visitRow env) rows shared.search).2
          rejected := rejected }) := by
  induction rows generalizing shared with
  | nil => exact ⟨shared.rejected, reachable_move hreader rfl .refl⟩
  | cons row rows ih =>
    rw [visitRows, visitRow_eq]
    by_cases hskips : skips env row = true
    · obtain ⟨rejected, hrest⟩ := ih shared
      refine ⟨rejected, reachable_move hreader (readerStep_skip hskips rows) ?_⟩
      simpa only [if_pos hskips] using hrest
    · have hcounts : skips env row = false := Bool.eq_false_iff.mpr hskips
      by_cases hhit : hitsLimit env (SearchState.add shared.search row).matchPacketSize = true
      · refine ⟨shared.rejected ++ [row], reachable_move hreader (readerStep_add hcounts rows)
          (reachable_move hreader (readerStep_reject hhit rows) ?_)⟩
        simp only [if_neg hskips, if_pos hhit]
        exact .refl
      · obtain ⟨rejected, hrest⟩ := ih
          { shared with search := SearchState.push (SearchState.add shared.search row) row }
        refine ⟨rejected, reachable_move hreader (readerStep_add hcounts rows)
          (reachable_move hreader (readerStep_keep (Bool.eq_false_iff.mpr hhit) rows)
            (reachable_move hreader rfl ?_))⟩
        simpa only [if_neg hskips, if_neg hhit] using hrest

end Alone

/-! ### What the counter counts -/

/-- What one step can do. -/
theorem limitStep_cases {env : SearchEnv} {s next : LimitedRun} {event : LimitEvent}
    (htaken : limitStep env s event = some next) :
    (∃ reader file, event = .pop reader file ∧ s.readers[reader]? = some .waiting ∧
        next = s.place reader (afterPop file) s.shared) ∨
      (∃ reader standing standing' shared, event = .move reader ∧
        s.readers[reader]? = some standing ∧
        readerStep env s.shared standing = some (standing', shared) ∧
        next = s.place reader standing' shared) ∨
      (event = .join ∧ s.readers.all Reader.isFinished = true ∧
        next = { s with fileSize := some s.shared.search.matchPacketSize }) := by
  rcases event with ⟨reader, file⟩ | reader | _
  · left
    simp only [limitStep] at htaken
    split at htaken
    · next hreader => exact ⟨reader, file, rfl, hreader, (Option.some.inj htaken).symm⟩
    · cases htaken
  · right
    left
    simp only [limitStep] at htaken
    split at htaken
    · next standing hreader =>
      obtain ⟨⟨standing', shared⟩, hstep, hnext⟩ := Option.map_eq_some_iff.mp htaken
      exact ⟨reader, standing, standing', shared, rfl, hreader, hstep, hnext.symm⟩
    · cases htaken
  · right
    right
    simp only [limitStep] at htaken
    split_ifs at htaken with hall
    exact ⟨rfl, hall, (Option.some.inj htaken).symm⟩

/-- What a row that has been added but neither pushed nor rejected takes. -/
def pendingSize : Reader → ℕ
  | .comparing row _ => rowSize row
  | .keeping row _ => rowSize row
  | _ => 0

/-- What a row that is about to be pushed takes. -/
def keptSize : Reader → ℕ
  | .keeping row _ => rowSize row
  | _ => 0

theorem pendingSize_waiting : pendingSize .waiting = 0 := rfl

theorem keptSize_waiting : keptSize .waiting = 0 := rfl

theorem keptSize_le (reader : Reader) : keptSize reader ≤ pendingSize reader := by
  cases reader with
  | keeping row rows => exact le_rfl
  | _ => exact Nat.zero_le _

/-- What the next step of a reader adds to the counter. -/
def addition (env : SearchEnv) : Reader → ℕ
  | .reading (row :: _) => if skips env row then 0 else rowSize row
  | _ => 0

/-- The steps of a reader: one that leaves the counter and the rows alone, and those of the body of
the inner loop for a row that is not passed over. -/
inductive ReaderMove (env : SearchEnv) (shared : Shared) : Reader → Reader → Shared → Prop
  | quiet {standing standing' : Reader} {shared' : Shared} (hpending : pendingSize standing = 0)
      (hpending' : pendingSize standing' = 0) (haddition : addition env standing = 0)
      (hsearch : shared'.search = shared.search) (hrejected : shared'.rejected = shared.rejected) :
      ReaderMove env shared standing standing' shared'
  | add (row : Row) (rows : List Row) (hcounts : skips env row = false) :
      ReaderMove env shared (.reading (row :: rows)) (.comparing row rows)
        { shared with search := SearchState.add shared.search row }
  | reject (row : Row) (rows : List Row)
      (hhit : hitsLimit env shared.search.matchPacketSize = true) :
      ReaderMove env shared (.comparing row rows) (.returning false)
        { shared with rejected := shared.rejected ++ [row] }
  | keep (row : Row) (rows : List Row)
      (hkeep : hitsLimit env shared.search.matchPacketSize = false) :
      ReaderMove env shared (.comparing row rows) (.keeping row rows) shared
  | push (row : Row) (rows : List Row) :
      ReaderMove env shared (.keeping row rows) (.reading rows)
        { shared with search := SearchState.push shared.search row }

theorem readerMove_of_readerStep {env : SearchEnv} {shared shared' : Shared}
    {standing standing' : Reader}
    (hstep : readerStep env shared standing = some (standing', shared')) :
    ReaderMove env shared standing standing' shared' := by
  cases standing with
  | waiting => cases hstep
  | finished => cases hstep
  | holding rows =>
    cases hstep
    refine .quiet rfl ?_ rfl rfl rfl
    split_ifs
    · rfl
    · rfl
  | reading rows =>
    rcases rows with _ | ⟨row, rows⟩
    · cases hstep
      exact .quiet rfl rfl rfl rfl rfl
    · by_cases hskips : skips env row = true
      · rw [readerStep_skip hskips] at hstep
        cases hstep
        exact .quiet rfl rfl (if_pos hskips) rfl rfl
      · have hcounts : skips env row = false := Bool.eq_false_iff.mpr hskips
        rw [readerStep_add hcounts] at hstep
        cases hstep
        exact .add row rows hcounts
  | comparing row rows =>
    by_cases hhit : hitsLimit env shared.search.matchPacketSize = true
    · rw [readerStep_reject hhit] at hstep
      cases hstep
      exact .reject row rows hhit
    · have hkeep : hitsLimit env shared.search.matchPacketSize = false := Bool.eq_false_iff.mpr hhit
      rw [readerStep_keep hkeep] at hstep
      cases hstep
      exact .keep row rows hkeep
  | keeping row rows =>
    cases hstep
    exact .push row rows
  | returning result =>
    cases hstep
    exact .quiet rfl rfl rfl rfl rfl

/-- What has been added for rows that are no longer pending. -/
def settledSize (shared : Shared) : ℕ :=
  pushedSize shared.search.pushed + (shared.rejected.map rowSize).sum

/-- The header and all that has been added. -/
def addedSize (s : LimitedRun) : ℕ := 24 + settledSize s.shared + total pendingSize s.readers

theorem ReaderMove.added {env : SearchEnv} {shared shared' : Shared} {standing standing' : Reader}
    (move : ReaderMove env shared standing standing' shared') :
    shared'.search.matchPacketSize =
        shared.search.matchPacketSize + BitVec.ofNat 64 (addition env standing) ∧
      settledSize shared' + pendingSize standing' =
        settledSize shared + pendingSize standing + addition env standing := by
  cases move with
  | quiet hpending hpending' haddition hsearch hrejected =>
    rw [haddition, hpending, hpending', settledSize, settledSize, hsearch, hrejected]
    exact ⟨(BitVec.add_zero _).symm, rfl⟩
  | add row rows hcounts =>
    rw [addition, if_neg (Bool.eq_false_iff.mp hcounts)]
    exact ⟨rfl, rfl⟩
  | reject row rows hhit =>
    refine ⟨(BitVec.add_zero _).symm, ?_⟩
    simp only [settledSize, pendingSize, addition, List.map_append, List.sum_append,
      List.map_singleton, List.sum_singleton]
    omega
  | keep row rows hkeep => exact ⟨(BitVec.add_zero _).symm, rfl⟩
  | push row rows =>
    refine ⟨(BitVec.add_zero _).symm, ?_⟩
    simp only [settledSize, pendingSize, addition, SearchState.push, pushedSize_append, rowSize]
    omega

/-- A pop leaves every row where it is. -/
theorem pendingSize_afterPop (file : Option (List Row)) : pendingSize (afterPop file) = 0 := by
  cases file with
  | none => rfl
  | some rows => rfl

/-- The counter is what has been added, up to wrapping. -/
def Counted (s : LimitedRun) : Prop :=
  s.shared.search.matchPacketSize = BitVec.ofNat 64 (addedSize s)

theorem addedSize_start (threads : ℕ) : addedSize (.start threads) = 24 := by
  have hreaders : total pendingSize (List.replicate threads .waiting) = 0 :=
    total_eq_zero fun reader hreader ↦ by
      rw [List.eq_of_mem_replicate hreader, pendingSize_waiting]
  rw [addedSize, LimitedRun.start, hreaders]
  rfl

/-- A reader that moves adds to the counter what it adds to the sum. -/
theorem addedSize_place {env : SearchEnv} {s : LimitedRun} {reader : ℕ}
    {standing standing' : Reader} {shared : Shared} (hreader : s.readers[reader]? = some standing)
    (hstep : readerStep env s.shared standing = some (standing', shared)) :
    addedSize (s.place reader standing' shared) = addedSize s + addition env standing := by
  have hset := total_set pendingSize hreader standing'
  have hsettled := (readerMove_of_readerStep hstep).added.2
  simp only [addedSize, LimitedRun.place]
  omega

theorem addedSize_pop {s : LimitedRun} {reader : ℕ} (hreader : s.readers[reader]? = some .waiting)
    (file : Option (List Row)) :
    addedSize (s.place reader (afterPop file) s.shared) = addedSize s := by
  have hset := total_set pendingSize hreader (afterPop file)
  rw [pendingSize_afterPop, pendingSize_waiting] at hset
  simp only [addedSize, LimitedRun.place]
  omega

theorem Counted.step {env : SearchEnv} {s next : LimitedRun} {event : LimitEvent} (h : Counted s)
    (htaken : limitStep env s event = some next) : Counted next := by
  rcases limitStep_cases htaken with ⟨reader, file, -, hreader, rfl⟩ |
    ⟨reader, standing, standing', shared, -, hreader, hstep, rfl⟩ | ⟨-, -, rfl⟩
  · rw [Counted, addedSize_pop hreader]
    exact h
  · rw [Counted, addedSize_place hreader hstep, BitVec.ofNat_add, ← h]
    exact (readerMove_of_readerStep hstep).added.1
  · exact h

theorem counted_of_run {env : SearchEnv} {allowed : LimitedRun → LimitEvent → Prop} {threads : ℕ}
    {s : LimitedRun} (run : Run (limitStep env) allowed (.start threads) s) : Counted s := by
  refine run.invariant ?_ fun state event next h _ htaken ↦ h.step htaken
  rw [Counted, addedSize_start]
  rfl

/-! ### The limit -/

/-- The addition that a step makes does not wrap round. -/
def Fits (env : SearchEnv) (s : LimitedRun) : LimitEvent → Prop
  | .move reader =>
    ∀ standing ∈ s.readers[reader]?,
      s.shared.search.matchPacketSize.toNat + addition env standing < 2 ^ 64
  | _ => True

/-- What has been added fits the counter. -/
def Unwrapped (s : LimitedRun) : Prop := addedSize s < 2 ^ 64

/-- Without wrapping the counter is what has been added. -/
theorem Counted.toNat_eq {s : LimitedRun} (h : Counted s) (hunwrapped : Unwrapped s) :
    s.shared.search.matchPacketSize.toNat = addedSize s := by
  rw [h, BitVec.toNat_ofNat, Nat.mod_eq_of_lt hunwrapped]

theorem unwrapped_of_run {env : SearchEnv} {threads : ℕ} {s : LimitedRun}
    (run : Run (limitStep env) (Fits env) (.start threads) s) : Unwrapped s := by
  refine run.invariant_of (fun state run ↦ counted_of_run run) ?_
    fun state event next hcounted h hfits htaken ↦ ?_
  · rw [Unwrapped, addedSize_start]
    decide
  · rcases limitStep_cases htaken with ⟨reader, file, -, hreader, rfl⟩ |
      ⟨reader, standing, standing', shared, rfl, hreader, hstep, rfl⟩ | ⟨-, -, rfl⟩
    · rw [Unwrapped, addedSize_pop hreader]
      exact h
    · have hadded := hfits standing hreader
      rw [hcounted.toNat_eq h] at hadded
      rw [Unwrapped, addedSize_place hreader hstep]
      exact hadded
    · exact h

/-- What has been pushed and what is about to be. -/
def promisedSize (s : LimitedRun) : ℕ :=
  pushedSize s.shared.search.pushed + total keptSize s.readers

/-- Only a comparison that keeps a row promises more. -/
theorem ReaderMove.promised {env : SearchEnv} {shared shared' : Shared}
    {standing standing' : Reader} (move : ReaderMove env shared standing standing' shared') :
    pushedSize shared'.search.pushed + keptSize standing' =
        pushedSize shared.search.pushed + keptSize standing ∨
      ∃ row rows, standing = .comparing row rows ∧ standing' = .keeping row rows ∧
        shared' = shared ∧ hitsLimit env shared.search.matchPacketSize = false := by
  cases move with
  | quiet hpending hpending' haddition hsearch hrejected =>
    have hkept := (keptSize_le standing).trans_eq hpending
    have hkept' := (keptSize_le standing').trans_eq hpending'
    left
    rw [hsearch]
    omega
  | add row rows hcounts => exact Or.inl rfl
  | reject row rows hhit => exact Or.inl rfl
  | keep row rows hkeep => exact Or.inr ⟨row, rows, rfl, rfl, rfl, hkeep⟩
  | push row rows =>
    left
    simp only [keptSize, SearchState.push, pushedSize_append, rowSize]
    omega

/-- Nothing has been promised, or all of it is within the limit. -/
def Within (env : SearchEnv) (s : LimitedRun) : Prop :=
  promisedSize s = 0 ∨ 24 + promisedSize s ≤ env.taskInfo.limit.toNat

theorem Within.step {env : SearchEnv} {s next : LimitedRun} {event : LimitEvent}
    (hlimit : env.taskInfo.limit ≠ 0) (hmatches : env.enableTotalMatches = 0)
    (hcounted : Counted s) (hunwrapped : Unwrapped s) (h : Within env s)
    (htaken : limitStep env s event = some next) : Within env next := by
  rcases limitStep_cases htaken with ⟨reader, file, -, hreader, rfl⟩ |
    ⟨reader, standing, standing', shared, -, hreader, hstep, rfl⟩ | ⟨-, -, rfl⟩
  · have hset := total_set keptSize hreader (afterPop file)
    have hpop := (keptSize_le (afterPop file)).trans_eq (pendingSize_afterPop file)
    rw [keptSize_waiting] at hset
    have hsame : promisedSize (s.place reader (afterPop file) s.shared) = promisedSize s := by
      simp only [promisedSize, LimitedRun.place]
      omega
    rw [Within, hsame]
    exact h
  · have hset := total_set keptSize hreader standing'
    rcases (readerMove_of_readerStep hstep).promised with heq | ⟨row, rows, rfl, rfl, rfl, hkeep⟩
    · have hsame : promisedSize (s.place reader standing' shared) = promisedSize s := by
        simp only [promisedSize, LimitedRun.place]
        omega
      rw [Within, hsame]
      exact h
    · -- the counter that was compared counts all that has been promised
      right
      have hle : s.shared.search.matchPacketSize ≤ env.taskInfo.limit := by
        rw [hitsLimit, decide_eq_false_iff_not] at hkeep
        by_contra hgt
        exact hkeep ⟨hlimit.symm, BitVec.not_le.mp hgt, hmatches.symm⟩
      have hcounter : addedSize s ≤ env.taskInfo.limit.toNat := by
        have hnat := BitVec.le_def.mp hle
        rwa [hcounted.toNat_eq hunwrapped] at hnat
      have hpending := total_set pendingSize hreader (.keeping row rows)
      have hkept : total keptSize (s.readers.set reader (.keeping row rows)) ≤
          total pendingSize (s.readers.set reader (.keeping row rows)) :=
        total_le_total fun standing _ ↦ keptSize_le standing
      simp only [promisedSize, LimitedRun.place, addedSize, settledSize, pendingSize] at *
      omega
  · exact h

/-- Assumes: a limit, which is enforced, and a run in which no addition to the counter wraps round.
As soon as a row has been pushed, the pcap file with all rows pushed is within the limit. -/
theorem pushed_le_limit {env : SearchEnv} {threads : ℕ} {s : LimitedRun}
    (hlimit : env.taskInfo.limit ≠ 0) (hmatches : env.enableTotalMatches = 0)
    (run : Run (limitStep env) (Fits env) (.start threads) s)
    (hpushed : s.shared.search.pushed ≠ []) :
    24 + pushedSize s.shared.search.pushed ≤ env.taskInfo.limit.toNat := by
  have hknown : ∀ state, Run (limitStep env) (Fits env) (.start threads) state →
      Counted state ∧ Unwrapped state :=
    fun state run ↦ ⟨counted_of_run run, unwrapped_of_run run⟩
  have hwithin : Within env s := by
    refine run.invariant_of hknown ?_ fun state event next hknown h _ htaken ↦
      h.step hlimit hmatches hknown.1 hknown.2 htaken
    left
    rw [promisedSize, LimitedRun.start, total_eq_zero fun reader hreader ↦ by
      rw [List.eq_of_mem_replicate hreader, keptSize_waiting]]
    rfl
  have hpos := pushedSize_pos hpushed
  rw [Within, promisedSize] at hwithin
  omega

/-! ### Runs of a sample -/

instance (env : SearchEnv) (s : LimitedRun) (event : LimitEvent) : Decidable (Fits env s event) :=
  match event with
  | .pop _ _ => inferInstanceAs (Decidable True)
  | .move reader =>
    inferInstanceAs (Decidable (∀ standing ∈ s.readers[reader]?,
      s.shared.search.matchPacketSize.toNat + addition env standing < 2 ^ 64))
  | .join => inferInstanceAs (Decidable True)

/-- A search for all packets with an enforced limit. -/
def sampleEnv (limit : BitVec 64) : SearchEnv := ⟨0, 0, { taskInfo with limit := limit }, 0⟩

/-- A row with some payload. -/
def sampleRow (bytes : List (BitVec 8)) : Row
  | .time => (0 : BitVec 64)
  | .sip => (0 : BitVec 32)
  | .dip => (0 : BitVec 32)
  | .sport => (0 : BitVec 32)
  | .dport => (0 : BitVec 32)
  | .proto => (0 : BitVec 32)
  | .payload => bytes

/-- One reader with one file of two rows, of which the limit admits the first. -/
def sampleEvents : List LimitEvent :=
  [.pop 0 (some [sampleRow [1], sampleRow [2]]), .move 0, .move 0, .move 0, .move 0, .move 0,
    .move 0, .move 0, .pop 0 none, .join]

theorem pushed_le_limit_sample : ∃ s,
    execute (limitStep (sampleEnv 50)) (Fits (sampleEnv 50)) (.start 1) sampleEvents = some s ∧
      24 + pushedSize s.shared.search.pushed ≤ 50 := by
  obtain ⟨s, hexecute⟩ := Option.isSome_iff_exists.mp (show (execute (limitStep (sampleEnv 50))
    (Fits (sampleEnv 50)) (.start 1) sampleEvents).isSome by rfl)
  refine ⟨s, hexecute, pushed_le_limit (by decide) rfl (run_of_execute hexecute) ?_⟩
  cases hexecute
  exact List.cons_ne_nil _ _

/-! ### Wrapping round -/

/-- Two readers that wait, with a counter, and only rejected rows before. -/
def bothWaiting (matchPacketSize : BitVec 64) (rejected : List Row) : LimitedRun :=
  { readers := [.waiting, .waiting]
    shared := ⟨true, ⟨matchPacketSize, []⟩, rejected⟩
    fileSize := none }

/-- The counter with a row added. -/
def withRow (matchPacketSize : BitVec 64) (row : Row) : BitVec 64 :=
  matchPacketSize + BitVec.ofNat 64 (rowSize row)

section Wrapping

variable {limit matchPacketSize : BitVec 64} {row : Row} {rejected : List Row}

/-- One reader is in front of the comparison for the row of its file, the other at the end of a file
without rows. -/
def comparingState (matchPacketSize : BitVec 64) (row : Row) (rejected : List Row) : LimitedRun :=
  { readers := [.comparing row [], .reading []]
    shared := ⟨true, ⟨withRow matchPacketSize row, []⟩, rejected⟩
    fileSize := none }

theorem reachable_comparing (limit matchPacketSize : BitVec 64) (row : Row) (rejected : List Row) :
    Reachable (limitStep (sampleEnv limit)) (bothWaiting matchPacketSize rejected)
      (comparingState matchPacketSize row rejected) := by
  have hevents : execute (limitStep (sampleEnv limit)) anyEvent
      (bothWaiting matchPacketSize rejected)
      [.pop 0 (some [row]), .pop 1 (some []), .move 0, .move 1, .move 0] =
        some (comparingState matchPacketSize row rejected) := rfl
  exact run_of_execute hevents

/-- The reader that compares moves on. -/
theorem reachable_compared {standing : Reader} {shared : Shared}
    (hstep : readerStep (sampleEnv limit) (comparingState matchPacketSize row rejected).shared
      (.comparing row []) = some (standing, shared)) :
    Reachable (limitStep (sampleEnv limit)) (bothWaiting matchPacketSize rejected)
      ⟨[standing, .reading []], shared, none⟩ := by
  have htaken : limitStep (sampleEnv limit) (comparingState matchPacketSize row rejected)
      (.move 0) = some ⟨[standing, .reading []], shared, none⟩ := by
    have hreader : (comparingState matchPacketSize row rejected).readers[0]? =
        some (.comparing row []) := rfl
    simp only [limitStep, hreader, hstep, Option.map_some]
    rfl
  exact (reachable_comparing limit matchPacketSize row rejected).tail (.move 0) trivial htaken

/-- A rejected row stays in the counter, and the file without rows lets the search go on. -/
theorem reachable_rejected
    (hhit : hitsLimit (sampleEnv limit) (withRow matchPacketSize row) = true) :
    Reachable (limitStep (sampleEnv limit)) (bothWaiting matchPacketSize rejected)
      (bothWaiting (withRow matchPacketSize row) (rejected ++ [row])) := by
  have hrest : execute (limitStep (sampleEnv limit)) anyEvent
      ⟨[.returning false, .reading []],
        ⟨true, ⟨withRow matchPacketSize row, []⟩, rejected ++ [row]⟩, none⟩
      [.move 0, .move 1, .move 1] =
        some (bothWaiting (withRow matchPacketSize row) (rejected ++ [row])) := rfl
  exact (reachable_compared (readerStep_reject hhit [])).trans (run_of_execute hrest)

/-- A row that the comparison keeps is pushed. -/
theorem reachable_pushed
    (hkeep : hitsLimit (sampleEnv limit) (withRow matchPacketSize row) = false) :
    ∃ s, Reachable (limitStep (sampleEnv limit)) (bothWaiting matchPacketSize rejected) s ∧
      s.shared.search.pushed = [payload (row .time) (row .payload)] := by
  have hrest : execute (limitStep (sampleEnv limit)) anyEvent
      ⟨[.keeping row [], .reading []], (comparingState matchPacketSize row rejected).shared, none⟩
      [.move 0] = some
        ⟨[.reading [], .reading []],
          ⟨true, SearchState.push ⟨withRow matchPacketSize row, []⟩ row, rejected⟩, none⟩ := rfl
  exact ⟨_, (reachable_compared (readerStep_keep hkeep [])).trans (run_of_execute hrest), rfl⟩

/-- A row is rejected once for every file that it is in. -/
theorem reachable_rounds (rounds : ℕ)
    (hhit : ∀ round < rounds, hitsLimit (sampleEnv limit)
      (BitVec.ofNat 64 (24 + (round + 1) * rowSize row)) = true) :
    Reachable (limitStep (sampleEnv limit)) (.start 2)
      (bothWaiting (BitVec.ofNat 64 (24 + rounds * rowSize row)) (List.replicate rounds row)) := by
  induction rounds with
  | zero =>
    rw [Nat.zero_mul, Nat.add_zero]
    exact .refl
  | succ rounds ih =>
    have hsum : withRow (BitVec.ofNat 64 (24 + rounds * rowSize row)) row =
        BitVec.ofNat 64 (24 + (rounds + 1) * rowSize row) := by
      rw [withRow, ← BitVec.ofNat_add, Nat.add_mul, Nat.one_mul, Nat.add_assoc]
    have hreach := ih fun round hround ↦ hhit round (Nat.lt_succ_of_lt hround)
    have hround := hhit rounds (Nat.lt_succ_self rounds)
    rw [← hsum] at hround
    rw [← hsum, List.replicate_succ']
    exact hreach.trans (reachable_rejected hround)

end Wrapping

theorem hitsLimit_ofNat {limit : BitVec 64} (hlimit : limit ≠ 0) {added : ℕ}
    (hadded : limit.toNat < added) (hlt : added < 2 ^ 64) :
    hitsLimit (sampleEnv limit) (BitVec.ofNat 64 added) = true := by
  rw [hitsLimit, decide_eq_true_eq]
  refine ⟨hlimit.symm, ?_, rfl⟩
  rw [BitVec.lt_def, BitVec.toNat_ofNat, Nat.mod_eq_of_lt hlt]
  exact hadded

/-- Under a limit of thirty bytes a row of a gibibyte is rejected from 2³⁴ - 1 files, and pushed
from the next, as the counter has wrapped round to the header. -/
theorem exists_exceeding {row : Row} (hsize : rowSize row = 2 ^ 30) :
    ∃ s, Reachable (limitStep (sampleEnv 30)) (.start 2) s ∧ s.shared.search.pushed ≠ [] ∧
      pushedSize s.shared.search.pushed = 2 ^ 30 := by
  obtain ⟨rounds, hlast⟩ : ∃ rounds, rounds + 1 = 2 ^ 34 := ⟨2 ^ 34 - 1, by norm_num⟩
  have hrounds : Reachable (limitStep (sampleEnv 30)) (.start 2)
      (bothWaiting (BitVec.ofNat 64 (24 + rounds * rowSize row)) (List.replicate rounds row)) := by
    refine reachable_rounds rounds fun round hround ↦ hitsLimit_ofNat (by decide) ?_ ?_
    · rw [hsize]
      show 30 < _
      omega
    · rw [hsize]
      omega
  have hkeep : hitsLimit (sampleEnv 30)
      (withRow (BitVec.ofNat 64 (24 + rounds * rowSize row)) row) = false := by
    have hwrapped : withRow (BitVec.ofNat 64 (24 + rounds * rowSize row)) row = 24 := by
      rw [withRow, ← BitVec.ofNat_add, Nat.add_assoc, ← Nat.succ_mul, Nat.succ_eq_add_one, hlast,
        hsize]
      decide
    rw [hwrapped]
    rfl
  obtain ⟨s, hpush, hpushed⟩ := reachable_pushed hkeep
  refine ⟨s, hrounds.trans hpush, ?_, ?_⟩
  · rw [hpushed]
    exact List.cons_ne_nil _ _
  · rw [hpushed, pushedSize, List.map_singleton, List.sum_singleton, payloadSize_payload, ← hsize]
    rfl

theorem rowSize_replicate (length : ℕ) (byte : BitVec 8) :
    rowSize (sampleRow (List.replicate length byte)) = length + 16 :=
  congrArg (· + 16) List.length_replicate

/-- With rows of a gibibyte the counter wraps round, and the pcap file exceeds the limit. -/
theorem not_pushed_le_limit : (sampleEnv 30).taskInfo.limit ≠ 0 ∧
    (sampleEnv 30).enableTotalMatches = 0 ∧
    ∃ s, Reachable (limitStep (sampleEnv 30)) (.start 2) s ∧ s.shared.search.pushed ≠ [] ∧
      ¬ 24 + pushedSize s.shared.search.pushed ≤ (sampleEnv 30).taskInfo.limit.toNat := by
  obtain ⟨s, hrun, hpushed, hsize⟩ := exists_exceeding (rowSize_replicate (2 ^ 30 - 16) 0)
  refine ⟨by decide, rfl, s, hrun, hpushed, ?_⟩
  rw [hsize]
  show ¬ 24 + 2 ^ 30 ≤ 30
  omega

/-! ### The size that is reported -/

/-- A reader is about to reject its row. -/
def rejects (env : SearchEnv) (shared : Shared) : Reader → Bool
  | .comparing _ _ => hitsLimit env shared.search.matchPacketSize
  | _ => false

/-- The comparison that a step makes keeps the row. -/
def Keeps (env : SearchEnv) (s : LimitedRun) : LimitEvent → Prop
  | .move reader => ∀ standing ∈ s.readers[reader]?, rejects env s.shared standing = false
  | _ => True

instance (env : SearchEnv) (s : LimitedRun) (event : LimitEvent) : Decidable (Keeps env s event) :=
  match event with
  | .pop _ _ => inferInstanceAs (Decidable True)
  | .move reader =>
    inferInstanceAs
      (Decidable (∀ standing ∈ s.readers[reader]?, rejects env s.shared standing = false))
  | .join => inferInstanceAs (Decidable True)

/-- No comparison has rejected a row. -/
def NothingRejected (s : LimitedRun) : Prop := s.shared.rejected = []

theorem ReaderMove.rejected {env : SearchEnv} {shared shared' : Shared}
    {standing standing' : Reader} (move : ReaderMove env shared standing standing' shared')
    (hkeeps : rejects env shared standing = false) : shared'.rejected = shared.rejected := by
  cases move with
  | quiet hpending hpending' haddition hsearch hrejected => exact hrejected
  | reject row rows hhit => cases hhit.symm.trans hkeeps
  | _ => rfl

/-- Once the size is stored, all readers are past their loops, and it is the counter. -/
def Stored (s : LimitedRun) : Prop :=
  ∀ size, s.fileSize = some size →
    s.readers.all Reader.isFinished = true ∧ s.shared.search.matchPacketSize = size

theorem finished_of_all {readers : List Reader} (hall : readers.all Reader.isFinished = true)
    {reader : ℕ} {standing : Reader} (hreader : readers[reader]? = some standing) :
    standing = .finished := by
  have hfinished := List.all_eq_true.mp hall standing (List.mem_of_getElem? hreader)
  cases standing with
  | finished => rfl
  | _ => cases hfinished

theorem Stored.step {env : SearchEnv} {s next : LimitedRun} {event : LimitEvent} (h : Stored s)
    (htaken : limitStep env s event = some next) : Stored next := by
  intro size hsize
  rcases limitStep_cases htaken with ⟨reader, file, -, hreader, rfl⟩ |
    ⟨reader, standing, standing', shared, -, hreader, hstep, rfl⟩ | ⟨-, hall, rfl⟩
  · cases finished_of_all (h size hsize).1 hreader
  · obtain rfl := finished_of_all (h size hsize).1 hreader
    cases hstep
  · exact ⟨hall, Option.some.inj hsize⟩

theorem stored_of_run {env : SearchEnv} {allowed : LimitedRun → LimitEvent → Prop} {threads : ℕ}
    {s : LimitedRun} (run : Run (limitStep env) allowed (.start threads) s) : Stored s := by
  refine run.invariant ?_ fun state event next h _ htaken ↦ h.step htaken
  intro size hsize
  cases hsize

theorem addedSize_of_all {s : LimitedRun} (hall : s.readers.all Reader.isFinished = true) :
    addedSize s =
      24 + pushedSize s.shared.search.pushed + (s.shared.rejected.map rowSize).sum := by
  have hpending : total pendingSize s.readers = 0 := by
    refine total_eq_zero fun standing hstanding ↦ ?_
    obtain ⟨reader, hreader⟩ := List.mem_iff_getElem?.mp hstanding
    rw [finished_of_all hall hreader]
    rfl
  rw [addedSize, settledSize, hpending, Nat.add_zero, Nat.add_assoc]

/-- The size that is stored counts every row that was pushed or rejected. -/
theorem fileSize_eq {env : SearchEnv} {allowed : LimitedRun → LimitEvent → Prop} {threads : ℕ}
    {s : LimitedRun} (run : Run (limitStep env) allowed (.start threads) s) {size : BitVec 64}
    (hsize : s.fileSize = some size) :
    size = BitVec.ofNat 64
      (24 + pushedSize s.shared.search.pushed + (s.shared.rejected.map rowSize).sum) := by
  obtain ⟨hall, hcounter⟩ := stored_of_run run size hsize
  rw [← hcounter, counted_of_run run, addedSize_of_all hall]

/-- The size in the task is that of the pcap file, in whatever order the payloads are written. -/
def Reported (s : LimitedRun) (size : BitVec 64) : Prop :=
  size = BitVec.ofNat 64 (24 + pushedSize s.shared.search.pushed) ∧
    ∀ (order : List Payload) (records : List PcapRecord), order.Perm s.shared.search.pushed →
      order.mapM pcapRecord = some records → size = BitVec.ofNat 64 (pcapFileSize records)

/-- Assumes: a run in which no addition wraps round. With a rejected row the size that is stored is
not the size of the pcap file. -/
theorem not_reported_of_rejected {env : SearchEnv} {threads : ℕ} {s : LimitedRun}
    {size : BitVec 64} (run : Run (limitStep env) (Fits env) (.start threads) s)
    (hsize : s.fileSize = some size) (hrejected : s.shared.rejected ≠ []) : ¬ Reported s size := by
  intro hreported
  have hunwrapped := unwrapped_of_run run
  rw [Unwrapped, addedSize_of_all (stored_of_run run size hsize).1] at hunwrapped
  have hnat := congrArg BitVec.toNat ((fileSize_eq run hsize).symm.trans hreported.1)
  rw [BitVec.toNat_ofNat, BitVec.toNat_ofNat, Nat.mod_eq_of_lt hunwrapped,
    Nat.mod_eq_of_lt (by omega)] at hnat
  obtain ⟨row, rows, hrows⟩ := List.exists_cons_of_ne_nil hrejected
  rw [hrows, List.map_cons, List.sum_cons, rowSize] at hnat
  omega

/-- Assumes: a run in which every comparison keeps its row. The size that `do_search` stores is the
size of the pcap file. -/
theorem reported_of_kept {env : SearchEnv} {threads : ℕ} {s : LimitedRun} {size : BitVec 64}
    (run : Run (limitStep env) (Keeps env) (.start threads) s) (hsize : s.fileSize = some size) :
    Reported s size := by
  have hrejected : NothingRejected s := by
    refine run.invariant rfl fun state event next h hkeeps htaken ↦ ?_
    rcases limitStep_cases htaken with ⟨reader, file, -, -, rfl⟩ |
      ⟨reader, standing, standing', shared, rfl, hreader, hstep, rfl⟩ | ⟨-, -, rfl⟩
    · exact h
    · exact ((readerMove_of_readerStep hstep).rejected (hkeeps standing hreader)).trans h
    · exact h
  have hwritten : size = BitVec.ofNat 64 (24 + pushedSize s.shared.search.pushed) := by
    rw [fileSize_eq run hsize, hrejected]
    rfl
  refine ⟨hwritten, fun order records horder hrecords ↦ ?_⟩
  rw [pcapFileSize_eq horder hrecords]
  exact hwritten

/-- One reader with one file of one row. -/
def keptEvents : List LimitEvent :=
  [.pop 0 (some [sampleRow [1]]), .move 0, .move 0, .move 0, .move 0, .move 0, .move 0,
    .pop 0 none, .join]

theorem reported_of_kept_sample : ∃ s,
    execute (limitStep (sampleEnv 50)) (Keeps (sampleEnv 50)) (.start 1) keptEvents = some s ∧
      Reported s 41 := by
  obtain ⟨s, hexecute⟩ := Option.isSome_iff_exists.mp (show (execute (limitStep (sampleEnv 50))
    (Keeps (sampleEnv 50)) (.start 1) keptEvents).isSome by rfl)
  refine ⟨s, hexecute, reported_of_kept (run_of_execute hexecute) ?_⟩
  cases hexecute
  rfl

/-- With a second row, which the limit rejects, the size is that of both rows. -/
theorem not_reported_sample : ∃ s, Reachable (limitStep (sampleEnv 50)) (.start 1) s ∧
    s.fileSize = some 58 ∧ pushedSize s.shared.search.pushed = 17 ∧ ¬ Reported s 58 := by
  obtain ⟨s, hexecute⟩ := Option.isSome_iff_exists.mp (show (execute (limitStep (sampleEnv 50))
    anyEvent (.start 1) sampleEvents).isSome by rfl)
  have hsize : s.fileSize = some 58 ∧ pushedSize s.shared.search.pushed = 17 := by
    cases hexecute
    exact ⟨rfl, rfl⟩
  refine ⟨s, run_of_execute hexecute, hsize.1, hsize.2, fun hreported ↦ ?_⟩
  have heq := hreported.1
  rw [hsize.2] at heq
  exact absurd heq (by decide)

end CppLearn.SearchEngine.LimitedSearch
