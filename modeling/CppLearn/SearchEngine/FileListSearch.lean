import CppLearn.Foundation.GuardedRun
import CppLearn.Foundation.ThreadTable
import CppLearn.SearchEngine.HdfsParquetReader

/-!
# The search phase: one scanner, several readers

`do_search` starts one thread that scans the store and a number of threads that read the files it
finds. They meet on the file-list ring, and the search is over when all of them have been joined.
`searchStep` interleaves their steps: a visit or a push of the scanner, and the pop, the test of the
flag and the read of each reader.

The scanner ends with one trailing entry, and a reader ends only on that entry. `Marked` counts it:
in the ring, in the hands of a reader or in a reader that has ended, there is one as soon as the
scanner has pushed it. So the phase ends for one reader and gets stuck for more
(`searchEnds_iff`).
-/

set_option autoImplicit false
set_option relaxedAutoImplicit false

namespace CppLearn.SearchEngine.FileListSearch

open Foundation.DecimalText Foundation.GuardedRun Foundation.ThreadTable HdfsParquetReader

/-! ### The threads of `do_search` -/

/-- `FL_RING_SIZE`. -/
def flRingSize : ℕ := 20

/-- Where the scanner stands: in the loop over the entries left of a directory and of those above
it, about to push a file, about to push the trailing entry, or past that. -/
inductive Scanner
  | scanning (frames : List (List ScanEntry))
  | pushing (fileName : Text) (frames : List (List ScanEntry))
  | trailing
  | finished

/-- Where a reader stands: in `file_list_ring_pop`, with an entry it has popped, reading a file, or
past its loop. -/
inductive Reader
  | waiting
  | holding (entry : DfsFileName)
  | reading (fileName : Text)
  | finished
  deriving DecidableEq

/-- The threads, the ring and the flag they share, and whether the end-of-stream block has been
pushed. -/
structure SearchRun where
  scanner : Scanner
  ring : List DfsFileName
  readers : List Reader
  continueSearching : Bool
  endPushed : Bool

/-- The start of `do_search` with a number of readers, on the tests of a store or without a root. -/
def SearchRun.start (dfsFileReaderThreadNum : ℕ) (plan : Option (List ScanEntry)) : SearchRun :=
  { scanner :=
      match plan with
      | none => .trailing
      | some entries => .scanning [entries]
    ring := []
    readers := List.replicate dfsFileReaderThreadNum .waiting
    continueSearching := true
    endPushed := false }

/-- One thread moves: the scanner, a reader by its number, or the thread that joins the others. A
read returns whether searching goes on. -/
inductive SearchEvent
  | scan
  | pop (reader : ℕ)
  | test (reader : ℕ)
  | readDone (reader : ℕ) (result : Bool)
  | join

/-- The scanner past its trailing entry. -/
def Scanner.isFinished : Scanner → Bool
  | .finished => true
  | _ => false

/-- The visit of an entry: a search that was called off leaves the loop over its directory. -/
def visit (continueSearching : Bool) (entry : ScanEntry) (rest : List ScanEntry)
    (frames : List (List ScanEntry)) : Scanner :=
  if continueSearching then
    match entry with
    | .passedOver => .scanning (rest :: frames)
    | .file fileName => .pushing fileName (rest :: frames)
    | .directory contents => .scanning (contents :: rest :: frames)
  else .scanning frames

/-- A step of the scanner. A push waits while the ring is full. -/
def scanStep (s : SearchRun) : Option SearchRun :=
  match s.scanner with
  | .scanning [] => some { s with scanner := .trailing }
  | .scanning ([] :: frames) => some { s with scanner := .scanning frames }
  | .scanning ((entry :: rest) :: frames) =>
    some { s with scanner := visit s.continueSearching entry rest frames }
  | .pushing fileName frames =>
    if s.ring.length < flRingSize then
      some { s with scanner := .scanning frames, ring := s.ring ++ [⟨fileName, 0⟩] }
    else none
  | .trailing =>
    if s.ring.length < flRingSize then
      some { s with scanner := .finished, ring := s.ring ++ [trailingEntry] }
    else none
  | .finished => none

/-- What a reader does with an entry it has popped. -/
def afterTest (continueSearching : Bool) (entry : DfsFileName) : Reader :=
  if entry.flag = 1 then .finished
  else if continueSearching then .reading entry.fileName else .waiting

/-- One step of one thread. A pop waits while the ring is empty. -/
def searchStep (s : SearchRun) : SearchEvent → Option SearchRun
  | .scan => scanStep s
  | .pop reader =>
    match s.readers[reader]?, s.ring with
    | some .waiting, entry :: ring =>
      some { s with ring := ring, readers := s.readers.set reader (.holding entry) }
    | _, _ => none
  | .test reader =>
    match s.readers[reader]? with
    | some (.holding entry) =>
      some { s with readers := s.readers.set reader (afterTest s.continueSearching entry) }
    | _ => none
  | .readDone reader result =>
    match s.readers[reader]? with
    | some (.reading _) =>
      some { s with continueSearching := result, readers := s.readers.set reader .waiting }
    | _ => none
  | .join =>
    if s.scanner.isFinished ∧ ∀ reader ∈ s.readers, reader = .finished then
      some { s with endPushed := true }
    else none

/-- The scanner has finished, the ring is empty, and a reader waits for an entry. -/
def Stuck (s : SearchRun) : Prop :=
  s.scanner.isFinished = true ∧ s.ring = [] ∧ .waiting ∈ s.readers

/-- No state the threads can reach is stuck, and from each the end-of-stream block can still be
pushed. -/
def SearchEnds (dfsFileReaderThreadNum : ℕ) (plan : Option (List ScanEntry)) : Prop :=
  ∀ s, Reachable searchStep (.start dfsFileReaderThreadNum plan) s →
    ¬ Stuck s ∧ ∃ finish, Reachable searchStep s finish ∧ finish.endPushed = true

/-! ### The count of the trailing entry -/

/-- The weight of a reader in `Marked`: one if it holds the trailing entry or has ended on it. -/
def ended : Reader → ℕ
  | .waiting => 0
  | .holding entry => if entry.flag = 1 then 1 else 0
  | .reading _ => 0
  | .finished => 1

theorem total_ended_of_finished {readers : List Reader}
    (hfinished : ∀ reader ∈ readers, reader = .finished) : total ended readers = readers.length := by
  induction readers with
  | nil => rfl
  | cons reader readers ih =>
    have hreader : reader = .finished := hfinished reader (List.mem_cons_self ..)
    have hreaders := ih fun other hother ↦ hfinished other (List.mem_cons_of_mem _ hother)
    simp only [total, List.map_cons, List.sum_cons, List.length_cons] at hreaders ⊢
    rw [hreader, hreaders, ended, Nat.add_comm]

/-- The trailing entries in the ring. -/
def markers (ring : List DfsFileName) : ℕ := ring.countP fun entry ↦ entry.flag = 1

/-- As soon as it has been pushed there is one trailing entry: in the ring, at its end, or with one
reader. The number of readers does not change. -/
structure Marked (threadNum : ℕ) (s : SearchRun) : Prop where
  count : markers s.ring + total ended s.readers = if s.scanner.isFinished then 1 else 0
  last : s.scanner.isFinished = true → ∀ entry ∈ s.ring.getLast?, entry.flag = 1
  length : s.readers.length = threadNum

theorem Marked.start (threadNum : ℕ) (plan : Option (List ScanEntry)) :
    Marked threadNum (.start threadNum plan) where
  count := by
    have hreaders : total ended (List.replicate threadNum .waiting) = 0 := by
      rw [total, List.map_replicate, ended, List.sum_replicate_nat, Nat.mul_zero]
    rcases plan with _ | entries
    · simpa [SearchRun.start, markers, Scanner.isFinished] using hreaders
    · simpa [SearchRun.start, markers, Scanner.isFinished] using hreaders
  last := by
    intro _ entry hentry
    cases hentry
  length := List.length_replicate

theorem markers_append (ring : List DfsFileName) (entry : DfsFileName) :
    markers (ring ++ [entry]) = markers ring + if entry.flag = 1 then 1 else 0 := by
  rw [markers, List.countP_append, List.countP_singleton, markers]
  simp only [decide_eq_true_eq]

theorem markers_cons (entry : DfsFileName) (ring : List DfsFileName) :
    markers (entry :: ring) = markers ring + if entry.flag = 1 then 1 else 0 := by
  rw [markers, List.countP_cons, markers]
  simp only [decide_eq_true_eq]

theorem isFinished_visit (continueSearching : Bool) (entry : ScanEntry) (rest : List ScanEntry)
    (frames : List (List ScanEntry)) :
    (visit continueSearching entry rest frames).isFinished = false := by
  unfold visit
  cases continueSearching
  · rfl
  · cases entry <;> rfl

theorem ended_afterTest (continueSearching : Bool) (entry : DfsFileName) :
    ended (afterTest continueSearching entry) = ended (.holding entry) := by
  unfold afterTest
  by_cases hflag : entry.flag = 1
  · simp only [hflag, if_true, ended]
  · cases continueSearching <;> simp only [hflag, if_false, if_true, ended, Bool.false_eq_true]

/-- A step of the scanner keeps the count: only the push of the trailing entry ends the scanner. -/
theorem Marked.scanStep {threadNum : ℕ} {s next : SearchRun} (hmarked : Marked threadNum s)
    (htaken : scanStep s = some next) : Marked threadNum next := by
  obtain ⟨hcount, hlast, hlength⟩ := hmarked
  unfold FileListSearch.scanStep at htaken
  split at htaken
  · next hscanner =>
    cases htaken
    rw [hscanner] at hcount
    exact ⟨hcount, by simp [Scanner.isFinished], hlength⟩
  · next hscanner =>
    cases htaken
    rw [hscanner] at hcount
    exact ⟨hcount, by simp [Scanner.isFinished], hlength⟩
  · next entry rest frames hscanner =>
    cases htaken
    rw [hscanner] at hcount
    refine ⟨?_, by simp [isFinished_visit], hlength⟩
    rw [isFinished_visit]
    exact hcount
  · next fileName frames hscanner =>
    split_ifs at htaken with hspace
    cases htaken
    rw [hscanner] at hcount
    refine ⟨?_, by simp [Scanner.isFinished], hlength⟩
    rw [markers_append]
    exact hcount
  · next hscanner =>
    split_ifs at htaken with hspace
    cases htaken
    rw [hscanner] at hcount
    refine ⟨?_, ?_, hlength⟩
    · rw [markers_append]
      simp only [Scanner.isFinished, trailingEntry, if_true, Bool.false_eq_true, if_false]
        at hcount ⊢
      omega
    · intro _ entry hentry
      rw [List.getLast?_append, List.getLast?_singleton, Option.some_or, Option.mem_some_iff]
        at hentry
      rw [← hentry]
      rfl
  · cases htaken

/-- Every step keeps the count. -/
theorem Marked.step {threadNum : ℕ} {s next : SearchRun} (event : SearchEvent)
    (hmarked : Marked threadNum s) (htaken : searchStep s event = some next) :
    Marked threadNum next := by
  obtain ⟨hcount, hlast, hlength⟩ := hmarked
  cases event with
  | scan => exact Marked.scanStep ⟨hcount, hlast, hlength⟩ htaken
  | pop reader =>
    simp only [searchStep] at htaken
    split at htaken
    · next entry ring hreader hring =>
      cases htaken
      have htotal := total_set ended hreader (.holding entry)
      simp only [ended] at htotal
      refine ⟨?_, ?_, by rw [List.length_set]; exact hlength⟩
      · simp only [hring, markers_cons] at hcount
        simp only
        omega
      · intro hfinished other hother
        refine hlast hfinished other ?_
        rw [hring]
        exact List.mem_getLast?_cons hother
    · cases htaken
  | test reader =>
    simp only [searchStep] at htaken
    split at htaken
    · next entry hreader =>
      cases htaken
      have htotal := total_set ended hreader (afterTest s.continueSearching entry)
      rw [ended_afterTest] at htotal
      refine ⟨?_, hlast, by rw [List.length_set]; exact hlength⟩
      simp only
      omega
    · cases htaken
  | readDone reader result =>
    simp only [searchStep] at htaken
    split at htaken
    · next fileName hreader =>
      cases htaken
      have htotal := total_set ended hreader .waiting
      simp only [ended] at htotal
      refine ⟨?_, hlast, by rw [List.length_set]; exact hlength⟩
      simp only
      omega
    · cases htaken
  | join =>
    simp only [searchStep] at htaken
    split_ifs at htaken
    cases htaken
    exact ⟨hcount, hlast, hlength⟩

/-! ### Every phase comes to rest -/

mutual

/-- The visits of an entry and of everything below it. -/
def visitsEntry : ScanEntry → ℕ
  | .passedOver => 1
  | .file _ => 1
  | .directory contents => 1 + visitsList contents

/-- The visits of a list of entries, and the end of the loop over it. -/
def visitsList : List ScanEntry → ℕ
  | [] => 1
  | entry :: entries => visitsEntry entry + visitsList entries

end

/-- The visits left in the directories that a scanner is in. -/
def visits (frames : List (List ScanEntry)) : ℕ := (frames.map visitsList).sum

theorem visits_cons (entries : List ScanEntry) (frames : List (List ScanEntry)) :
    visits (entries :: frames) = visitsList entries + visits frames := by
  rw [visits, List.map_cons, List.sum_cons, visits]

/-- The steps a scanner can still take, each push counted with what a reader does about it. -/
def Scanner.work : Scanner → ℕ
  | .scanning frames => 5 * visits frames + 8
  | .pushing _ frames => 5 * visits frames + 12
  | .trailing => 4
  | .finished => 0

/-- The steps a reader can take before it waits again. -/
def Reader.work : Reader → ℕ
  | .waiting => 0
  | .holding _ => 2
  | .reading _ => 1
  | .finished => 0

/-- A bound on the steps before the threads come to rest. -/
def SearchRun.work (s : SearchRun) : ℕ :=
  s.scanner.work + 3 * s.ring.length + total Reader.work s.readers

/-- Every thread has come to its end or waits on the empty ring. -/
def AtRest (s : SearchRun) : Prop :=
  s.scanner.isFinished = true ∧ s.ring = [] ∧
    ∀ reader ∈ s.readers, reader = .waiting ∨ reader = .finished

theorem work_visit (continueSearching : Bool) (entry : ScanEntry) (rest : List ScanEntry)
    (frames : List (List ScanEntry)) :
    (visit continueSearching entry rest frames).work <
      (Scanner.scanning ((entry :: rest) :: frames)).work := by
  unfold visit
  cases continueSearching
  · have hpositive : 1 ≤ visitsEntry entry := by
      cases entry with
      | passedOver => exact le_rfl
      | file fileName => exact le_rfl
      | directory contents => exact Nat.le_add_right 1 _
    simp only [Bool.false_eq_true, if_false, Scanner.work, visits_cons, visitsList]
    omega
  · cases entry with
    | passedOver =>
      simp only [if_true, Scanner.work, visits_cons, visitsList, visitsEntry]
      omega
    | file fileName =>
      simp only [if_true, Scanner.work, visits_cons, visitsList, visitsEntry]
      omega
    | directory contents =>
      simp only [if_true, Scanner.work, visits_cons, visitsList, visitsEntry]
      omega

/-- A scanner that has not finished can move while the ring is empty. -/
theorem exists_scanStep {s : SearchRun} (hscanner : s.scanner.isFinished = false)
    (hring : s.ring = []) : ∃ next, scanStep s = some next ∧ next.work < s.work := by
  have hspace : s.ring.length < flRingSize := by
    rw [hring]
    decide
  unfold scanStep SearchRun.work
  rcases hphase : s.scanner with frames | ⟨fileName, frames⟩ | _ | _
  · rcases frames with _ | ⟨_ | ⟨entry, rest⟩, frames⟩
    · refine ⟨_, rfl, ?_⟩
      simp only [Scanner.work]
      omega
    · refine ⟨_, rfl, ?_⟩
      simp only [Scanner.work, visits_cons, visitsList]
      omega
    · refine ⟨_, rfl, ?_⟩
      have := work_visit s.continueSearching entry rest frames
      simp only
      omega
  · refine ⟨_, if_pos hspace, ?_⟩
    simp only [Scanner.work, List.length_append, List.length_singleton]
    omega
  · refine ⟨_, if_pos hspace, ?_⟩
    simp only [Scanner.work, List.length_append, List.length_singleton]
    omega
  · rw [hphase] at hscanner
    cases hscanner

/-- A reader that holds an entry or reads a file can move. -/
theorem exists_readerStep {s : SearchRun} {reader : Reader} (hmem : reader ∈ s.readers)
    (hwaiting : reader ≠ .waiting) (hfinished : reader ≠ .finished) :
    ∃ event next, searchStep s event = some next ∧ next.work < s.work := by
  obtain ⟨index, hreader⟩ := List.mem_iff_getElem?.mp hmem
  cases reader with
  | waiting => exact absurd rfl hwaiting
  | holding entry =>
    refine ⟨.test index, _, by simp only [searchStep, hreader]; rfl, ?_⟩
    have htotal := total_set Reader.work hreader (afterTest s.continueSearching entry)
    have htest : (afterTest s.continueSearching entry).work < 2 := by
      unfold afterTest
      split_ifs <;> simp [Reader.work]
    simp only [SearchRun.work] at htotal ⊢
    rw [show Reader.work (.holding entry) = 2 from rfl] at htotal
    omega
  | reading fileName =>
    refine ⟨.readDone index true, _, by simp only [searchStep, hreader]; rfl, ?_⟩
    have htotal := total_set Reader.work hreader .waiting
    simp only [SearchRun.work, Reader.work] at htotal ⊢
    omega
  | finished => exact absurd rfl hfinished

/-- A waiting reader can take the first entry of a ring that is not empty. -/
theorem exists_popStep {s : SearchRun} (hmem : .waiting ∈ s.readers) (hring : s.ring ≠ []) :
    ∃ event next, searchStep s event = some next ∧ next.work < s.work := by
  obtain ⟨index, hreader⟩ := List.mem_iff_getElem?.mp hmem
  rcases hentries : s.ring with _ | ⟨entry, ring⟩
  · exact absurd hentries hring
  · refine ⟨.pop index, _, by simp only [searchStep, hreader, hentries]; rfl, ?_⟩
    have htotal := total_set Reader.work hreader (.holding entry)
    simp only [SearchRun.work, Reader.work, hentries, List.length_cons] at htotal ⊢
    omega

/-- Assumes: at least one reader. As long as the threads are not at rest one of them can move. -/
theorem exists_step_of_not_atRest {threadNum : ℕ} (hthreads : 1 ≤ threadNum) {s : SearchRun}
    (hmarked : Marked threadNum s) (hbusy : ¬ AtRest s) :
    ∃ event next, searchStep s event = some next ∧ next.work < s.work := by
  by_cases hmoving : ∃ reader ∈ s.readers, reader ≠ .waiting ∧ reader ≠ .finished
  · obtain ⟨reader, hmem, hwaiting, hfinished⟩ := hmoving
    exact exists_readerStep hmem hwaiting hfinished
  · have hreaders : ∀ reader ∈ s.readers, reader = .waiting ∨ reader = .finished := by
      intro reader hmem
      by_contra hother
      exact hmoving ⟨reader, hmem, not_or.mp hother⟩
    by_cases hring : s.ring = []
    · have hscanner : s.scanner.isFinished = false := by
        by_contra hscanner
        exact hbusy ⟨Bool.eq_true_of_not_eq_false hscanner, hring, hreaders⟩
      obtain ⟨next, htaken, hlower⟩ := exists_scanStep hscanner hring
      exact ⟨.scan, next, htaken, hlower⟩
    · refine exists_popStep ?_ hring
      by_contra hnone
      -- all readers have ended, so that the trailing entry is not in the ring, where it is last
      have hall : ∀ reader ∈ s.readers, reader = .finished := fun reader hmem ↦
        (hreaders reader hmem).resolve_left fun heq ↦ hnone (heq ▸ hmem)
      have hcount := hmarked.count
      rw [total_ended_of_finished hall, hmarked.length] at hcount
      split_ifs at hcount with hscanner
      · have hentry := List.getLast?_eq_some_getLast hring
        have hpositive : 0 < markers s.ring :=
          List.countP_pos_iff.mpr ⟨s.ring.getLast hring, List.getLast_mem hring,
            decide_eq_true (hmarked.last hscanner _ hentry)⟩
        omega
      · omega

theorem Marked.of_reachable {threadNum : ℕ} {plan : Option (List ScanEntry)} {s : SearchRun}
    (hreachable : Reachable searchStep (.start threadNum plan) s) : Marked threadNum s :=
  hreachable.invariant (.start threadNum plan) fun _ event _ hmarked _ htaken ↦
    hmarked.step event htaken

/-- Assumes: at least one reader. From every state with its trailing entry counted the threads can
come to rest. -/
theorem exists_atRest {threadNum : ℕ} (hthreads : 1 ≤ threadNum) {s : SearchRun}
    (hmarked : Marked threadNum s) :
    ∃ finish, Reachable searchStep s finish ∧ AtRest finish :=
  exists_run_of_measure SearchRun.work
    (fun _ event _ hknown htaken ↦ hknown.step event htaken)
    (fun _ hknown hbusy ↦ exists_step_of_not_atRest hthreads hknown hbusy) s hmarked

/-- At rest exactly one reader has ended on the trailing entry. -/
theorem total_ended_of_atRest {threadNum : ℕ} {s : SearchRun} (hmarked : Marked threadNum s)
    (hrest : AtRest s) : total ended s.readers = 1 := by
  obtain ⟨hscanner, hring, -⟩ := hrest
  have hcount := hmarked.count
  rw [hscanner, hring, if_pos rfl] at hcount
  exact (Nat.zero_add _).symm.trans hcount

/-- With one reader no state is stuck. -/
theorem not_stuck_of_one {s : SearchRun} (hmarked : Marked 1 s) : ¬ Stuck s := by
  rintro ⟨hscanner, hring, hwaiting⟩
  obtain ⟨reader, hreaders⟩ := List.length_eq_one_iff.mp hmarked.length
  rw [hreaders, List.mem_singleton] at hwaiting
  have hcount := hmarked.count
  rw [hscanner, hring, hreaders, ← hwaiting, if_pos rfl] at hcount
  exact absurd hcount (by decide)

/-- With one reader the end-of-stream block can be pushed from every state. -/
theorem exists_endPushed_of_one {s : SearchRun} (hmarked : Marked 1 s) :
    ∃ finish, Reachable searchStep s finish ∧ finish.endPushed = true := by
  obtain ⟨rested, hrun, hrest⟩ := exists_atRest le_rfl hmarked
  have hknown : Marked 1 rested := hrun.invariant hmarked fun _ event _ hknown _ htaken ↦
    hknown.step event htaken
  have hall : ∀ reader ∈ rested.readers, reader = .finished := by
    intro reader hmem
    refine (hrest.2.2 reader hmem).resolve_left fun heq ↦ ?_
    exact not_stuck_of_one hknown ⟨hrest.1, hrest.2.1, heq ▸ hmem⟩
  exact ⟨_, .tail .join hrun trivial (if_pos ⟨hrest.1, hall⟩), rfl⟩

/-- With more than one reader a stuck state can be reached. -/
theorem exists_stuck_of_two_le {threadNum : ℕ} (hthreads : 2 ≤ threadNum)
    (plan : Option (List ScanEntry)) :
    ∃ s, Reachable searchStep (.start threadNum plan) s ∧ Stuck s := by
  obtain ⟨rested, hrun, hrest⟩ := exists_atRest (by omega) (Marked.start threadNum plan)
  have hmarked := Marked.of_reachable hrun
  refine ⟨rested, hrun, hrest.1, hrest.2.1, ?_⟩
  by_contra hnone
  have hall : ∀ reader ∈ rested.readers, reader = .finished := fun reader hmem ↦
    (hrest.2.2 reader hmem).resolve_left fun heq ↦ hnone (heq ▸ hmem)
  have hone := total_ended_of_atRest hmarked hrest
  rw [total_ended_of_finished hall, hmarked.length] at hone
  omega

/-- Assumes: at least one reader thread. Whatever the scanner finds, the search phase cannot get
stuck exactly if there is one reader. -/
theorem searchEnds_iff (dfsFileReaderThreadNum : ℕ) (plan : Option (List ScanEntry))
    (hthreads : 1 ≤ dfsFileReaderThreadNum) :
    SearchEnds dfsFileReaderThreadNum plan ↔ dfsFileReaderThreadNum = 1 := by
  constructor
  · intro hends
    by_contra hmore
    have htwo : 2 ≤ dfsFileReaderThreadNum := by omega
    obtain ⟨s, hrun, hstuck⟩ := exists_stuck_of_two_le htwo plan
    exact (hends s hrun).1 hstuck
  · rintro rfl s hreachable
    have hmarked := Marked.of_reachable hreachable
    exact ⟨not_stuck_of_one hmarked, exists_endPushed_of_one hmarked⟩

/-- Three readers, on a store with two files under the root and one in a directory. -/
theorem searchEnds_iff_threeReaders :
    ¬ SearchEnds 3 (some [.file "/snappy/1-2-0.parquet".toList, .passedOver,
      .directory [.file "/snappy/20170901/3-4-0.parquet".toList],
      .file "/snappy/5-6-0.parquet".toList]) := by
  intro hends
  have hone : 3 = 1 := (searchEnds_iff 3 _ (by decide)).mp hends
  cases hone

/-- Two readers and no file: the first takes the trailing entry and the second waits for ever. -/
theorem not_searchEnds : ¬ SearchEnds 2 (some []) := by
  intro hends
  have hexecute : execute searchStep anyEvent (.start 2 (some []))
      [.scan, .scan, .scan, .pop 0, .test 0] = some
        { scanner := .finished
          ring := []
          readers := [.finished, .waiting]
          continueSearching := true
          endPushed := false } := rfl
  exact (hends _ (run_of_execute hexecute)).1 ⟨rfl, rfl, by decide⟩

end CppLearn.SearchEngine.FileListSearch
