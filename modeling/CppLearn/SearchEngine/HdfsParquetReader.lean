import CppLearn.SearchEngine.Utils

/-!
# Scanning a store on HDFS

`scanFileImpl` walks a directory tree and pushes the paths of the files whose times meet the window
of the search. It enters a directory only if the time in the name of the directory lies in the
window, and it stops at the first entry before which searching has been called off.

The results of both tests are known before the walk: they do not depend on when it stops. `scanPlan`
resolves them, and `scanEntries_plan` says that an undisturbed walk pushes the files its plan
chooses, in order.
-/

set_option autoImplicit false
set_option relaxedAutoImplicit false

namespace CppLearn.SearchEngine.HdfsParquetReader

open Foundation.DecimalText Foundation.LocalTime Utils

/-! ### The walk -/

/-- `DfsFileName`, an entry of the file-list ring. -/
structure DfsFileName where
  fileName : Text
  flag : ℤ
  deriving DecidableEq

/-- An entry of a directory under its own name. -/
inductive DfsEntry
  | file (name : Text)
  | directory (name : Text) (contents : List DfsEntry)

/-- What a scan depends on. `stack` is what the uninitialised `start_ts` and `end_ts` of a call on a
directory happen to hold, and `continueSearching` the value found at each test of the flag. -/
structure ScanEnv where
  zone : TimeZone
  stime : ℤ
  etime : ℤ
  stack : Text → ℤ × ℤ
  continueSearching : ℕ → Bool

/-- The entries pushed so far, their count `file_list_ring_size`, and the tests of the flag made. -/
structure ScanState where
  fileListRing : List DfsFileName
  fileListRingSize : ℕ
  polls : ℕ
  deriving DecidableEq

/-- Before a scan. -/
def ScanState.start : ScanState := ⟨[], 0, 0⟩

/-- `file_list_ring_push` of a file, and the count of it. -/
def ScanState.push (st : ScanState) (fileName : Text) : ScanState :=
  { st with
    fileListRing := st.fileListRing ++ [⟨fileName, 0⟩]
    fileListRingSize := st.fileListRingSize + 1 }

/-- The entry after the last file. -/
def trailingEntry : DfsFileName := ⟨[], 1⟩

/-- `file_list_ring_push` of the trailing entry, which is not counted. -/
def ScanState.trail (st : ScanState) : ScanState :=
  { st with fileListRing := st.fileListRing ++ [trailingEntry] }

/-- One test of `continue_searching`. -/
def ScanState.polled (st : ScanState) : ScanState := { st with polls := st.polls + 1 }

/-- The path of an entry in a directory, which is what `mName` holds. -/
def entryPath (root name : Text) : Text := root ++ '/' :: name

mutual

/-- One entry in the loop of `scan_file_impl`, with the values of `start_ts` and `end_ts`. -/
def scanEntry (env : ScanEnv) (root : Text) (held : ℤ × ℤ) (st : ScanState) :
    DfsEntry → Option ((ℤ × ℤ) × ScanState)
  | .directory name contents =>
    (parquetFileDirToTimestamp env.zone (entryPath root name)).bind fun ts ↦
      if env.stime ≤ ts ∧ ts ≤ env.etime then
        (scanEntries env (entryPath root name) (env.stack (entryPath root name)) st contents).map
          fun st ↦ (held, st)
      else some (held, st)
  | .file name =>
    (parquetFilePathToTimestamp (entryPath root name) held.1 held.2).map fun times ↦
      if env.stime ≤ times.2 ∧ times.1 ≤ env.etime then (times, st.push (entryPath root name))
      else (times, st)

/-- The loop of `scan_file_impl` over the entries of a directory. -/
def scanEntries (env : ScanEnv) (root : Text) (held : ℤ × ℤ) (st : ScanState) :
    List DfsEntry → Option ScanState
  | [] => some st
  | entry :: entries =>
    if env.continueSearching st.polls then
      (scanEntry env root held st.polled entry).bind fun (held, st) ↦
        scanEntries env root held st entries
    else some st.polled

end

/-- `scan_file_impl`, on the contents that `hdfsListDirectory` finds under `root`. -/
def scanFileImpl (env : ScanEnv) (root : Text) (contents : List DfsEntry) (st : ScanState) :
    Option ScanState :=
  scanEntries env root (env.stack root) st contents

/-- `scan_file`: nothing is scanned if the root does not exist, and in any case the trailing entry
is pushed. -/
def scanFile (env : ScanEnv) (root : Text) (contents : Option (List DfsEntry)) (st : ScanState) :
    Option ScanState :=
  match contents with
  | none => some st.trail
  | some contents => (scanFileImpl env root contents st).map ScanState.trail

/-! ### The plan of a scan -/

/-- An entry with the result of its test: a file or directory that fails is passed over. -/
inductive ScanEntry
  | passedOver
  | file (fileName : Text)
  | directory (contents : List ScanEntry)

mutual

/-- The test of one entry, and of everything below a directory that passes. -/
def planEntry (env : ScanEnv) (root : Text) (held : ℤ × ℤ) :
    DfsEntry → Option ((ℤ × ℤ) × ScanEntry)
  | .directory name contents =>
    (parquetFileDirToTimestamp env.zone (entryPath root name)).bind fun ts ↦
      if env.stime ≤ ts ∧ ts ≤ env.etime then
        (scanPlan env (entryPath root name) (env.stack (entryPath root name)) contents).map
          fun plan ↦ (held, .directory plan)
      else some (held, .passedOver)
  | .file name =>
    (parquetFilePathToTimestamp (entryPath root name) held.1 held.2).map fun times ↦
      if env.stime ≤ times.2 ∧ times.1 ≤ env.etime then (times, .file (entryPath root name))
      else (times, .passedOver)

/-- The tests of the entries of a directory. -/
def scanPlan (env : ScanEnv) (root : Text) (held : ℤ × ℤ) :
    List DfsEntry → Option (List ScanEntry)
  | [] => some []
  | entry :: entries =>
    (planEntry env root held entry).bind fun (held, planned) ↦
      (scanPlan env root held entries).map fun plan ↦ planned :: plan

end

/-- A directory is entered: the time in its name lies in the window. -/
def Passes (env : ScanEnv) (path : Text) : Prop :=
  ∃ ts, parquetFileDirToTimestamp env.zone path = some ts ∧ env.stime ≤ ts ∧ ts ≤ env.etime

theorem passes_iff {env : ScanEnv} {path : Text} {ts : ℤ}
    (hts : parquetFileDirToTimestamp env.zone path = some ts) :
    Passes env path ↔ env.stime ≤ ts ∧ ts ≤ env.etime := by
  simp only [Passes, hts, Option.some.injEq, exists_eq_left']

/-- The first entry of a directory and the rest of it. -/
theorem exists_of_scanPlan_cons {env : ScanEnv} {root : Text} {held : ℤ × ℤ} {entry : DfsEntry}
    {entries : List DfsEntry} {plan : List ScanEntry}
    (hplan : scanPlan env root held (entry :: entries) = some plan) :
    ∃ held' planned rest, planEntry env root held entry = some (held', planned) ∧
      scanPlan env root held' entries = some rest ∧ plan = planned :: rest := by
  simp only [scanPlan, Option.bind_eq_some_iff] at hplan
  obtain ⟨⟨held', planned⟩, hentry, hplan⟩ := hplan
  obtain ⟨rest, hrest, rfl⟩ := Option.map_eq_some_iff.mp hplan
  exact ⟨held', planned, rest, hentry, hrest, rfl⟩

/-- A directory is entered or passed over by the time in its name. -/
theorem planEntry_directory_cases {env : ScanEnv} {root name : Text} {held held' : ℤ × ℤ}
    {contents : List DfsEntry} {planned : ScanEntry}
    (hplan : planEntry env root held (.directory name contents) = some (held', planned)) :
    held' = held ∧ ∃ ts, parquetFileDirToTimestamp env.zone (entryPath root name) = some ts ∧
      ((env.stime ≤ ts ∧ ts ≤ env.etime) ∧ (∃ plan, scanPlan env (entryPath root name)
          (env.stack (entryPath root name)) contents = some plan ∧ planned = .directory plan) ∨
        ¬ (env.stime ≤ ts ∧ ts ≤ env.etime) ∧ planned = .passedOver) := by
  simp only [planEntry, Option.bind_eq_some_iff] at hplan
  obtain ⟨ts, hts, hplan⟩ := hplan
  split_ifs at hplan with htest
  · obtain ⟨plan, hcontents, heq⟩ := Option.map_eq_some_iff.mp hplan
    obtain ⟨rfl, rfl⟩ := Prod.mk.inj heq
    exact ⟨rfl, ts, hts, Or.inl ⟨htest, plan, hcontents, rfl⟩⟩
  · obtain ⟨rfl, rfl⟩ := Prod.mk.inj (Option.some.inj hplan)
    exact ⟨rfl, ts, hts, Or.inr ⟨htest, rfl⟩⟩

mutual

/-- The files of a planned entry. -/
def ScanEntry.chosen : ScanEntry → List Text
  | .passedOver => []
  | .file fileName => [fileName]
  | .directory contents => chosenFiles contents

/-- The files of a plan, in the order of the walk. -/
def chosenFiles : List ScanEntry → List Text
  | [] => []
  | entry :: entries => entry.chosen ++ chosenFiles entries

end

/-- The state after some files have been pushed and a number of tests made. -/
def ScanState.after (st : ScanState) (files : List Text) (polls : ℕ) : ScanState :=
  { fileListRing := st.fileListRing ++ files.map fun fileName ↦ ⟨fileName, 0⟩
    fileListRingSize := st.fileListRingSize + files.length
    polls := polls }

theorem ScanState.after_after (st : ScanState) (first second : List Text) (polls polls' : ℕ) :
    (st.after first polls).after second polls' = st.after (first ++ second) polls' := by
  simp only [ScanState.after, List.map_append, List.append_assoc, List.length_append,
    Nat.add_assoc]

mutual

theorem scanEntry_plan (env : ScanEnv) (hcontinue : ∀ poll, env.continueSearching poll = true)
    (root : Text) (held : ℤ × ℤ) (st : ScanState) : ∀ entry : DfsEntry,
    ∀ {held' : ℤ × ℤ} {planned : ScanEntry},
      planEntry env root held entry = some (held', planned) →
      ∃ polls, scanEntry env root held st entry = some (held', st.after planned.chosen polls)
  | .directory name contents, held', planned, hplan => by
    obtain ⟨rfl, ts, hts, ⟨htest, plan, hcontents, rfl⟩ | ⟨htest, rfl⟩⟩ :=
      planEntry_directory_cases hplan
    · obtain ⟨polls, hscan⟩ := scanEntries_plan env hcontinue (entryPath root name)
        (env.stack (entryPath root name)) st contents hcontents
      refine ⟨polls, ?_⟩
      simp only [scanEntry, hts, Option.bind_some, if_pos htest, hscan, Option.map_some,
        ScanEntry.chosen]
    · refine ⟨st.polls, ?_⟩
      simp [scanEntry, hts, if_neg htest, ScanState.after, ScanEntry.chosen]
  | .file name, held', planned, hplan => by
    simp only [planEntry, Option.map_eq_some_iff] at hplan
    obtain ⟨times, htimes, hplan⟩ := hplan
    refine ⟨st.polls, ?_⟩
    simp only [scanEntry, htimes, Option.map_some]
    split_ifs at hplan ⊢ with htest
    · obtain ⟨rfl, rfl⟩ := Prod.mk.inj hplan
      rfl
    · obtain ⟨rfl, rfl⟩ := Prod.mk.inj hplan
      simp [ScanState.after, ScanEntry.chosen]

/-- Assumes: a search that is never called off. A walk pushes the files its plan chooses. -/
theorem scanEntries_plan (env : ScanEnv) (hcontinue : ∀ poll, env.continueSearching poll = true)
    (root : Text) (held : ℤ × ℤ) (st : ScanState) : ∀ entries : List DfsEntry,
    ∀ {plan : List ScanEntry}, scanPlan env root held entries = some plan →
      ∃ polls, scanEntries env root held st entries = some (st.after (chosenFiles plan) polls)
  | [], plan, hplan => by
    cases Option.some.inj hplan
    exact ⟨st.polls, by simp [scanEntries, ScanState.after, chosenFiles]⟩
  | entry :: entries, plan, hplan => by
    obtain ⟨held', planned, rest, hentry, hrest, rfl⟩ := exists_of_scanPlan_cons hplan
    obtain ⟨polls, hscan⟩ := scanEntry_plan env hcontinue root held st.polled entry hentry
    obtain ⟨polls', hscan'⟩ := scanEntries_plan env hcontinue root held'
      (st.polled.after planned.chosen polls) entries hrest
    refine ⟨polls', ?_⟩
    simp only [scanEntries, hcontinue, if_true, hscan, Option.bind_some, hscan',
      ScanState.after_after, chosenFiles]
    rfl

end

mutual

theorem exists_planEntry (env : ScanEnv) (hcontinue : ∀ poll, env.continueSearching poll = true)
    (root : Text) (held : ℤ × ℤ) (st : ScanState) : ∀ entry : DfsEntry,
    ∀ {result : (ℤ × ℤ) × ScanState}, scanEntry env root held st entry = some result →
      ∃ planned, planEntry env root held entry = some (result.1, planned)
  | .directory name contents, result, hscan => by
    simp only [scanEntry, Option.bind_eq_some_iff] at hscan
    obtain ⟨ts, hts, hscan⟩ := hscan
    simp only [planEntry, hts, Option.bind_some]
    split_ifs at hscan ⊢ with htest
    · obtain ⟨st', hcontents, rfl⟩ := Option.map_eq_some_iff.mp hscan
      obtain ⟨plan, hplan⟩ := exists_scanPlan env hcontinue (entryPath root name)
        (env.stack (entryPath root name)) st contents hcontents
      exact ⟨.directory plan, by rw [hplan, Option.map_some]⟩
    · cases hscan
      exact ⟨.passedOver, rfl⟩
  | .file name, result, hscan => by
    simp only [scanEntry, Option.map_eq_some_iff] at hscan
    obtain ⟨times, htimes, hscan⟩ := hscan
    simp only [planEntry, htimes, Option.map_some]
    split_ifs at hscan ⊢ with htest
    · cases hscan
      exact ⟨_, rfl⟩
    · cases hscan
      exact ⟨_, rfl⟩

/-- Assumes: a search that is never called off. A walk that returns has a plan. -/
theorem exists_scanPlan (env : ScanEnv) (hcontinue : ∀ poll, env.continueSearching poll = true)
    (root : Text) (held : ℤ × ℤ) (st : ScanState) : ∀ entries : List DfsEntry,
    ∀ {st' : ScanState}, scanEntries env root held st entries = some st' →
      ∃ plan, scanPlan env root held entries = some plan
  | [], _, _ => ⟨[], rfl⟩
  | entry :: entries, st', hscan => by
    simp only [scanEntries, hcontinue, if_true] at hscan
    obtain ⟨⟨held', middle⟩, hentry, hrest⟩ := Option.bind_eq_some_iff.mp hscan
    obtain ⟨planned, hplanned⟩ := exists_planEntry env hcontinue root held st.polled entry hentry
    obtain ⟨plan, hplan⟩ := exists_scanPlan env hcontinue root held' middle entries hrest
    refine ⟨planned :: plan, ?_⟩
    simp only [scanPlan, hplanned, Option.bind_some, hplan, Option.map_some]

end

end CppLearn.SearchEngine.HdfsParquetReader
