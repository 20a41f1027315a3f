import CppLearn.SearchEngine.StoreTree

/-!
# Scanning a store on QFS

QFS lists the bare names in a directory, and `scan_file_impl` puts the paths together itself. Where
it enters a directory, though, it passes on the bare name, which is looked up in the working
directory of the client. `scanFileImpl` is that walk, with a bound on its depth since nothing keeps
it from going round in circles.

`qfsFiles` says what an undisturbed walk pushes, and `sameFiles_iff` compares it with the walk on
HDFS. The two come to their ends and push the same files, in whatever order each store lists its
directories and whatever the uninitialised variables of each walk hold, exactly if nothing in the
names lets them part (`FirstLevelOnly`): no file below the first level can be in the window, none
can be where the bare names lead, and whether a file of the first level is depends on nothing but
its path.
-/

set_option autoImplicit false
set_option relaxedAutoImplicit false

namespace CppLearn.SearchEngine.QfsParquetReader

open Foundation.DecimalText Foundation.LocalTime Foundation.TextSearch
open HdfsParquetReader (DfsEntry DfsFileName Passes ScanEnv ScanState chosenFiles entryPath
  exists_scanPlan passes_iff scanEntries_plan scanPlan)
open StoreTree Utils

/-! ### The store -/

/-- The name of an entry of a directory. -/
def EntryName (name : Text) : Prop := name ≠ [] ∧ '/' ∉ name ∧ name ≠ ['.'] ∧ name ≠ ['.', '.']

/-- A name that `Readdir` gives, with the `isDirectory` that `Stat` finds for its path. -/
def nameKind : DfsEntry → Text × Bool
  | .file name => (name, false)
  | .directory name _ => (name, true)

mutual

/-- The names in an entry are names of entries. -/
def DfsEntry.Named : DfsEntry → Prop
  | .file name => EntryName name
  | .directory name contents => EntryName name ∧ AllNamed contents

/-- The names in a directory and below it are names of entries, and those of one directory are
different. -/
def AllNamed : List DfsEntry → Prop
  | [] => True
  | entry :: entries =>
    DfsEntry.Named entry ∧ (∀ other ∈ entries, (nameKind other).1 ≠ (nameKind entry).1) ∧
      AllNamed entries

end

mutual

/-- The directory of a path at or below an entry of the directory `root`. -/
def findInEntry (root path : Text) : DfsEntry → Option (List DfsEntry)
  | .file _ => none
  | .directory name contents =>
    if entryPath root name = path then some contents
    else findInEntries (entryPath root name) path contents

/-- The directory of a path below the directory `root`. -/
def findInEntries (root path : Text) : List DfsEntry → Option (List DfsEntry)
  | [] => none
  | entry :: entries =>
    match findInEntry root path entry with
    | some contents => some contents
    | none => findInEntries root path entries

end

/-- The tree under an absolute root, and what is listed for the paths outside it, such as bare
names, which are looked up in the working directory of the client. -/
structure QfsStore where
  root : Text
  contents : List DfsEntry
  elsewhere : Text → List (Text × Bool)
  absolute : root.head? = some '/'
  named : AllNamed contents
  namedElsewhere : ∀ path, ∀ entry ∈ elsewhere path, EntryName entry.1

/-- The directory of a path, in the tree of the store. -/
def QfsStore.find (store : QfsStore) (path : Text) : Option (List DfsEntry) :=
  if path = store.root then some store.contents
  else findInEntries store.root path store.contents

/-- `Readdir`, with what `Stat` finds for the entries. -/
def QfsStore.readdir (store : QfsStore) (path : Text) : List (Text × Bool) :=
  match store.find path with
  | some contents => (['.'], true) :: (['.', '.'], true) :: contents.map nameKind
  | none => store.elsewhere path

/-! ### The walk -/

/-- The loop of `scan_file_impl`, with the values of `start_ts` and `end_ts`, over what is left of
the listing of a directory. -/
def scanEntries (env : ScanEnv) (enter : Text → ScanState → Option ScanState) (root : Text) :
    ℤ × ℤ → ScanState → List (Text × Bool) → Option ScanState
  | _, st, [] => some st
  | held, st, (name, isDirectory) :: entries =>
    if name = ['.'] ∨ name = ['.', '.'] then scanEntries env enter root held st entries
    else if env.continueSearching st.polls then
      if isDirectory then
        (parquetFileDirToTimestamp env.zone (entryPath root name)).bind fun ts ↦
          if env.stime ≤ ts ∧ ts ≤ env.etime then
            (enter name st.polled).bind fun st ↦ scanEntries env enter root held st entries
          else scanEntries env enter root held st.polled entries
      else
        (parquetFilePathToTimestamp (entryPath root name) held.1 held.2).bind fun times ↦
          if env.stime ≤ times.2 ∧ times.1 ≤ env.etime then
            scanEntries env enter root times (st.polled.push (entryPath root name)) entries
          else scanEntries env enter root times st.polled entries
    else some st.polled

/-- `scan_file_impl`, in calls nested no deeper than `depth`. `listing` is what `Readdir` and `Stat`
give for a path, and `stack` what the uninitialised `start_ts` and `end_ts` of a call happen to hold,
by the paths of the call and its callers. -/
def scanFileImpl (env : ScanEnv) (listing : Text → List (Text × Bool)) (stack : List Text → ℤ × ℤ) :
    ℕ → List Text → Text → ScanState → Option ScanState
  | 0, _, _, _ => none
  | depth + 1, callers, root, st =>
    scanEntries env (scanFileImpl env listing stack depth (root :: callers)) root
      (stack (root :: callers)) st (listing root)

/-! ### What a walk pushes -/

/-- What the loop does with an entry: a file is pushed, a directory that passes its test is entered
by its bare name. -/
inductive QfsStep
  | file (fileName : Text)
  | enter (name : Text)

/-- The tests of the entries of a listing. -/
def planListing (env : ScanEnv) (root : Text) : ℤ × ℤ → List (Text × Bool) → Option (List QfsStep)
  | _, [] => some []
  | held, (name, isDirectory) :: entries =>
    if name = ['.'] ∨ name = ['.', '.'] then planListing env root held entries
    else if isDirectory then
      (parquetFileDirToTimestamp env.zone (entryPath root name)).bind fun ts ↦
        if env.stime ≤ ts ∧ ts ≤ env.etime then
          (planListing env root held entries).map (QfsStep.enter name :: ·)
        else planListing env root held entries
    else
      (parquetFilePathToTimestamp (entryPath root name) held.1 held.2).bind fun times ↦
        if env.stime ≤ times.2 ∧ times.1 ≤ env.etime then
          (planListing env root times entries).map (QfsStep.file (entryPath root name) :: ·)
        else planListing env root times entries

/-- The files pushed in some steps, by those pushed in the directories entered. -/
def stepFiles (entered : Text → Option (List Text)) : List QfsStep → Option (List Text)
  | [] => some []
  | .file fileName :: steps => (stepFiles entered steps).map (fileName :: ·)
  | .enter name :: steps =>
    (entered name).bind fun files ↦ (stepFiles entered steps).map (files ++ ·)

/-- The files that a walk pushes if it is not called off, in order. -/
def qfsFiles (env : ScanEnv) (listing : Text → List (Text × Bool)) (stack : List Text → ℤ × ℤ) :
    ℕ → List Text → Text → Option (List Text)
  | 0, _, _ => none
  | depth + 1, callers, root =>
    (planListing env root (stack (root :: callers)) (listing root)).bind
      (stepFiles (qfsFiles env listing stack depth (root :: callers)))

section Walk

variable {env : ScanEnv} {listing : Text → List (Text × Bool)} {stack : List Text → ℤ × ℤ}

/-- The state after a walk from `st`, by the files pushed. -/
def EndsWith (st : ScanState) (result : Option ScanState) : Option (List Text) → Prop
  | some files => ∃ polls, result = some (st.after files polls)
  | none => result = none

/-- From every state a walk returns with the files pushed, or not at all. -/
def Follows (walk : ScanState → Option ScanState) (files : Option (List Text)) : Prop :=
  ∀ st, EndsWith st (walk st) files

theorem follows_stop : Follows some (some []) := by
  intro st
  refine ⟨st.polls, ?_⟩
  simp [ScanState.after]

theorem Follows.polled {walk : ScanState → Option ScanState} {files : Option (List Text)}
    (h : Follows walk files) : Follows (fun st ↦ walk st.polled) files := by
  intro st
  have hwalk := h st.polled
  rcases files with _ | files
  · exact hwalk
  · exact hwalk

/-- A file is pushed before the rest of a walk. -/
theorem Follows.push {walk : ScanState → Option ScanState} {files : Option (List Text)}
    (h : Follows walk files) (fileName : Text) :
    Follows (fun st ↦ walk (st.polled.push fileName)) (files.map (fileName :: ·)) := by
  intro st
  have hwalk := h (st.polled.push fileName)
  rcases files with _ | files
  · exact hwalk
  · obtain ⟨polls, hwalk⟩ := hwalk
    refine ⟨polls, hwalk.trans (congrArg some ?_)⟩
    simp only [ScanState.after, ScanState.push, ScanState.polled, List.append_assoc,
      List.singleton_append, List.map_cons, List.length_cons, Nat.add_assoc, Nat.add_comm 1]

/-- A directory is walked before the rest of a walk. -/
theorem Follows.enter {first rest : ScanState → Option ScanState}
    {files restFiles : Option (List Text)} (hfirst : Follows first files)
    (hrest : Follows rest restFiles) :
    Follows (fun st ↦ (first st.polled).bind rest)
      (files.bind fun files ↦ restFiles.map (files ++ ·)) := by
  intro st
  have hwalk := hfirst st.polled
  rcases files with _ | files
  · exact congrArg (Option.bind · rest) hwalk
  · obtain ⟨polls, hwalk⟩ := hwalk
    have hwalk' := hrest (st.polled.after files polls)
    have hboth : (first st.polled).bind rest = rest (st.polled.after files polls) := by
      rw [hwalk, Option.bind_some]
    rcases restFiles with _ | restFiles
    · exact hboth.trans hwalk'
    · obtain ⟨polls', hwalk'⟩ := hwalk'
      refine ⟨polls', (hboth.trans hwalk').trans (congrArg some ?_)⟩
      rw [ScanState.after_after]
      rfl

theorem bind_stepFiles_file (entered : Text → Option (List Text)) (fileName : Text)
    (plan : Option (List QfsStep)) :
    (plan.map (QfsStep.file fileName :: ·)).bind (stepFiles entered) =
      (plan.bind (stepFiles entered)).map (fileName :: ·) := by
  cases plan <;> rfl

theorem bind_stepFiles_enter (entered : Text → Option (List Text)) (name : Text)
    (plan : Option (List QfsStep)) :
    (plan.map (QfsStep.enter name :: ·)).bind (stepFiles entered) =
      (entered name).bind fun files ↦ (plan.bind (stepFiles entered)).map (files ++ ·) := by
  cases plan with
  | none => cases entered name <;> rfl
  | some steps => rfl

/-- Assumes: a search that is never called off, and walks of the directories entered that follow the
files pushed there. The loop follows its tests. -/
theorem scanEntries_follows (hcontinue : ∀ poll, env.continueSearching poll = true)
    {enter : Text → ScanState → Option ScanState} {entered : Text → Option (List Text)}
    (henter : ∀ name, Follows (enter name) (entered name)) (root : Text) :
    ∀ (held : ℤ × ℤ) (entries : List (Text × Bool)),
      Follows (fun st ↦ scanEntries env enter root held st entries)
        ((planListing env root held entries).bind (stepFiles entered)) := by
  intro held entries
  induction entries generalizing held with
  | nil => exact follows_stop
  | cons entry entries ih =>
    obtain ⟨name, isDirectory⟩ := entry
    simp only [scanEntries, planListing, hcontinue, if_true]
    by_cases hdots : name = ['.'] ∨ name = ['.', '.']
    · simp only [if_pos hdots]
      exact ih held
    · simp only [if_neg hdots]
      cases isDirectory with
      | true =>
        simp only [if_true]
        rcases parquetFileDirToTimestamp env.zone (entryPath root name) with _ | ts
        · exact fun _ ↦ rfl
        · simp only [Option.bind_some]
          by_cases htest : env.stime ≤ ts ∧ ts ≤ env.etime
          · simp only [if_pos htest]
            rw [bind_stepFiles_enter]
            exact (henter name).enter (ih held)
          · simp only [if_neg htest]
            exact (ih held).polled
      | false =>
        simp only [Bool.false_eq_true, if_false]
        rcases parquetFilePathToTimestamp (entryPath root name) held.1 held.2 with _ | times
        · exact fun _ ↦ rfl
        · simp only [Option.bind_some]
          by_cases htest : env.stime ≤ times.2 ∧ times.1 ≤ env.etime
          · simp only [if_pos htest]
            rw [bind_stepFiles_file]
            exact (ih times).push _
          · simp only [if_neg htest]
            exact (ih times).polled

/-- A walk that is never called off returns with the files of `qfsFiles`, or not at all. -/
theorem scanFileImpl_follows (hcontinue : ∀ poll, env.continueSearching poll = true) :
    ∀ (depth : ℕ) (callers : List Text) (root : Text),
      Follows (scanFileImpl env listing stack depth callers root)
        (qfsFiles env listing stack depth callers root)
  | 0, _, _ => fun _ ↦ rfl
  | depth + 1, callers, root =>
    scanEntries_follows hcontinue (scanFileImpl_follows hcontinue depth (root :: callers)) root
      (stack (root :: callers)) (listing root)

/-! ### Deeper walks -/

/-- What is pushed in some steps is the files among them and what is pushed in the directories
entered. -/
theorem mem_stepFiles_iff {entered : Text → Option (List Text)} {steps : List QfsStep}
    {files : List Text} (hfiles : stepFiles entered steps = some files) (fileName : Text) :
    fileName ∈ files ↔ .file fileName ∈ steps ∨
      ∃ name found, .enter name ∈ steps ∧ entered name = some found ∧ fileName ∈ found := by
  induction steps generalizing files with
  | nil =>
    cases hfiles
    simp
  | cons step steps ih =>
    cases step with
    | file first =>
      obtain ⟨rest, hrest, rfl⟩ := Option.map_eq_some_iff.mp hfiles
      simp only [List.mem_cons, ih hrest, QfsStep.file.injEq, reduceCtorEq, false_or, or_assoc]
    | enter first =>
      obtain ⟨found, hfound, hmore⟩ := Option.bind_eq_some_iff.mp hfiles
      obtain ⟨rest, hrest, rfl⟩ := Option.map_eq_some_iff.mp hmore
      simp only [List.mem_append, ih hrest, List.mem_cons, reduceCtorEq, false_or,
        QfsStep.enter.injEq]
      constructor
      · rintro (hmem | hmem | ⟨name, other, hname, hother, hmem⟩)
        · exact Or.inr ⟨first, found, Or.inl rfl, hfound, hmem⟩
        · exact Or.inl hmem
        · exact Or.inr ⟨name, other, Or.inr hname, hother, hmem⟩
      · rintro (hmem | ⟨name, other, rfl | hname, hother, hmem⟩)
        · exact Or.inr (Or.inl hmem)
        · obtain rfl := Option.some.inj (hother.symm.trans hfound)
          exact Or.inl hmem
        · exact Or.inr (Or.inr ⟨name, other, hname, hother, hmem⟩)

/-- Every directory entered has been walked to its end. -/
theorem entered_of_stepFiles {entered : Text → Option (List Text)} {steps : List QfsStep}
    {files : List Text} (hfiles : stepFiles entered steps = some files) {name : Text}
    (hname : .enter name ∈ steps) : ∃ found, entered name = some found := by
  induction steps generalizing files with
  | nil => cases hname
  | cons step steps ih =>
    cases step with
    | file first =>
      obtain ⟨rest, hrest, -⟩ := Option.map_eq_some_iff.mp hfiles
      rcases List.mem_cons.mp hname with heq | hname
      · cases heq
      · exact ih hrest hname
    | enter first =>
      obtain ⟨found, hfound, hmore⟩ := Option.bind_eq_some_iff.mp hfiles
      obtain ⟨rest, hrest, -⟩ := Option.map_eq_some_iff.mp hmore
      rcases List.mem_cons.mp hname with heq | hname
      · cases heq
        exact ⟨found, hfound⟩
      · exact ih hrest hname

/-- Assumes: directories entered whose walks return. -/
theorem exists_stepFiles {entered : Text → Option (List Text)} {steps : List QfsStep}
    (hentered : ∀ name, .enter name ∈ steps → ∃ found, entered name = some found) :
    ∃ files, stepFiles entered steps = some files := by
  induction steps with
  | nil => exact ⟨[], rfl⟩
  | cons step steps ih =>
    obtain ⟨files, hfiles⟩ := ih fun name hname ↦ hentered name (List.mem_cons_of_mem _ hname)
    cases step with
    | file first => exact ⟨_, Option.map_eq_some_iff.mpr ⟨files, hfiles, rfl⟩⟩
    | enter first =>
      obtain ⟨found, hfound⟩ := hentered first (List.mem_cons_self ..)
      refine ⟨found ++ files, ?_⟩
      rw [stepFiles, hfound, Option.bind_some, hfiles, Option.map_some]

theorem stepFiles_mono {entered entered' : Text → Option (List Text)}
    (hmono : ∀ name files, entered name = some files → entered' name = some files)
    {steps : List QfsStep} {files : List Text} (hfiles : stepFiles entered steps = some files) :
    stepFiles entered' steps = some files := by
  induction steps generalizing files with
  | nil => exact hfiles
  | cons step steps ih =>
    cases step with
    | file first =>
      obtain ⟨rest, hrest, rfl⟩ := Option.map_eq_some_iff.mp hfiles
      rw [stepFiles, ih hrest, Option.map_some]
    | enter first =>
      obtain ⟨found, hfound, hmore⟩ := Option.bind_eq_some_iff.mp hfiles
      obtain ⟨rest, hrest, rfl⟩ := Option.map_eq_some_iff.mp hmore
      rw [stepFiles, hmono first found hfound, Option.bind_some, ih hrest, Option.map_some]

/-- A walk that has returned does not need a greater depth. -/
theorem qfsFiles_succ : ∀ (depth : ℕ) (callers : List Text) (root : Text) (files : List Text),
    qfsFiles env listing stack depth callers root = some files →
      qfsFiles env listing stack (depth + 1) callers root = some files
  | 0, _, _, _, hfiles => by cases hfiles
  | depth + 1, callers, root, files, hfiles => by
    obtain ⟨steps, hplan, hsteps⟩ := Option.bind_eq_some_iff.mp hfiles
    rw [qfsFiles, hplan, Option.bind_some]
    exact stepFiles_mono (qfsFiles_succ depth (root :: callers)) hsteps

theorem qfsFiles_mono {depth depth' : ℕ} (hle : depth ≤ depth') {callers : List Text} {root : Text}
    {files : List Text} (hfiles : qfsFiles env listing stack depth callers root = some files) :
    qfsFiles env listing stack depth' callers root = some files := by
  induction depth', hle using Nat.le_induction with
  | base => exact hfiles
  | succ depth' _ ih => exact qfsFiles_succ depth' callers root files ih

/-- Some depth is enough for all directories entered. -/
theorem exists_depth {callers : List Text} {steps : List QfsStep}
    (hreturns : ∀ name, .enter name ∈ steps →
      ∃ depth files, qfsFiles env listing stack depth callers name = some files) :
    ∃ depth, ∀ name, .enter name ∈ steps →
      ∃ files, qfsFiles env listing stack depth callers name = some files := by
  induction steps with
  | nil => exact ⟨0, fun _ hname ↦ (List.not_mem_nil hname).elim⟩
  | cons step steps ih =>
    obtain ⟨depth, hdepth⟩ := ih fun name hname ↦ hreturns name (List.mem_cons_of_mem _ hname)
    cases step with
    | file first =>
      refine ⟨depth, fun name hname ↦ ?_⟩
      rcases List.mem_cons.mp hname with heq | hname
      · cases heq
      · exact hdepth name hname
    | enter first =>
      obtain ⟨depth', files, hfiles⟩ := hreturns first (List.mem_cons_self ..)
      refine ⟨max depth depth', fun name hname ↦ ?_⟩
      rcases List.mem_cons.mp hname with heq | hname
      · cases heq
        exact ⟨files, qfsFiles_mono (le_max_right ..) hfiles⟩
      · obtain ⟨found, hfound⟩ := hdepth name hname
        exact ⟨found, qfsFiles_mono (le_max_left ..) hfound⟩

/-! ### The files that a walk tests -/

/-- The two entries that every directory has. -/
def Dots (name : Text) : Prop := name = ['.'] ∨ name = ['.', '.']

/-- A walk on the directory enters the bare name. -/
def Enters (env : ScanEnv) (listing : Text → List (Text × Bool)) (name root : Text) : Prop :=
  (name, true) ∈ listing root ∧ ¬ Dots name ∧ Passes env (entryPath root name)

/-- The file is listed for the path, or for bare names to which a walk on the path leads. -/
inductive QfsReached (env : ScanEnv) (listing : Text → List (Text × Bool)) : Text → Text → Prop
  | file {root name : Text} (hmem : (name, false) ∈ listing root) (hdots : ¬ Dots name) :
      QfsReached env listing root (entryPath root name)
  | enter {root name fileName : Text} (henters : Enters env listing name root)
      (reached : QfsReached env listing name fileName) : QfsReached env listing root fileName

/-- The first entry of a listing and the rest of it. -/
theorem planListing_cons_cases {root name : Text} {isDirectory : Bool} {held : ℤ × ℤ}
    {entries : List (Text × Bool)} {steps : List QfsStep}
    (hplan : planListing env root held ((name, isDirectory) :: entries) = some steps) :
    (Dots name ∧ planListing env root held entries = some steps) ∨
    (¬ Dots name ∧ isDirectory = true ∧ ∃ rest, planListing env root held entries = some rest ∧
      (Passes env (entryPath root name) ∧ steps = .enter name :: rest ∨
        ¬ Passes env (entryPath root name) ∧ steps = rest)) ∨
    (¬ Dots name ∧ isDirectory = false ∧ ∃ times rest,
      parquetFilePathToTimestamp (entryPath root name) held.1 held.2 = some times ∧
        planListing env root times entries = some rest ∧
          (FilePasses env held (entryPath root name) ∧
              steps = .file (entryPath root name) :: rest ∨
            ¬ FilePasses env held (entryPath root name) ∧ steps = rest)) := by
  rw [planListing] at hplan
  split_ifs at hplan with hdots hdirectory
  · exact .inl ⟨hdots, hplan⟩
  · obtain ⟨ts, hts, hplan⟩ := Option.bind_eq_some_iff.mp hplan
    refine .inr (.inl ⟨hdots, hdirectory, ?_⟩)
    rw [passes_iff hts]
    split_ifs at hplan with htest
    · obtain ⟨rest, hrest, rfl⟩ := Option.map_eq_some_iff.mp hplan
      exact ⟨rest, hrest, .inl ⟨htest, rfl⟩⟩
    · exact ⟨steps, hplan, .inr ⟨htest, rfl⟩⟩
  · obtain ⟨times, htimes, hplan⟩ := Option.bind_eq_some_iff.mp hplan
    refine .inr (.inr ⟨hdots, Bool.eq_false_of_not_eq_true hdirectory, times, ?_⟩)
    rw [filePasses_iff htimes]
    split_ifs at hplan with htest
    · obtain ⟨rest, hrest, rfl⟩ := Option.map_eq_some_iff.mp hplan
      exact ⟨rest, htimes, hrest, .inl ⟨htest, rfl⟩⟩
    · exact ⟨steps, htimes, hplan, .inr ⟨htest, rfl⟩⟩

/-- The directories entered are those whose times are in the window. -/
theorem enter_mem_planListing_iff {root name : Text} {entries : List (Text × Bool)} :
    ∀ {held : ℤ × ℤ} {steps : List QfsStep}, planListing env root held entries = some steps →
      (.enter name ∈ steps ↔
        (name, true) ∈ entries ∧ ¬ Dots name ∧ Passes env (entryPath root name)) := by
  induction entries with
  | nil =>
    intro held steps hplan
    cases hplan
    simp only [List.not_mem_nil, false_and]
  | cons entry entries ih =>
    obtain ⟨first, isDirectory⟩ := entry
    intro held steps hplan
    rcases planListing_cons_cases hplan with ⟨hdots, hrest⟩ |
      ⟨hdots, rfl, rest, hrest, ⟨hpasses, rfl⟩ | ⟨hfails, rfl⟩⟩ |
      ⟨hdots, rfl, times, rest, -, hrest, ⟨-, rfl⟩ | ⟨-, rfl⟩⟩
    · rw [ih hrest, List.mem_cons, Prod.mk.injEq]
      constructor
      · exact fun h ↦ ⟨.inr h.1, h.2⟩
      · rintro ⟨⟨rfl, -⟩ | hmem, hnot, hpasses⟩
        · exact absurd hdots hnot
        · exact ⟨hmem, hnot, hpasses⟩
    · rw [List.mem_cons, QfsStep.enter.injEq, ih hrest, List.mem_cons, Prod.mk.injEq]
      constructor
      · rintro (rfl | ⟨hmem, hrest⟩)
        · exact ⟨.inl ⟨rfl, rfl⟩, hdots, hpasses⟩
        · exact ⟨.inr hmem, hrest⟩
      · rintro ⟨⟨rfl, -⟩ | hmem, hrest⟩
        · exact .inl rfl
        · exact .inr ⟨hmem, hrest⟩
    · rw [ih hrest, List.mem_cons, Prod.mk.injEq]
      constructor
      · exact fun h ↦ ⟨.inr h.1, h.2⟩
      · rintro ⟨⟨rfl, -⟩ | hmem, hnot, hpasses⟩
        · exact absurd hpasses hfails
        · exact ⟨hmem, hnot, hpasses⟩
    · simp only [List.mem_cons, ih hrest, reduceCtorEq, false_or, Prod.mk.injEq, Bool.true_eq_false,
        and_false]
    · simp only [List.mem_cons, ih hrest, Prod.mk.injEq, reduceCtorEq, and_false, false_or]

/-- A file is pushed only if it is listed and may be in the window. -/
theorem passes_of_file_mem_planListing {root fileName : Text} {entries : List (Text × Bool)} :
    ∀ {held : ℤ × ℤ} {steps : List QfsStep}, planListing env root held entries = some steps →
      .file fileName ∈ steps → (∃ name, (name, false) ∈ entries ∧ ¬ Dots name ∧
        fileName = entryPath root name) ∧ ∃ held, FilePasses env held fileName := by
  induction entries with
  | nil =>
    intro held steps hplan hmem
    cases hplan
    cases hmem
  | cons entry entries ih =>
    obtain ⟨first, isDirectory⟩ := entry
    intro held steps hplan hmem
    have hlater : ∀ {held' : ℤ × ℤ} {rest : List QfsStep},
        planListing env root held' entries = some rest → .file fileName ∈ rest →
          (∃ name, (name, false) ∈ (first, isDirectory) :: entries ∧ ¬ Dots name ∧
            fileName = entryPath root name) ∧ ∃ held, FilePasses env held fileName := by
      intro held' rest hrest hmem
      obtain ⟨⟨name, hname, hnot, heq⟩, hpasses⟩ := ih hrest hmem
      exact ⟨⟨name, List.mem_cons_of_mem _ hname, hnot, heq⟩, hpasses⟩
    rcases planListing_cons_cases hplan with ⟨-, hrest⟩ |
      ⟨-, rfl, rest, hrest, ⟨-, rfl⟩ | ⟨-, rfl⟩⟩ |
      ⟨hdots, rfl, times, rest, -, hrest, ⟨hpasses, rfl⟩ | ⟨-, rfl⟩⟩
    · exact hlater hrest hmem
    · rcases List.mem_cons.mp hmem with heq | hmem
      · cases heq
      · exact hlater hrest hmem
    · exact hlater hrest hmem
    · rcases List.mem_cons.mp hmem with heq | hmem
      · cases heq
        exact ⟨⟨first, List.mem_cons_self .., hdots, rfl⟩, held, hpasses⟩
      · exact hlater hrest hmem
    · exact hlater hrest hmem

/-- A file that is listed is pushed if it is in the window in any case. -/
theorem file_mem_planListing {root name : Text} (hdots : ¬ Dots name)
    (hpasses : ∀ held, FilePasses env held (entryPath root name)) {entries : List (Text × Bool)}
    (hmem : (name, false) ∈ entries) :
    ∀ {held : ℤ × ℤ} {steps : List QfsStep}, planListing env root held entries = some steps →
      .file (entryPath root name) ∈ steps := by
  induction entries with
  | nil => cases hmem
  | cons entry entries ih =>
    obtain ⟨first, isDirectory⟩ := entry
    intro held steps hplan
    rcases planListing_cons_cases hplan with ⟨hfirst, hrest⟩ |
      ⟨-, rfl, rest, hrest, ⟨-, rfl⟩ | ⟨-, rfl⟩⟩ |
      ⟨-, rfl, times, rest, -, hrest, ⟨-, rfl⟩ | ⟨hfails, rfl⟩⟩
    · rcases List.mem_cons.mp hmem with heq | hmem
      · cases heq
        exact absurd hfirst hdots
      · exact ih hmem hrest
    · rcases List.mem_cons.mp hmem with heq | hmem
      · cases heq
      · exact List.mem_cons_of_mem _ (ih hmem hrest)
    · rcases List.mem_cons.mp hmem with heq | hmem
      · cases heq
      · exact ih hmem hrest
    · rcases List.mem_cons.mp hmem with heq | hmem
      · cases heq
        exact List.mem_cons_self ..
      · exact List.mem_cons_of_mem _ (ih hmem hrest)
    · rcases List.mem_cons.mp hmem with heq | hmem
      · cases heq
        exact absurd (hpasses held) hfails
      · exact ih hmem hrest

/-- The tests of a listing come to an end exactly if the paths of its files have dashes. -/
theorem exists_planListing_iff {root : Text} {entries : List (Text × Bool)} :
    ∀ {held : ℤ × ℤ}, (∃ steps, planListing env root held entries = some steps) ↔
      ∀ name, (name, false) ∈ entries → ¬ Dots name → '-' ∈ entryPath root name := by
  induction entries with
  | nil => exact fun {_} ↦ iff_of_true ⟨[], rfl⟩ fun _ hmem ↦ (List.not_mem_nil hmem).elim
  | cons entry entries ih =>
    obtain ⟨first, isDirectory⟩ := entry
    intro held
    constructor
    · rintro ⟨steps, hplan⟩ name hmem hnot
      have hlater : ∀ {held' : ℤ × ℤ} {rest : List QfsStep},
          planListing env root held' entries = some rest → (name, false) ∈ entries →
            '-' ∈ entryPath root name :=
        fun {_} {rest} hrest hmem ↦ ih.mp ⟨rest, hrest⟩ name hmem hnot
      rcases planListing_cons_cases hplan with ⟨hdots, hrest⟩ | ⟨-, rfl, rest, hrest, -⟩ |
        ⟨-, rfl, times, rest, htimes, hrest, -⟩
      · rcases List.mem_cons.mp hmem with heq | hmem
        · cases heq
          exact absurd hdots hnot
        · exact hlater hrest hmem
      · rcases List.mem_cons.mp hmem with heq | hmem
        · cases heq
        · exact hlater hrest hmem
      · rcases List.mem_cons.mp hmem with heq | hmem
        · cases heq
          exact (exists_times_iff root _ held).mp ⟨times, htimes⟩
        · exact hlater hrest hmem
    · intro hdashed
      have hlater : ∀ held', ∃ rest, planListing env root held' entries = some rest :=
        fun held' ↦ ih.mpr fun name hmem ↦ hdashed name (List.mem_cons_of_mem _ hmem)
      rw [planListing]
      split_ifs with hdots hdirectory
      · exact hlater held
      · obtain ⟨rest, hrest⟩ := hlater held
        obtain ⟨ts, hts⟩ := exists_dirTimestamp env.zone root first
        rw [hts, Option.bind_some]
        split_ifs
        · exact ⟨_, Option.map_eq_some_iff.mpr ⟨rest, hrest, rfl⟩⟩
        · exact ⟨rest, hrest⟩
      · have hdash := hdashed first
          (Bool.eq_false_of_not_eq_true hdirectory ▸ List.mem_cons_self ..) hdots
        obtain ⟨times, htimes⟩ := (exists_times_iff root first held).mpr hdash
        obtain ⟨rest, hrest⟩ := hlater times
        rw [htimes, Option.bind_some]
        split_ifs
        · exact ⟨_, Option.map_eq_some_iff.mpr ⟨rest, hrest, rfl⟩⟩
        · exact ⟨rest, hrest⟩

/-! ### The walk and the files that it tests -/

/-- Assumes: a walk that returns. All files that it tests have a dash in their paths. -/
theorem dashed_of_qfsFiles {root fileName : Text} (reached : QfsReached env listing root fileName) :
    ∀ {depth : ℕ} {callers files : List Text},
      qfsFiles env listing stack depth callers root = some files → '-' ∈ fileName := by
  induction reached with
  | @file root name hmem hdots =>
    intro depth callers files hfiles
    cases depth with
    | zero => cases hfiles
    | succ depth =>
      obtain ⟨steps, hplan, -⟩ := Option.bind_eq_some_iff.mp hfiles
      exact exists_planListing_iff.mp ⟨steps, hplan⟩ name hmem hdots
  | enter henters _ ih =>
    intro depth callers files hfiles
    cases depth with
    | zero => cases hfiles
    | succ depth =>
      obtain ⟨steps, hplan, hsteps⟩ := Option.bind_eq_some_iff.mp hfiles
      obtain ⟨found, hfound⟩ :=
        entered_of_stepFiles hsteps ((enter_mem_planListing_iff hplan).mpr henters)
      exact ih hfound

/-- Assumes: a walk that returns. The bare names that it enters do not lead on for ever. -/
theorem acc_of_qfsFiles : ∀ {depth : ℕ} {callers files : List Text} {root : Text},
    qfsFiles env listing stack depth callers root = some files → Acc (Enters env listing) root
  | 0, _, _, _, hfiles => by cases hfiles
  | depth + 1, callers, files, root, hfiles => by
    obtain ⟨steps, hplan, hsteps⟩ := Option.bind_eq_some_iff.mp hfiles
    refine .intro root fun name henters ↦ ?_
    obtain ⟨found, hfound⟩ :=
      entered_of_stepFiles hsteps ((enter_mem_planListing_iff hplan).mpr henters)
    exact acc_of_qfsFiles hfound

/-- Assumes: bare names that do not lead on for ever, and dashes in the paths of all files. The walk
returns. -/
theorem exists_qfsFiles {root : Text} (hacc : Acc (Enters env listing) root) :
    ∀ callers, (∀ fileName, QfsReached env listing root fileName → '-' ∈ fileName) →
      ∃ depth files, qfsFiles env listing stack depth callers root = some files := by
  induction hacc with
  | intro root _ ih =>
    intro callers hdashed
    obtain ⟨steps, hplan⟩ := exists_planListing_iff.mpr fun name hmem hdots ↦
      hdashed _ (.file hmem hdots)
    obtain ⟨depth, hdepth⟩ := exists_depth fun name hname ↦ by
      have henters : Enters env listing name root := (enter_mem_planListing_iff hplan).mp hname
      exact ih name henters (root :: callers) fun fileName reached ↦
        hdashed fileName (.enter henters reached)
    obtain ⟨files, hfiles⟩ := exists_stepFiles hdepth
    exact ⟨depth + 1, files, by rw [qfsFiles, hplan, Option.bind_some, hfiles]⟩

/-- A walk pushes no file that it does not reach or that cannot be in the window. -/
theorem reached_of_mem_qfsFiles : ∀ {depth : ℕ} {callers files : List Text} {root : Text},
    qfsFiles env listing stack depth callers root = some files → ∀ fileName ∈ files,
      QfsReached env listing root fileName ∧ ∃ held, FilePasses env held fileName
  | 0, _, _, _, hfiles, _, _ => by cases hfiles
  | depth + 1, callers, files, root, hfiles, fileName, hmem => by
    obtain ⟨steps, hplan, hsteps⟩ := Option.bind_eq_some_iff.mp hfiles
    rcases (mem_stepFiles_iff hsteps fileName).mp hmem with hfile | ⟨name, found, hname, hfound, hmem⟩
    · obtain ⟨⟨name, hlisted, hdots, rfl⟩, hpasses⟩ := passes_of_file_mem_planListing hplan hfile
      exact ⟨.file hlisted hdots, hpasses⟩
    · obtain ⟨reached, hpasses⟩ := reached_of_mem_qfsFiles hfound fileName hmem
      exact ⟨.enter ((enter_mem_planListing_iff hplan).mp hname) reached, hpasses⟩

/-- Assumes: a file that is reached, and is in the window in any case. It is pushed. -/
theorem mem_qfsFiles {root fileName : Text} (reached : QfsReached env listing root fileName)
    (hpasses : ∀ held, FilePasses env held fileName) :
    ∀ {depth : ℕ} {callers files : List Text},
      qfsFiles env listing stack depth callers root = some files → fileName ∈ files := by
  induction reached with
  | file hmem hdots =>
    intro depth callers files hfiles
    cases depth with
    | zero => cases hfiles
    | succ depth =>
      obtain ⟨steps, hplan, hsteps⟩ := Option.bind_eq_some_iff.mp hfiles
      exact (mem_stepFiles_iff hsteps _).mpr (.inl (file_mem_planListing hdots hpasses hmem hplan))
  | enter henters _ ih =>
    intro depth callers files hfiles
    cases depth with
    | zero => cases hfiles
    | succ depth =>
      obtain ⟨steps, hplan, hsteps⟩ := Option.bind_eq_some_iff.mp hfiles
      have hname := (enter_mem_planListing_iff hplan).mpr henters
      obtain ⟨found, hfound⟩ := entered_of_stepFiles hsteps hname
      exact (mem_stepFiles_iff hsteps _).mpr (.inr ⟨_, found, hname, hfound, ih hpasses hfound⟩)

/-! ### Listings in another order -/

theorem QfsReached.relisted {listing' : Text → List (Text × Bool)}
    (hperm : ∀ path, (listing path).Perm (listing' path)) {root fileName : Text}
    (reached : QfsReached env listing root fileName) : QfsReached env listing' root fileName := by
  induction reached with
  | file hmem hdots => exact .file ((hperm _).mem_iff.mp hmem) hdots
  | enter henters _ ih => exact .enter ⟨(hperm _).mem_iff.mp henters.1, henters.2⟩ ih

theorem acc_relisted {listing' : Text → List (Text × Bool)}
    (hperm : ∀ path, (listing path).Perm (listing' path)) {root : Text}
    (hacc : Acc (Enters env listing) root) : Acc (Enters env listing') root := by
  induction hacc with
  | intro root _ ih =>
    exact .intro root fun name henters ↦ ih name ⟨(hperm root).mem_iff.mpr henters.1, henters.2⟩

/-- An entry can be listed first. -/
theorem exists_perm_update {root : Text} {entry : Text × Bool} (hmem : entry ∈ listing root) :
    ∃ rest, (listing root).Perm (entry :: rest) ∧
      ∀ path, (listing path).Perm (Function.update listing root (entry :: rest) path) := by
  obtain ⟨front, back, hlisting⟩ := List.append_of_mem hmem
  have hperm : (listing root).Perm (entry :: (front ++ back)) := by
    rw [hlisting]
    exact List.perm_middle
  refine ⟨front ++ back, hperm, fun path ↦ ?_⟩
  by_cases hpath : path = root
  · rw [hpath, Function.update_self]
    exact hperm
  · rw [Function.update_of_ne hpath]

/-- Assumes: a file that is reached, and values with which it is in the window. Where its directory
lists it first, and the variables hold these values, it is pushed. -/
theorem exists_listing_mem {root fileName : Text} (reached : QfsReached env listing root fileName)
    {held : ℤ × ℤ} (hpasses : FilePasses env held fileName) :
    ∃ listing', (∀ path, (listing path).Perm (listing' path)) ∧ ∀ depth callers files,
      qfsFiles env listing' (fun _ ↦ held) depth callers root = some files → fileName ∈ files := by
  induction reached with
  | @file root name hmem hdots =>
    obtain ⟨rest, -, hperm⟩ := exists_perm_update hmem
    refine ⟨_, hperm, fun depth callers files hfiles ↦ ?_⟩
    cases depth with
    | zero => cases hfiles
    | succ depth =>
      obtain ⟨steps, hplan, hsteps⟩ := Option.bind_eq_some_iff.mp hfiles
      rw [Function.update_self] at hplan
      refine (mem_stepFiles_iff hsteps _).mpr (.inl ?_)
      rcases planListing_cons_cases hplan with ⟨hfirst, -⟩ | ⟨-, hfile, -⟩ |
        ⟨-, -, times, rest, -, -, ⟨-, rfl⟩ | ⟨hfails, -⟩⟩
      · exact absurd hfirst hdots
      · cases hfile
      · exact List.mem_cons_self ..
      · exact absurd hpasses hfails
  | enter henters _ ih =>
    obtain ⟨listing', hperm, hpushed⟩ := ih hpasses
    refine ⟨listing', hperm, fun depth callers files hfiles ↦ ?_⟩
    cases depth with
    | zero => cases hfiles
    | succ depth =>
      obtain ⟨steps, hplan, hsteps⟩ := Option.bind_eq_some_iff.mp hfiles
      have hname := (enter_mem_planListing_iff hplan).mpr
        ⟨(hperm _).mem_iff.mp henters.1, henters.2⟩
      obtain ⟨found, hfound⟩ := entered_of_stepFiles hsteps hname
      exact (mem_stepFiles_iff hsteps _).mpr
        (.inr ⟨_, found, hname, hfound, hpushed _ _ _ hfound⟩)

/-! ### Paths that are absolute and paths that are not -/

variable {store : QfsStore}

mutual

theorem named_findInEntry (root path : Text) : ∀ entry : DfsEntry, DfsEntry.Named entry →
    ∀ {contents : List DfsEntry}, findInEntry root path entry = some contents → AllNamed contents
  | .file _, _, _, hfind => by cases hfind
  | .directory name contents, hnamed, found, hfind => by
    rw [findInEntry] at hfind
    split_ifs at hfind
    · rw [← Option.some.inj hfind]
      exact hnamed.2
    · exact named_findInEntries _ path contents hnamed.2 hfind

/-- The names in a directory of the tree are names of entries. -/
theorem named_findInEntries (root path : Text) : ∀ entries : List DfsEntry, AllNamed entries →
    ∀ {contents : List DfsEntry}, findInEntries root path entries = some contents →
      AllNamed contents
  | [], _, _, hfind => by cases hfind
  | entry :: entries, hnamed, found, hfind => by
    rw [findInEntries] at hfind
    split at hfind
    · next contents hentry =>
      rw [← Option.some.inj hfind]
      exact named_findInEntry root path entry hnamed.1 hentry
    · exact named_findInEntries root path entries hnamed.2.2 hfind

end

theorem entryName_of_allNamed : ∀ {contents : List DfsEntry}, AllNamed contents →
    ∀ entry ∈ contents.map nameKind, EntryName entry.1
  | [], _, _, hentry => (List.not_mem_nil hentry).elim
  | first :: contents, hnamed, entry, hentry => by
    rcases List.mem_cons.mp hentry with rfl | hentry
    · cases first with
      | file name => exact hnamed.1
      | directory name sub => exact hnamed.1.1
    · exact entryName_of_allNamed hnamed.2.2 entry hentry

theorem named_of_mem : ∀ {contents : List DfsEntry}, AllNamed contents →
    ∀ {name : Text} {listed : List DfsEntry}, .directory name listed ∈ contents → AllNamed listed
  | [], _, _, _, hmem => (List.not_mem_nil hmem).elim
  | first :: contents, hnamed, name, listed, hmem => by
    rcases List.mem_cons.mp hmem with rfl | hmem
    · exact hnamed.1.2
    · exact named_of_mem hnamed.2.2 hmem

/-- What is listed are names of entries, but for the two dots. -/
theorem entryName_of_mem_readdir {path : Text} {entry : Text × Bool}
    (hentry : entry ∈ store.readdir path) (hdots : ¬ Dots entry.1) : EntryName entry.1 := by
  unfold QfsStore.readdir at hentry
  split at hentry
  · next contents hfind =>
    have hnamed : AllNamed contents := by
      unfold QfsStore.find at hfind
      split_ifs at hfind
      · rw [← Option.some.inj hfind]
        exact store.named
      · exact named_findInEntries _ _ _ store.named hfind
    rcases List.mem_cons.mp hentry with rfl | hentry
    · exact absurd (.inl rfl) hdots
    · rcases List.mem_cons.mp hentry with rfl | hentry
      · exact absurd (.inr rfl) hdots
      · exact entryName_of_allNamed hnamed entry hentry
  · exact store.namedElsewhere path entry hentry

/-- The first character of a path. -/
theorem head?_entryPath {root : Text} (hroot : root ≠ []) (name : Text) :
    (entryPath root name).head? = root.head? := by
  rw [entryPath, List.head?_append_of_ne_nil _ hroot]

/-- A path whose first character is not a slash. -/
def Bare (path : Text) : Prop := path ≠ [] ∧ path.head? ≠ some '/'

theorem bare_of_entryName {name : Text} (hname : EntryName name) : Bare name :=
  ⟨hname.1, fun hhead ↦ hname.2.1 (List.mem_of_head? hhead)⟩

/-- From a bare name only bare paths are reached. -/
theorem bare_of_qfsReached {root fileName : Text}
    (reached : QfsReached env store.readdir root fileName) (hroot : Bare root) : Bare fileName := by
  induction reached with
  | @file root name hmem hdots =>
    refine ⟨?_, ?_⟩
    · simp only [entryPath, ne_eq, List.append_eq_nil_iff, List.cons_ne_nil, and_false,
        not_false_eq_true]
    · rw [head?_entryPath hroot.1]
      exact hroot.2
  | enter henters _ ih =>
    exact ih (bare_of_entryName (entryName_of_mem_readdir henters.1 henters.2.1))

/-- The file lies in a directory at or below `root`. -/
def Below (root fileName : Text) : Prop :=
  ∃ directory name, root <+: directory ∧ '/' ∉ name ∧ fileName = entryPath directory name

theorem prefix_entryPath (root name : Text) : root <+: entryPath root name :=
  List.prefix_append root _

/-- The files that are reached from a directory lie in it or below it. -/
theorem below_of_reached {root fileName : Text} {contents : List DfsEntry}
    (reached : Reached env root contents fileName) (hnamed : AllNamed contents) :
    Below root fileName := by
  induction reached with
  | @file root name contents hmem =>
    exact ⟨root, name, List.prefix_refl root,
      (entryName_of_allNamed hnamed (name, false) (List.mem_map.mpr ⟨_, hmem, rfl⟩)).2.1, rfl⟩
  | enter hmem _ _ ih =>
    obtain ⟨directory, last, hprefix, hlast⟩ := ih (named_of_mem hnamed hmem)
    exact ⟨directory, last, (prefix_entryPath ..).trans hprefix, hlast⟩

/-- What lies below an absolute path is not bare. -/
theorem not_bare_of_below {root fileName : Text} (hroot : root.head? = some '/')
    (h : Below root fileName) : ¬ Bare fileName := by
  obtain ⟨directory, name, ⟨rest, rfl⟩, -, rfl⟩ := h
  intro hbare
  have hne : root ≠ [] := by
    rintro rfl
    cases hroot
  have hne' : root ++ rest ≠ [] := fun heq ↦ hne (List.append_eq_nil_iff.mp heq).1
  refine hbare.2 ?_
  rw [head?_entryPath hne', List.head?_append_of_ne_nil _ hne, hroot]

/-- A file below a directory of `root` is not a file directly in `root`. -/
theorem ne_of_below {root sub name fileName : Text} (hname : '/' ∉ name)
    (h : Below (entryPath root sub) fileName) : fileName ≠ entryPath root name := by
  obtain ⟨directory, last, hprefix, hlast, rfl⟩ := h
  intro heq
  obtain ⟨rfl, -⟩ := append_cons_inj hlast hname heq
  have hlength := hprefix.length_le
  rw [entryPath, List.length_append, List.length_cons] at hlength
  omega

/-- The files that a store lists in its root. -/
theorem mem_readdir_root_file {name : Text} :
    (name, false) ∈ store.readdir store.root ↔ .file name ∈ store.contents := by
  rw [QfsStore.readdir, QfsStore.find, if_pos rfl]
  simp only [List.mem_cons, Prod.mk.injEq, Bool.false_eq_true, and_false, false_or, List.mem_map]
  constructor
  · rintro ⟨entry, hmem, hkind⟩
    cases entry with
    | file other =>
      cases hkind
      exact hmem
    | directory other listed => cases hkind
  · exact fun hmem ↦ ⟨_, hmem, rfl⟩

/-- The directories that a store lists in its root. -/
theorem mem_readdir_root_directory {name : Text} :
    (name, true) ∈ store.readdir store.root ∧ ¬ Dots name ↔
      ∃ listed, .directory name listed ∈ store.contents := by
  rw [QfsStore.readdir, QfsStore.find, if_pos rfl]
  simp only [List.mem_cons, Prod.mk.injEq, and_true, List.mem_map]
  constructor
  · rintro ⟨rfl | rfl | ⟨entry, hmem, hkind⟩, hdots⟩
    · exact absurd (.inl rfl) hdots
    · exact absurd (.inr rfl) hdots
    · cases entry with
      | file other => cases hkind
      | directory other listed =>
        cases hkind
        exact ⟨listed, hmem⟩
  · rintro ⟨listed, hmem⟩
    have hname : EntryName name :=
      entryName_of_allNamed store.named (name, true) (List.mem_map.mpr ⟨_, hmem, rfl⟩)
    exact ⟨.inr (.inr ⟨_, hmem, rfl⟩), not_or.mpr hname.2.2⟩

theorem not_dots_of_file {name : Text} (hmem : .file name ∈ store.contents) : ¬ Dots name :=
  not_or.mpr (entryName_of_allNamed store.named (name, false)
    (List.mem_map.mpr ⟨_, hmem, rfl⟩)).2.2

theorem nodup_names : ∀ {contents : List DfsEntry}, AllNamed contents →
    (contents.map fun entry ↦ (nameKind entry).1).Nodup
  | [], _ => List.nodup_nil
  | entry :: contents, hnamed => by
    refine List.nodup_cons.mpr ⟨fun hmem ↦ ?_, nodup_names hnamed.2.2⟩
    obtain ⟨other, hother, heq⟩ := List.mem_map.mp hmem
    exact hnamed.2.1 other hother heq

/-- The names that a store lists in its root are different. -/
theorem nodup_readdir_root : ((store.readdir store.root).map Prod.fst).Nodup := by
  have hnone : ∀ name, Dots name → name ∉ store.contents.map fun entry ↦ (nameKind entry).1 := by
    intro name hdots hmem
    obtain ⟨entry, hentry, rfl⟩ := List.mem_map.mp hmem
    have hname := entryName_of_allNamed store.named _ (List.mem_map.mpr ⟨entry, hentry, rfl⟩)
    exact not_or.mpr hname.2.2 hdots
  rw [QfsStore.readdir, QfsStore.find, if_pos rfl]
  simp only [List.map_cons, List.map_map, Function.comp_def, List.nodup_cons, List.mem_cons,
    not_or]
  exact ⟨⟨by decide, hnone _ (.inl rfl)⟩, hnone _ (.inr rfl), nodup_names store.named⟩

/-! ### The same files on both stores -/

/-- In whatever order HDFS and QFS list their directories, and whatever the uninitialised variables of
either walk hold, both walks return and push the same files. -/
def SameFiles (env : ScanEnv) (store : QfsStore) : Prop :=
  ∀ (contents : List DfsEntry) (listing : Text → List (Text × Bool)) (hdfsStack : Text → ℤ × ℤ)
    (qfsStack : List Text → ℤ × ℤ), Relisted store.contents contents →
      (∀ path, (store.readdir path).Perm (listing path)) → ∃ stHdfs depth stQfs,
        HdfsParquetReader.scanFileImpl (withStack env hdfsStack) store.root contents .start =
            some stHdfs ∧
          scanFileImpl env listing qfsStack depth [] store.root .start = some stQfs ∧
            ∀ fileName, (⟨fileName, 0⟩ : DfsFileName) ∈ stHdfs.fileListRing ↔
              ⟨fileName, 0⟩ ∈ stQfs.fileListRing

/-- A file of the root has a dash in its path, and is in the window or not by its path alone. Below a
directory of the root that is entered, and where its bare name leads in finitely many steps, all files
have dashes in their paths and none can be in the window. -/
structure FirstLevelOnly (env : ScanEnv) (store : QfsStore) : Prop where
  files : ∀ name, .file name ∈ store.contents →
    '-' ∈ entryPath store.root name ∧ Decided env (entryPath store.root name)
  below : ∀ name listed, .directory name listed ∈ store.contents →
    Passes env (entryPath store.root name) → ∀ fileName,
      Reached env (entryPath store.root name) listed fileName →
        '-' ∈ fileName ∧ Outside env fileName
  finite : ∀ name listed, .directory name listed ∈ store.contents →
    Passes env (entryPath store.root name) → Acc (Enters env store.readdir) name
  bare : ∀ name listed, .directory name listed ∈ store.contents →
    Passes env (entryPath store.root name) → ∀ fileName,
      QfsReached env store.readdir name fileName → '-' ∈ fileName ∧ Outside env fileName

theorem mem_fileListRing_after {files : List Text} {polls : ℕ} (fileName : Text) :
    (⟨fileName, 0⟩ : DfsFileName) ∈ (ScanState.start.after files polls).fileListRing ↔
      fileName ∈ files := by
  simp [ScanState.after, ScanState.start]

/-- The walks on both stores push the same files, in the terms of their plans. -/
def SamePlans (env : ScanEnv) (store : QfsStore) : Prop :=
  ∀ contents listing hdfsStack qfsStack, Relisted store.contents contents →
    (∀ path, (store.readdir path).Perm (listing path)) → ∃ plan depth files,
      scanPlan (withStack env hdfsStack) store.root (hdfsStack store.root) contents = some plan ∧
        qfsFiles env listing qfsStack depth [] store.root = some files ∧
          ∀ fileName, fileName ∈ chosenFiles plan ↔ fileName ∈ files

/-- The walks on both stores by the files they push. -/
theorem sameFiles_iff_samePlans (hcontinue : ∀ poll, env.continueSearching poll = true) :
    SameFiles env store ↔ SamePlans env store := by
  refine forall_congr' fun contents ↦ forall_congr' fun listing ↦ forall_congr' fun hdfsStack ↦
    forall_congr' fun qfsStack ↦ forall_congr' fun _ ↦ forall_congr' fun _ ↦ ?_
  have hends := @scanFileImpl_follows env listing qfsStack hcontinue
  constructor
  · rintro ⟨stHdfs, depth, stQfs, hscan, hwalk, hsame⟩
    obtain ⟨plan, hplan⟩ := exists_scanPlan (withStack env hdfsStack) hcontinue store.root _ .start
      contents hscan
    obtain ⟨polls, hscan'⟩ := scanEntries_plan (withStack env hdfsStack) hcontinue store.root _ .start
      contents hplan
    cases hscan.symm.trans hscan'
    have hend := hends depth [] store.root .start
    rw [hwalk] at hend
    rcases hfiles : qfsFiles env listing qfsStack depth [] store.root with _ | files
    · rw [hfiles] at hend
      cases hend
    · rw [hfiles] at hend
      obtain ⟨polls', hafter⟩ := hend
      cases hafter
      refine ⟨plan, depth, files, hplan, hfiles, fun fileName ↦ ?_⟩
      rw [← mem_fileListRing_after, hsame, mem_fileListRing_after]
  · rintro ⟨plan, depth, files, hplan, hfiles, hsame⟩
    obtain ⟨polls, hscan⟩ := scanEntries_plan (withStack env hdfsStack) hcontinue store.root _ .start
      contents hplan
    have hend := hends depth [] store.root .start
    rw [hfiles] at hend
    obtain ⟨polls', hwalk⟩ := hend
    refine ⟨_, depth, _, hscan, hwalk, fun fileName ↦ ?_⟩
    rw [mem_fileListRing_after, mem_fileListRing_after, hsame]

theorem enters_root {name : Text} {listed : List DfsEntry}
    (hmem : .directory name listed ∈ store.contents)
    (hpasses : Passes env (entryPath store.root name)) :
    Enters env store.readdir name store.root :=
  have hlisted := mem_readdir_root_directory.mpr ⟨listed, hmem⟩
  ⟨hlisted.1, hlisted.2, hpasses⟩

theorem exists_of_enters_root {name : Text} (henters : Enters env store.readdir name store.root) :
    ∃ listed, .directory name listed ∈ store.contents ∧ Passes env (entryPath store.root name) := by
  obtain ⟨listed, hmem⟩ := mem_readdir_root_directory.mp ⟨henters.1, henters.2.1⟩
  exact ⟨listed, hmem, henters.2.2⟩

/-- What is reached through a directory that is entered is bare. -/
theorem bare_of_enters {root name fileName : Text} (henters : Enters env store.readdir name root)
    (reached : QfsReached env store.readdir name fileName) : Bare fileName :=
  bare_of_qfsReached reached
    (bare_of_entryName (entryName_of_mem_readdir henters.1 henters.2.1))

theorem slash_not_mem_of_file {name : Text} (hmem : .file name ∈ store.contents) : '/' ∉ name :=
  (entryName_of_allNamed store.named (name, false) (List.mem_map.mpr ⟨_, hmem, rfl⟩)).2.1

/-- Where the names keep all that passes on the first level, both walks return with the same files. -/
theorem samePlans_of_firstLevelOnly (h : FirstLevelOnly env store) : SamePlans env store := by
  intro contents listing hdfsStack qfsStack hrelisted hperm
  have hdashed : ∀ fileName, Reached env store.root store.contents fileName → '-' ∈ fileName := by
    intro fileName reached
    cases reached with
    | file hmem => exact (h.files _ hmem).1
    | enter hmem hpasses reached => exact (h.below _ _ hmem hpasses _ reached).1
  have hdashed' : ∀ fileName, QfsReached env store.readdir store.root fileName →
      '-' ∈ fileName := by
    intro fileName reached
    cases reached with
    | file hmem hdots => exact (h.files _ (mem_readdir_root_file.mp hmem)).1
    | enter henters reached =>
      obtain ⟨listed, hmem, hpasses⟩ := exists_of_enters_root henters
      exact (h.bare _ _ hmem hpasses _ reached).1
  have hacc : Acc (Enters env store.readdir) store.root := .intro _ fun name henters ↦ by
    obtain ⟨listed, hmem, hpasses⟩ := exists_of_enters_root henters
    exact h.finite name listed hmem hpasses
  obtain ⟨plan, hplan⟩ : ∃ plan, scanPlan (withStack env hdfsStack) store.root (hdfsStack store.root)
      contents = some plan :=
    exists_scanPlan_of_dashed store.root contents (hdfsStack store.root) fun fileName reached ↦
      hdashed fileName (reached.relisted hrelisted.symm)
  obtain ⟨depth, files, hfiles⟩ : ∃ depth files,
      qfsFiles env listing qfsStack depth [] store.root = some files :=
    exists_qfsFiles (acc_relisted hperm hacc) [] fun fileName reached ↦
      hdashed' fileName (reached.relisted fun path ↦ (hperm path).symm)
  refine ⟨plan, depth, files, hplan, hfiles, fun fileName ↦ ⟨fun hmem ↦ ?_, fun hmem ↦ ?_⟩⟩
  · obtain ⟨reached, held, hheld⟩ := reached_of_mem_chosenFiles store.root contents hplan fileName hmem
    cases reached.relisted hrelisted.symm with
    | file hfile =>
      have hlisted : QfsReached env store.readdir store.root _ :=
        .file (mem_readdir_root_file.mpr hfile) (not_dots_of_file hfile)
      exact mem_qfsFiles (hlisted.relisted hperm)
        (fun held' ↦ (h.files _ hfile).2 held held' hheld) hfiles
    | enter hdirectory hpasses reached =>
      exact absurd hheld ((h.below _ _ hdirectory hpasses _ reached).2 held)
  · obtain ⟨reached, held, hheld⟩ := reached_of_mem_qfsFiles hfiles fileName hmem
    cases reached.relisted fun path ↦ (hperm path).symm with
    | file hlisted hdots =>
      have hfile := mem_readdir_root_file.mp hlisted
      have reached : Reached env store.root store.contents _ := .file hfile
      exact mem_chosenFiles (reached.relisted hrelisted)
        (fun held' ↦ (h.files _ hfile).2 held held' hheld) hplan
    | enter henters reached =>
      obtain ⟨listed, hdirectory, hpasses⟩ := exists_of_enters_root henters
      exact absurd hheld ((h.bare _ _ hdirectory hpasses _ reached).2 held)

/-- Assumes: a file of the root that is not in the window with the values `held`. Where QFS lists it
first, and the variables hold these values, it is not pushed. -/
theorem not_mem_qfsFiles_of_first {name : Text} (hmem : .file name ∈ store.contents) {held : ℤ × ℤ}
    (hfails : ¬ FilePasses env held (entryPath store.root name))
    {listing : Text → List (Text × Bool)} (hperm : ∀ path, (store.readdir path).Perm (listing path))
    {rest : List (Text × Bool)} (hfirst : listing store.root = (name, false) :: rest) {depth : ℕ}
    {callers files : List Text}
    (hfiles : qfsFiles env listing (fun _ ↦ held) depth callers store.root = some files) :
    entryPath store.root name ∉ files := by
  intro hpushed
  cases depth with
  | zero => cases hfiles
  | succ depth =>
    obtain ⟨steps, hplan, hsteps⟩ := Option.bind_eq_some_iff.mp hfiles
    rw [hfirst] at hplan
    rcases planListing_cons_cases hplan with ⟨hdots, -⟩ | ⟨-, hdirectory, -⟩ |
      ⟨-, -, times, later, -, hlater, ⟨hpasses, -⟩ | ⟨-, rfl⟩⟩
    · exact not_dots_of_file hmem hdots
    · cases hdirectory
    · exact hfails hpasses
    · rcases (mem_stepFiles_iff hsteps _).mp hpushed with hfile |
        ⟨sub, found, hname, hfound, hpushed⟩
      · -- the names in the root are different, so the file is not listed once more
        obtain ⟨⟨other, hother, -, heq⟩, -⟩ := passes_of_file_mem_planListing hlater hfile
        have hnodup := ((hperm store.root).map Prod.fst).nodup_iff.mp nodup_readdir_root
        rw [hfirst, List.map_cons, List.nodup_cons] at hnodup
        obtain rfl : name = other := List.cons_injective (List.append_cancel_left heq)
        exact hnodup.1 (List.mem_map.mpr ⟨_, hother, rfl⟩)
      · have henters : Enters env listing sub store.root := by
          rw [Enters, hfirst]
          exact (enter_mem_planListing_iff hplan).mp hname
        have henters' : Enters env store.readdir sub store.root :=
          ⟨(hperm _).mem_iff.mpr henters.1, henters.2⟩
        obtain ⟨reached, -⟩ := reached_of_mem_qfsFiles hfound _ hpushed
        exact not_bare_of_below store.absolute
          ⟨store.root, name, List.prefix_refl _, slash_not_mem_of_file hmem, rfl⟩
          (bare_of_enters henters' (reached.relisted fun path ↦ (hperm path).symm))

/-- A file of the root of which both walks always decide alike is in the window or not by its path. -/
theorem decided_of_samePlans (hsame : SamePlans env store) {name : Text}
    (hmem : .file name ∈ store.contents) : Decided env (entryPath store.root name) := by
  intro held held' hpasses
  by_contra hfails
  obtain ⟨contents, hrelisted, hchosen⟩ := exists_relisted_chosen (.file hmem) hpasses
  obtain ⟨rest, -, hperm⟩ := exists_perm_update (mem_readdir_root_file.mpr hmem)
  obtain ⟨plan, depth, files, hplan, hfiles, hiff⟩ :=
    hsame contents _ (fun _ ↦ held) (fun _ ↦ held') hrelisted hperm
  exact not_mem_qfsFiles_of_first hmem hfails hperm (Function.update_self ..) hfiles
    ((hiff _).mp (hchosen plan hplan))

/-- Below the first level nothing that HDFS reaches can be in the window, since QFS pushes paths with
more than one name after the root only where they are bare. -/
theorem outside_of_samePlans (hsame : SamePlans env store) {name fileName : Text}
    {listed : List DfsEntry} (hmem : .directory name listed ∈ store.contents)
    (hpasses : Passes env (entryPath store.root name))
    (reached : Reached env (entryPath store.root name) listed fileName) : Outside env fileName := by
  intro held hheld
  have hbelow := below_of_reached reached (named_of_mem store.named hmem)
  obtain ⟨contents, hrelisted, hchosen⟩ := exists_relisted_chosen (.enter hmem hpasses reached) hheld
  obtain ⟨plan, depth, files, hplan, hfiles, hiff⟩ :=
    hsame contents store.readdir (fun _ ↦ held) (fun _ ↦ held) hrelisted fun _ ↦ .refl _
  obtain ⟨reached', -⟩ := reached_of_mem_qfsFiles hfiles _ ((hiff _).mp (hchosen plan hplan))
  cases reached' with
  | file hlisted hdots =>
    exact ne_of_below (slash_not_mem_of_file (mem_readdir_root_file.mp hlisted)) hbelow rfl
  | enter henters reached' =>
    have hroot : store.root ≠ [] := by
      intro hnil
      have habsolute := store.absolute
      rw [hnil] at habsolute
      cases habsolute
    exact not_bare_of_below ((head?_entryPath hroot name).trans store.absolute) hbelow
      (bare_of_enters henters reached')

/-- Where the bare name leads nothing can be in the window, since HDFS pushes only absolute paths. -/
theorem bare_outside_of_samePlans (hsame : SamePlans env store) {name fileName : Text}
    (henters : Enters env store.readdir name store.root)
    (reached : QfsReached env store.readdir name fileName) : Outside env fileName := by
  intro held hheld
  obtain ⟨listing, hperm, hpushed⟩ := exists_listing_mem (.enter henters reached) hheld
  obtain ⟨plan, depth, files, hplan, hfiles, hiff⟩ :=
    hsame store.contents listing (fun _ ↦ held) (fun _ ↦ held) (.refl _) hperm
  obtain ⟨reached', -⟩ := reached_of_mem_chosenFiles store.root store.contents hplan fileName
    ((hiff fileName).mpr (hpushed depth [] files hfiles))
  exact not_bare_of_below store.absolute (below_of_reached reached' store.named)
    (bare_of_enters henters reached)

theorem firstLevelOnly_of_samePlans (hsame : SamePlans env store) : FirstLevelOnly env store := by
  obtain ⟨plan, depth, files, hplan, hfiles, -⟩ := hsame store.contents store.readdir
    (fun _ ↦ (0, 0)) (fun _ ↦ (0, 0)) (.refl _) fun _ ↦ .refl _
  exact {
    files := fun name hmem ↦
      ⟨dashed_of_scanPlan (.file hmem) hplan, decided_of_samePlans hsame hmem⟩
    below := fun name listed hmem hpasses fileName reached ↦
      ⟨dashed_of_scanPlan (.enter hmem hpasses reached) hplan,
        outside_of_samePlans hsame hmem hpasses reached⟩
    finite := fun name listed hmem hpasses ↦
      (acc_of_qfsFiles hfiles).inv (enters_root hmem hpasses)
    bare := fun name listed hmem hpasses fileName reached ↦
      ⟨dashed_of_qfsFiles (.enter (enters_root hmem hpasses) reached) hfiles,
        bare_outside_of_samePlans hsame (enters_root hmem hpasses) reached⟩ }

/-- Assumes: a search that is never called off. Whatever the orders in which the stores list their
directories, and whatever the uninitialised variables hold, both walks push the same files, exactly
if all that passes is kept on the first level and decided by the paths. -/
theorem sameFiles_iff (hcontinue : ∀ poll, env.continueSearching poll = true) :
    SameFiles env store ↔ FirstLevelOnly env store :=
  (sameFiles_iff_samePlans hcontinue).trans
    ⟨firstLevelOnly_of_samePlans, samePlans_of_firstLevelOnly⟩

end Walk

/-! ### Two stores -/

/-- A search for 1 September 2017 that is never called off. -/
def exampleScan : ScanEnv :=
  { zone := utc
    stime := 1504224000
    etime := 1504310399
    stack := fun _ ↦ (0, 0)
    continueSearching := fun _ ↦ true }

/-- The name of a file of that day. -/
def exampleFile : Text := "1504270800-1504274400-0.parquet".toList

/-- A store with the file under the root and an empty directory for the day. -/
def flatStore : QfsStore where
  root := "/snappy".toList
  contents := [.file exampleFile, .directory "20170901".toList []]
  elsewhere := fun _ ↦ []
  absolute := rfl
  named := by
    refine ⟨⟨by decide, by decide, by decide, by decide⟩, fun other hother ↦ ?_,
      ⟨⟨by decide, by decide, by decide, by decide⟩, trivial⟩,
      fun _ hother ↦ (List.not_mem_nil hother).elim, trivial⟩
    rw [List.mem_singleton.mp hother]
    decide
  namedElsewhere := fun _ _ hentry ↦ (List.not_mem_nil hentry).elim

/-- Both walks of that store push the file. -/
theorem sameFiles_flatStore : SameFiles exampleScan flatStore := by
  have hdirectory : ∀ name listed, .directory name listed ∈ flatStore.contents →
      name = "20170901".toList ∧ listed = [] := by
    intro name listed hmem
    rcases List.mem_cons.mp hmem with heq | hmem
    · cases heq
    · exact DfsEntry.directory.inj (List.mem_singleton.mp hmem)
  have hlisting : flatStore.readdir "20170901".toList = [] := rfl
  refine (sameFiles_iff fun _ ↦ rfl).mpr ⟨fun name hmem ↦ ?_, fun name listed hmem _ fileName h ↦ ?_,
    fun name listed hmem _ ↦ ?_, fun name listed hmem _ fileName h ↦ ?_⟩
  · obtain rfl : name = exampleFile := by
      rcases List.mem_cons.mp hmem with heq | hmem
      · exact DfsEntry.file.inj heq
      · cases List.mem_singleton.mp hmem
    exact ⟨by decide, fun _ _ hpasses ↦ hpasses⟩
  · obtain ⟨-, rfl⟩ := hdirectory name listed hmem
    cases h with
    | file hfile => cases hfile
    | enter hsub => cases hsub
  · obtain ⟨rfl, -⟩ := hdirectory name listed hmem
    refine .intro _ fun sub henters ↦ ?_
    have hsub := henters.1
    rw [hlisting] at hsub
    cases hsub
  · obtain ⟨rfl, -⟩ := hdirectory name listed hmem
    cases h with
    | file hfile =>
      rw [hlisting] at hfile
      cases hfile
    | enter henters =>
      have hsub := henters.1
      rw [hlisting] at hsub
      cases hsub

/-- The layout with second-level directories: the file in the directory for its day. -/
def nestedStore : QfsStore where
  root := "/snappy".toList
  contents := [.directory "20170901".toList [.file exampleFile]]
  elsewhere := fun _ ↦ []
  absolute := rfl
  named := by
    refine ⟨⟨⟨by decide, by decide, by decide, by decide⟩,
      ⟨by decide, by decide, by decide, by decide⟩, fun _ hother ↦ (List.not_mem_nil hother).elim,
      trivial⟩, fun _ hother ↦ (List.not_mem_nil hother).elim, trivial⟩
  namedElsewhere := fun _ _ hentry ↦ (List.not_mem_nil hentry).elim

/-- On HDFS the file is pushed, but on QFS the walk looks for the bare name of the directory. -/
theorem not_sameFiles_nestedStore : ¬ SameFiles exampleScan nestedStore := by
  intro hsame
  obtain ⟨stHdfs, depth, stQfs, hscan, hwalk, hfiles⟩ := hsame nestedStore.contents
    nestedStore.readdir (fun _ ↦ (0, 0)) (fun _ ↦ (0, 0)) (.refl _) fun _ ↦ .refl _
  have hpushed : stHdfs =
      ⟨[⟨"/snappy/20170901/1504270800-1504274400-0.parquet".toList, 0⟩], 1, 2⟩ :=
    Option.some.inj (hscan.symm.trans (by decide))
  rcases depth with _ | _ | depth
  · cases hwalk
  · cases hwalk
  · have hempty : scanFileImpl exampleScan nestedStore.readdir (fun _ ↦ (0, 0)) (depth + 2) []
        nestedStore.root .start = some ⟨[], 0, 1⟩ := rfl
    cases hwalk.symm.trans hempty
    rw [hpushed] at hfiles
    exact List.not_mem_nil ((hfiles _).mp (List.mem_singleton.mpr rfl))

end CppLearn.SearchEngine.QfsParquetReader
