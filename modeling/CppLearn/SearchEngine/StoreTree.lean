import CppLearn.SearchEngine.HdfsParquetReader

/-!
# The tree of a store

What a scan finds depends on more than the names in a store: a directory lists its entries in an
order of its own, and where a time cannot be read from the path of a file its variable keeps what it
held, which for the first file of a directory is whatever was on the stack. `Relisted` relates two
listings of one tree, and `Reached` the tree with the files that a scan tests.

The scan on HDFS comes to its end exactly if all these files have a dash in their paths
(`dashed_of_scanPlan`, `exists_scanPlan_of_dashed`). It chooses none that cannot be in the window
(`reached_of_mem_chosenFiles`), and each that can be is chosen in some listing, with some values on
the stack (`exists_relisted_chosen`).
-/

set_option autoImplicit false
set_option relaxedAutoImplicit false

namespace CppLearn.SearchEngine.StoreTree

open Foundation.DecimalText Foundation.LocalTime Foundation.TextSearch HdfsParquetReader Utils

/-! ### Listings of a tree -/

/-- Two listings of one tree, with the entries of each directory in any order. -/
inductive Relisted : List DfsEntry → List DfsEntry → Prop
  | nil : Relisted [] []
  | file (name : Text) {listing listing' : List DfsEntry} (rest : Relisted listing listing') :
      Relisted (.file name :: listing) (.file name :: listing')
  | directory (name : Text) {contents contents' listing listing' : List DfsEntry}
      (below : Relisted contents contents') (rest : Relisted listing listing') :
      Relisted (.directory name contents :: listing) (.directory name contents' :: listing')
  | swap (first second : DfsEntry) (listing : List DfsEntry) :
      Relisted (first :: second :: listing) (second :: first :: listing)
  | trans {first second third : List DfsEntry} (before : Relisted first second)
      (after : Relisted second third) : Relisted first third

mutual

theorem relisted_cons : ∀ (entry : DfsEntry) {listing listing' : List DfsEntry},
    Relisted listing listing' → Relisted (entry :: listing) (entry :: listing')
  | .file name, _, _, rest => .file name rest
  | .directory name contents, _, _, rest => .directory name (Relisted.refl contents) rest

/-- Every tree is a listing of itself. -/
theorem Relisted.refl : ∀ listing : List DfsEntry, Relisted listing listing
  | [] => .nil
  | entry :: listing => relisted_cons entry (Relisted.refl listing)

end

theorem Relisted.of_perm {listing listing' : List DfsEntry} (hperm : listing.Perm listing') :
    Relisted listing listing' := by
  induction hperm with
  | nil => exact .nil
  | cons entry _ ih => exact relisted_cons entry ih
  | swap first second listing => exact .swap second first listing
  | trans _ _ before after => exact before.trans after

theorem Relisted.symm {listing listing' : List DfsEntry} (relisted : Relisted listing listing') :
    Relisted listing' listing := by
  induction relisted with
  | nil => exact .nil
  | file name _ ih => exact .file name ih
  | directory name _ _ below ih => exact .directory name below ih
  | swap first second listing => exact .swap second first listing
  | trans _ _ before after => exact after.trans before

/-- Both have the same files. -/
theorem Relisted.mem_file {listing listing' : List DfsEntry} (relisted : Relisted listing listing')
    {name : Text} (hmem : .file name ∈ listing) : .file name ∈ listing' := by
  induction relisted with
  | nil => exact hmem
  | file other _ ih =>
    rcases List.mem_cons.mp hmem with heq | hmem
    · exact heq ▸ List.mem_cons_self ..
    · exact List.mem_cons_of_mem _ (ih hmem)
  | directory other _ _ _ ih =>
    rcases List.mem_cons.mp hmem with heq | hmem
    · cases heq
    · exact List.mem_cons_of_mem _ (ih hmem)
  | swap first second listing => exact (List.Perm.swap second first listing).mem_iff.mp hmem
  | trans _ _ before after => exact after (before hmem)

/-- Both have the same directories. -/
theorem Relisted.mem_directory {listing listing' : List DfsEntry}
    (relisted : Relisted listing listing') {name : Text} {contents : List DfsEntry}
    (hmem : .directory name contents ∈ listing) :
    ∃ contents', .directory name contents' ∈ listing' ∧ Relisted contents contents' := by
  induction relisted generalizing contents with
  | nil => cases hmem
  | file other _ ih =>
    rcases List.mem_cons.mp hmem with heq | hmem
    · cases heq
    · obtain ⟨contents', hmem', hbelow⟩ := ih hmem
      exact ⟨contents', List.mem_cons_of_mem _ hmem', hbelow⟩
  | directory other below _ _ ih =>
    rcases List.mem_cons.mp hmem with heq | hmem
    · obtain ⟨rfl, rfl⟩ := DfsEntry.directory.inj heq
      exact ⟨_, List.mem_cons_self .., below⟩
    · obtain ⟨contents', hmem', hbelow⟩ := ih hmem
      exact ⟨contents', List.mem_cons_of_mem _ hmem', hbelow⟩
  | swap first second listing =>
    exact ⟨contents, (List.Perm.swap second first listing).mem_iff.mp hmem, .refl contents⟩
  | trans _ _ before after =>
    obtain ⟨between, hbetween, hfirst⟩ := before hmem
    obtain ⟨contents', hmem', hsecond⟩ := after hbetween
    exact ⟨contents', hmem', hfirst.trans hsecond⟩

/-! ### The files that a scan tests -/

/-- The file lies in the directory `root`, or below it in directories that are all entered. -/
inductive Reached (env : ScanEnv) : Text → List DfsEntry → Text → Prop
  | file {root name : Text} {contents : List DfsEntry} (hmem : .file name ∈ contents) :
      Reached env root contents (entryPath root name)
  | enter {root name fileName : Text} {contents listed : List DfsEntry}
      (hmem : .directory name listed ∈ contents) (hpasses : Passes env (entryPath root name))
      (reached : Reached env (entryPath root name) listed fileName) :
      Reached env root contents fileName

/-- The file is in the window, with the values that `start_ts` and `end_ts` hold before it is
tested. -/
def FilePasses (env : ScanEnv) (held : ℤ × ℤ) (fileName : Text) : Prop :=
  ∃ times, parquetFilePathToTimestamp fileName held.1 held.2 = some times ∧
    env.stime ≤ times.2 ∧ times.1 ≤ env.etime

/-- What these variables hold makes no difference to the file. -/
def Decided (env : ScanEnv) (fileName : Text) : Prop :=
  ∀ held held', FilePasses env held fileName → FilePasses env held' fileName

/-- The file is not in the window, whatever they hold. -/
def Outside (env : ScanEnv) (fileName : Text) : Prop := ∀ held, ¬ FilePasses env held fileName

/-- The environment with other values on the stack. -/
def withStack (env : ScanEnv) (stack : Text → ℤ × ℤ) : ScanEnv := { env with stack := stack }

variable {env : ScanEnv} {stack : Text → ℤ × ℤ}

/-- More entries let more files be reached. -/
theorem Reached.of_subset {root fileName : Text} {contents contents' : List DfsEntry}
    (reached : Reached env root contents fileName)
    (hsubset : ∀ entry ∈ contents, entry ∈ contents') : Reached env root contents' fileName := by
  cases reached with
  | file hmem => exact .file (hsubset _ hmem)
  | enter hmem hpasses reached => exact .enter (hsubset _ hmem) hpasses reached

theorem Reached.relisted {root fileName : Text} {contents contents' : List DfsEntry}
    (reached : Reached env root contents fileName) (relisted : Relisted contents contents') :
    Reached env root contents' fileName := by
  induction reached generalizing contents' with
  | file hmem => exact .file (relisted.mem_file hmem)
  | enter hmem hpasses _ ih =>
    obtain ⟨listed', hmem', hbelow⟩ := relisted.mem_directory hmem
    exact .enter hmem' hpasses (ih hbelow)

theorem filePasses_iff {held times : ℤ × ℤ} {fileName : Text}
    (htimes : parquetFilePathToTimestamp fileName held.1 held.2 = some times) :
    FilePasses env held fileName ↔ env.stime ≤ times.2 ∧ times.1 ≤ env.etime := by
  simp only [FilePasses, htimes, Option.some.injEq, exists_eq_left']

/-- The times of a file can be looked for exactly if its path has a dash. -/
theorem exists_times_iff (root name : Text) (held : ℤ × ℤ) :
    (∃ times, parquetFilePathToTimestamp (entryPath root name) held.1 held.2 = some times) ↔
      '-' ∈ entryPath root name := by
  have hslash : '/' ∈ entryPath root name :=
    List.mem_append_right root (List.mem_cons_self ..)
  obtain ⟨slash, hfound⟩ := exists_strrchr hslash
  simp only [parquetFilePathToTimestamp, hfound]
  rcases hdash : strchr (entryPath root name) '-' with _ | dash
  · refine iff_of_false ?_ (strchr_eq_none hdash)
    rintro ⟨times, htimes⟩
    cases htimes
  · refine iff_of_true ⟨_, rfl⟩ ?_
    by_contra hnone
    cases hdash.symm.trans (strchr_of_not_mem hnone)

/-- A time can always be looked for in the path of a directory. -/
theorem exists_dirTimestamp (zone : TimeZone) (root name : Text) :
    ∃ ts, parquetFileDirToTimestamp zone (entryPath root name) = some ts := by
  have hslash : '/' ∈ entryPath root name :=
    List.mem_append_right root (List.mem_cons_self ..)
  obtain ⟨slash, hfound⟩ := exists_strrchr hslash
  exact ⟨_, Option.map_eq_some_iff.mpr ⟨slash, hfound, rfl⟩⟩

/-! ### The plan of a scan and the files it tests -/

/-- Every entry of a listing that is planned has been tested, and its files are among those of the
plan. -/
theorem exists_planEntry_of_mem {root : Text} {contents : List DfsEntry} {entry : DfsEntry}
    (hmem : entry ∈ contents) :
    ∀ {held : ℤ × ℤ} {plan : List ScanEntry}, scanPlan env root held contents = some plan →
      ∃ held' result, planEntry env root held' entry = some result ∧
        result.2.chosen ⊆ chosenFiles plan := by
  induction contents with
  | nil => cases hmem
  | cons first contents ih =>
    intro held plan hplan
    obtain ⟨held', planned, rest, hentry, hrest, rfl⟩ := exists_of_scanPlan_cons hplan
    rcases List.mem_cons.mp hmem with rfl | hmem
    · exact ⟨held, _, hentry, List.subset_append_left ..⟩
    · obtain ⟨held', result, hresult, hsubset⟩ := ih hmem hrest
      exact ⟨held', result, hresult, List.Subset.trans hsubset (List.subset_append_right ..)⟩

/-- Assumes: a scan that comes to its end. All files that it tests have a dash in their paths. -/
theorem dashed_of_scanPlan {root fileName : Text} {contents : List DfsEntry}
    (reached : Reached env root contents fileName) :
    ∀ {held : ℤ × ℤ} {plan : List ScanEntry},
      scanPlan (withStack env stack) root held contents = some plan → '-' ∈ fileName := by
  induction reached with
  | @file root name contents hmem =>
    intro held plan hplan
    obtain ⟨held', result, hresult, -⟩ := exists_planEntry_of_mem hmem hplan
    obtain ⟨times, htimes, -⟩ := Option.map_eq_some_iff.mp hresult
    exact (exists_times_iff root name held').mp ⟨times, htimes⟩
  | enter hmem hpasses _ ih =>
    intro held plan hplan
    obtain ⟨held', ⟨next, planned⟩, hresult, -⟩ := exists_planEntry_of_mem hmem hplan
    obtain ⟨-, ts, hts, ⟨-, sub, hsub, -⟩ | ⟨hfails, -⟩⟩ := planEntry_directory_cases hresult
    · exact ih hsub
    · exact absurd ((passes_iff hts).mp hpasses) hfails

mutual

theorem exists_planEntry_of_dashed (root : Text) : ∀ (entry : DfsEntry) (held : ℤ × ℤ),
    (∀ fileName, Reached env root [entry] fileName → '-' ∈ fileName) →
      ∃ result, planEntry (withStack env stack) root held entry = some result
  | .file name, held, hdashed => by
    obtain ⟨times, htimes⟩ := (exists_times_iff root name held).mpr
      (hdashed _ (.file (List.mem_singleton_self _)))
    exact ⟨_, Option.map_eq_some_iff.mpr ⟨times, htimes, rfl⟩⟩
  | .directory name contents, held, hdashed => by
    obtain ⟨ts, hts⟩ := exists_dirTimestamp (withStack env stack).zone root name
    rw [planEntry, hts, Option.bind_some]
    split_ifs with htest
    · have hpasses : Passes env (entryPath root name) := ⟨_, hts, htest⟩
      obtain ⟨plan, hplan⟩ := exists_scanPlan_of_dashed (entryPath root name) contents
        ((withStack env stack).stack (entryPath root name))
        fun fileName reached ↦ hdashed fileName
          (.enter (List.mem_singleton_self _) hpasses reached)
      exact ⟨_, Option.map_eq_some_iff.mpr ⟨plan, hplan, rfl⟩⟩
    · exact ⟨_, rfl⟩

/-- Assumes: a dash in the paths of all files that a scan tests. It comes to its end. -/
theorem exists_scanPlan_of_dashed (root : Text) : ∀ (contents : List DfsEntry) (held : ℤ × ℤ),
    (∀ fileName, Reached env root contents fileName → '-' ∈ fileName) →
      ∃ plan, scanPlan (withStack env stack) root held contents = some plan
  | [], _, _ => ⟨[], rfl⟩
  | entry :: contents, held, hdashed => by
    obtain ⟨⟨held', planned⟩, hentry⟩ := exists_planEntry_of_dashed root entry held
      fun fileName reached ↦ hdashed fileName (reached.of_subset fun other hother ↦
        List.mem_singleton.mp hother ▸ List.mem_cons_self ..)
    obtain ⟨plan, hplan⟩ := exists_scanPlan_of_dashed root contents held'
      fun fileName reached ↦ hdashed fileName (reached.of_subset fun other hother ↦
        List.mem_cons_of_mem _ hother)
    refine ⟨planned :: plan, ?_⟩
    simp only [scanPlan, hentry, Option.bind_some, hplan, Option.map_some]

end

mutual

theorem reached_of_mem_chosen (root : Text) : ∀ (entry : DfsEntry) {held held' : ℤ × ℤ}
    {planned : ScanEntry},
      planEntry (withStack env stack) root held entry = some (held', planned) →
        ∀ fileName ∈ planned.chosen,
          Reached env root [entry] fileName ∧ ∃ held, FilePasses env held fileName
  | .file name, held, held', planned, hplan, fileName, hmem => by
    obtain ⟨times, htimes, hplan⟩ := Option.map_eq_some_iff.mp hplan
    split_ifs at hplan with htest
    · cases hplan
      rw [List.mem_singleton.mp hmem]
      exact ⟨.file (List.mem_singleton_self _), held, (filePasses_iff htimes).mpr htest⟩
    · cases hplan
      cases hmem
  | .directory name contents, held, held', planned, hplan, fileName, hmem => by
    obtain ⟨-, ts, hts, ⟨htest, plan, hcontents, rfl⟩ | ⟨-, rfl⟩⟩ := planEntry_directory_cases hplan
    · obtain ⟨reached, hpasses⟩ := reached_of_mem_chosenFiles (entryPath root name) contents
        hcontents fileName hmem
      exact ⟨.enter (List.mem_singleton_self _) ((passes_iff hts).mpr htest) reached, hpasses⟩
    · cases hmem

/-- A scan chooses no file that it does not reach or that cannot be in the window. -/
theorem reached_of_mem_chosenFiles (root : Text) : ∀ (contents : List DfsEntry) {held : ℤ × ℤ}
    {plan : List ScanEntry},
      scanPlan (withStack env stack) root held contents = some plan →
        ∀ fileName ∈ chosenFiles plan,
          Reached env root contents fileName ∧ ∃ held, FilePasses env held fileName
  | [], _, plan, hplan, fileName, hmem => by
    cases hplan
    cases hmem
  | entry :: contents, held, plan, hplan, fileName, hmem => by
    obtain ⟨held', planned, rest, hentry, hrest, rfl⟩ := exists_of_scanPlan_cons hplan
    rcases List.mem_append.mp hmem with hmem | hmem
    · obtain ⟨reached, hpasses⟩ := reached_of_mem_chosen root entry hentry fileName hmem
      exact ⟨reached.of_subset fun other hother ↦ List.mem_singleton.mp hother ▸
        List.mem_cons_self .., hpasses⟩
    · obtain ⟨reached, hpasses⟩ := reached_of_mem_chosenFiles root contents hrest fileName hmem
      exact ⟨reached.of_subset fun other hother ↦ List.mem_cons_of_mem _ hother, hpasses⟩

end

/-- Assumes: a file that is reached, and is in the window in any case. It is chosen. -/
theorem mem_chosenFiles {root fileName : Text} {contents : List DfsEntry}
    (reached : Reached env root contents fileName)
    (hpasses : ∀ held, FilePasses env held fileName) :
    ∀ {held : ℤ × ℤ} {plan : List ScanEntry},
      scanPlan (withStack env stack) root held contents = some plan →
        fileName ∈ chosenFiles plan := by
  induction reached with
  | @file root name contents hmem =>
    intro held plan hplan
    obtain ⟨held', ⟨next, planned⟩, hentry, hsubset⟩ := exists_planEntry_of_mem hmem hplan
    obtain ⟨times, htimes, hentry⟩ := Option.map_eq_some_iff.mp hentry
    split_ifs at hentry with htest
    · cases hentry
      exact hsubset (List.mem_singleton_self _)
    · exact absurd ((filePasses_iff htimes).mp (hpasses held')) htest
  | enter hmem hdirectory _ ih =>
    intro held plan hplan
    obtain ⟨held', ⟨next, planned⟩, hentry, hsubset⟩ := exists_planEntry_of_mem hmem hplan
    obtain ⟨-, ts, hts, ⟨-, sub, hsub, rfl⟩ | ⟨hfails, -⟩⟩ := planEntry_directory_cases hentry
    · exact hsubset (ih hpasses hsub)
    · exact absurd ((passes_iff hts).mp hdirectory) hfails

/-- An entry can be listed first. -/
theorem exists_relisted_cons {contents : List DfsEntry} {entry : DfsEntry}
    (hmem : entry ∈ contents) : ∃ rest, Relisted contents (entry :: rest) := by
  obtain ⟨front, rest, rfl⟩ := List.append_of_mem hmem
  exact ⟨front ++ rest, .of_perm List.perm_middle⟩

/-- Assumes: a file that is reached, and values with which it is in the window. Where its directory
lists it first, and the variables hold these values, it is chosen. -/
theorem exists_relisted_chosen {root fileName : Text} {contents : List DfsEntry}
    (reached : Reached env root contents fileName) {held : ℤ × ℤ}
    (hpasses : FilePasses env held fileName) :
    ∃ contents', Relisted contents contents' ∧ ∀ plan,
      scanPlan (withStack env fun _ ↦ held) root held contents' = some plan →
        fileName ∈ chosenFiles plan := by
  induction reached with
  | @file root name contents hmem =>
    obtain ⟨rest, hrelisted⟩ := exists_relisted_cons hmem
    refine ⟨_, hrelisted, fun plan hplan ↦ ?_⟩
    obtain ⟨held', planned, later, hentry, -, rfl⟩ := exists_of_scanPlan_cons hplan
    obtain ⟨times, htimes, hentry⟩ := Option.map_eq_some_iff.mp hentry
    split_ifs at hentry with htest
    · cases hentry
      exact List.mem_append_left _ (List.mem_singleton_self _)
    · exact absurd ((filePasses_iff htimes).mp hpasses) htest
  | @enter root name fileName contents listed hmem hdirectory _ ih =>
    obtain ⟨listed', hbelow, hchosen⟩ := ih hpasses
    obtain ⟨rest, hrelisted⟩ := exists_relisted_cons hmem
    refine ⟨.directory name listed' :: rest, hrelisted.trans (.directory name hbelow (.refl rest)),
      fun plan hplan ↦ ?_⟩
    obtain ⟨held', planned, later, hentry, -, rfl⟩ := exists_of_scanPlan_cons hplan
    obtain ⟨-, ts, hts, ⟨-, sub, hsub, rfl⟩ | ⟨hfails, -⟩⟩ := planEntry_directory_cases hentry
    · exact List.mem_append_left _ (hchosen sub hsub)
    · exact absurd ((passes_iff hts).mp hdirectory) hfails

end CppLearn.SearchEngine.StoreTree
