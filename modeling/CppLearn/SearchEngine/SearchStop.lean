import CppLearn.SearchEngine.LimitedSearch

/-!
# Calling off a search

A read that hits the limit returns false, and its reader assigns that to `continue_searching`. So
does every other reader with the result of its own read. Once a row has hit the limit the others
will too, so a read can still return true only if no row that is left in its file matches.
`calledOff_iff` says that this is the only way back: the search stays called off just when no reader
is in such a file at the time.
-/

set_option autoImplicit false
set_option relaxedAutoImplicit false

namespace CppLearn.SearchEngine.SearchStop

open Foundation.GuardedRun DfsParquetReader LimitedSearch

/-- Whatever the readers do from here on under the guard, `continue_searching` is false and a file
that a reader has popped is not read. -/
def CalledOff (env : SearchEnv) (allowed : LimitedRun → LimitEvent → Prop) (s : LimitedRun) : Prop :=
  ∀ later, Run (limitStep env) allowed s later → later.shared.continueSearching = false ∧
    ∀ reader rows after, later.readers[reader]? = some (.holding rows) →
      limitStep env later (.move reader) = some after → after.readers[reader]? = some .waiting

/-- The read of a reader has returned true, or will because no row that is left matches. -/
def returnsTrue (env : SearchEnv) : Reader → Bool
  | .reading rows => rows.all (skips env)
  | .keeping _ rows => rows.all (skips env)
  | .returning result => result
  | _ => false

/-! ### The counter stays above the limit -/

/-- Assumes: an addition that does not wrap round. -/
theorem hitsLimit_add {env : SearchEnv} {matchPacketSize : BitVec 64} {size : ℕ}
    (hhit : hitsLimit env matchPacketSize = true)
    (hfits : matchPacketSize.toNat + size < 2 ^ 64) :
    hitsLimit env (matchPacketSize + BitVec.ofNat 64 size) = true := by
  rw [hitsLimit, decide_eq_true_eq] at hhit ⊢
  refine ⟨hhit.1, ?_, hhit.2.2⟩
  have hless := BitVec.lt_def.mp hhit.2.1
  rw [BitVec.lt_def, BitVec.toNat_add, BitVec.toNat_ofNat, Nat.mod_eq_of_lt (by omega : size < _),
    Nat.mod_eq_of_lt hfits]
  omega

/-- A reader that moves without wrapping the counter round leaves it above the limit. -/
theorem hitsLimit_readerStep {env : SearchEnv} {shared shared' : Shared}
    {standing standing' : Reader}
    (hstep : readerStep env shared standing = some (standing', shared'))
    (hfits : shared.search.matchPacketSize.toNat + addition env standing < 2 ^ 64)
    (hhit : hitsLimit env shared.search.matchPacketSize = true) :
    hitsLimit env shared'.search.matchPacketSize = true := by
  rw [(readerMove_of_readerStep hstep).added.1]
  exact hitsLimit_add hhit hfits

/-- Only a comparison that hits the limit returns false. -/
theorem hitsLimit_of_returning {env : SearchEnv} {shared shared' : Shared} {standing : Reader}
    (hstep : readerStep env shared standing = some (.returning false, shared')) :
    hitsLimit env shared'.search.matchPacketSize = true := by
  cases standing with
  | holding rows =>
    have hplace := congrArg Prod.fst (Option.some.inj hstep)
    split_ifs at hplace
  | reading rows =>
    rcases rows with _ | ⟨row, rows⟩
    · cases hstep
    · simp only [readerStep] at hstep
      split_ifs at hstep <;> cases hstep
  | comparing row rows =>
    simp only [readerStep] at hstep
    split_ifs at hstep with hhit
    · cases hstep
      exact hhit
    · cases hstep
  | _ => cases hstep

/-- If a read has returned false, the counter is above the limit. -/
def Exceeded (env : SearchEnv) (s : LimitedRun) : Prop :=
  .returning false ∈ s.readers → hitsLimit env s.shared.search.matchPacketSize = true

theorem exceeded_of_run {env : SearchEnv} {threads : ℕ} {s : LimitedRun}
    (run : Run (limitStep env) (Fits env) (.start threads) s) : Exceeded env s := by
  refine run.invariant ?_ fun state event next hbefore hfits htaken ↦ ?_
  · intro hmem
    exact Reader.noConfusion (List.eq_of_mem_replicate hmem)
  · rcases limitStep_cases htaken with ⟨reader, file, -, -, rfl⟩ |
      ⟨reader, standing, standing', shared, rfl, hreader, hstep, rfl⟩ | ⟨-, -, rfl⟩
    · intro hmem
      rcases List.mem_or_eq_of_mem_set hmem with hold | hnew
      · exact hbefore hold
      · cases file <;> cases hnew
    · intro hmem
      rcases List.mem_or_eq_of_mem_set hmem with hold | hnew
      · exact hitsLimit_readerStep hstep (hfits standing hreader) (hbefore hold)
      · rw [← hnew] at hstep
        exact hitsLimit_of_returning hstep
    · exact hbefore

/-! ### A search that stays called off -/

/-- The flag is false, the counter above the limit, and no read can return true. -/
structure Spent (env : SearchEnv) (s : LimitedRun) : Prop where
  continueSearching : s.shared.continueSearching = false
  hits : hitsLimit env s.shared.search.matchPacketSize = true
  returns : ∀ standing ∈ s.readers, returnsTrue env standing = false

/-- A reader whose read cannot return true comes to no such read. -/
theorem returnsTrue_readerStep {env : SearchEnv} {shared shared' : Shared}
    {standing standing' : Reader} (hcontinue : shared.continueSearching = false)
    (hhit : hitsLimit env shared.search.matchPacketSize = true)
    (hreturns : returnsTrue env standing = false)
    (hstep : readerStep env shared standing = some (standing', shared')) :
    shared'.continueSearching = false ∧ returnsTrue env standing' = false := by
  cases standing with
  | waiting => cases hstep
  | finished => cases hstep
  | holding rows =>
    simp only [readerStep, hcontinue, Bool.false_eq_true, if_false] at hstep
    cases hstep
    exact ⟨hcontinue, rfl⟩
  | reading rows =>
    rcases rows with _ | ⟨row, rows⟩
    · cases hreturns
    · by_cases hskips : skips env row = true
      · rw [readerStep_skip hskips] at hstep
        cases hstep
        rw [returnsTrue, List.all_cons, hskips, Bool.true_and] at hreturns
        exact ⟨hcontinue, hreturns⟩
      · rw [readerStep_add (Bool.eq_false_iff.mpr hskips)] at hstep
        cases hstep
        exact ⟨hcontinue, rfl⟩
  | comparing row rows =>
    rw [readerStep_reject hhit] at hstep
    cases hstep
    exact ⟨hcontinue, rfl⟩
  | keeping row rows =>
    cases hstep
    exact ⟨hcontinue, hreturns⟩
  | returning result =>
    cases hstep
    exact ⟨hreturns, rfl⟩

/-- Without wrapping, a spent search stays spent. -/
theorem Spent.step {env : SearchEnv} {s next : LimitedRun} {event : LimitEvent}
    (spent : Spent env s) (hfits : Fits env s event) (htaken : limitStep env s event = some next) :
    Spent env next := by
  rcases limitStep_cases htaken with ⟨reader, file, -, -, rfl⟩ |
    ⟨reader, standing, standing', shared, rfl, hreader, hstep, rfl⟩ | ⟨-, -, rfl⟩
  · refine ⟨spent.continueSearching, spent.hits, fun other hmem ↦ ?_⟩
    rcases List.mem_or_eq_of_mem_set hmem with hold | hnew
    · exact spent.returns other hold
    · cases file <;> exact hnew ▸ rfl
  · have hreturns := spent.returns standing (List.mem_of_getElem? hreader)
    have hmoved := returnsTrue_readerStep spent.continueSearching spent.hits hreturns hstep
    refine ⟨hmoved.1, hitsLimit_readerStep hstep (hfits standing hreader) spent.hits, ?_⟩
    intro other hmem
    rcases List.mem_or_eq_of_mem_set hmem with hold | hnew
    · exact spent.returns other hold
    · exact hnew ▸ hmoved.2
  · exact ⟨spent.continueSearching, spent.hits, spent.returns⟩

theorem Spent.calledOff {env : SearchEnv} {s : LimitedRun} (spent : Spent env s) :
    CalledOff env (Fits env) s := by
  intro later hrun
  have hlater : Spent env later := hrun.invariant spent fun _ _ _ hbefore hfits htaken ↦
    hbefore.step hfits htaken
  refine ⟨hlater.continueSearching, fun reader rows after hholding htaken ↦ ?_⟩
  have hstep : readerStep env later.shared (.holding rows) = some (.waiting, later.shared) := by
    simp only [readerStep, hlater.continueSearching, Bool.false_eq_true, if_false]
  simp only [limitStep, hholding, hstep, Option.map_some, Option.some.injEq] at htaken
  rw [← htaken]
  exact readers_place (List.getElem?_eq_some_iff.mp hholding).1 .waiting later.shared

/-! ### A search that goes on -/

/-- A step that adds nothing does not wrap round. -/
theorem run_move {e : SearchEnv} {s : LimitedRun} {reader : ℕ} {standing standing' : Reader}
    {shared' : Shared} (hreader : s.readers[reader]? = some standing)
    (haddition : addition e standing = 0)
    (hstep : readerStep e s.shared standing = some (standing', shared')) :
    Run (limitStep e) (Fits e) s (s.place reader standing' shared') := by
  refine Run.tail (.move reader) .refl ?_ ?_
  · intro other hother
    obtain rfl : other = standing := Option.some.inj (hother.symm.trans hreader)
    rw [haddition]
    exact BitVec.isLt _
  · simp only [limitStep, hreader, hstep, Option.map_some]

/-- A reader in a file without further matches ends by setting the flag. -/
theorem exists_resumed {env : SearchEnv} {reader : ℕ} {rows : List Row}
    (hrows : rows.all (skips env) = true) {s : LimitedRun}
    (hreader : s.readers[reader]? = some (.reading rows)) :
    ∃ later, Run (limitStep env) (Fits env) s later ∧ later.shared.continueSearching = true := by
  have hlength : reader < s.readers.length := (List.getElem?_eq_some_iff.mp hreader).1
  induction rows generalizing s with
  | nil =>
    have hreturn := run_move (e := env) hreader rfl rfl
    have hassign := run_move (e := env) (readers_place hlength (.returning true) s.shared) rfl rfl
    exact ⟨_, hreturn.trans hassign, rfl⟩
  | cons row rows ih =>
    obtain ⟨hskips, hrest⟩ := Bool.and_eq_true_iff.mp hrows
    have hmove := run_move hreader (if_pos hskips) (readerStep_skip hskips rows)
    obtain ⟨later, hrun, hresumed⟩ := ih hrest (readers_place hlength (.reading rows) s.shared)
      (by rwa [LimitedRun.place, List.length_set])
    exact ⟨later, hmove.trans hrun, hresumed⟩

/-- A reader whose read returns true sets the flag. -/
theorem exists_resumed_of_returnsTrue {env : SearchEnv} {s : LimitedRun} {reader : ℕ}
    {standing : Reader} (hreader : s.readers[reader]? = some standing)
    (hreturns : returnsTrue env standing = true) :
    ∃ later, Run (limitStep env) (Fits env) s later ∧ later.shared.continueSearching = true := by
  have hlength : reader < s.readers.length := (List.getElem?_eq_some_iff.mp hreader).1
  cases standing with
  | reading rows => exact exists_resumed hreturns hreader
  | keeping row rows =>
    have hpush := run_move (e := env) hreader rfl rfl
    obtain ⟨later, hrun, hresumed⟩ := exists_resumed hreturns (readers_place hlength _ _)
    exact ⟨later, hpush.trans hrun, hresumed⟩
  | returning result =>
    have hassign := run_move (e := env) hreader rfl rfl
    exact ⟨_, hassign, hreturns⟩
  | _ => cases hreturns

/-- Assumes: a run in which no addition to the counter wraps round, in which a reader is about to
assign the false of its read. As long as no addition wraps round, the search is called off for good
if and only if no read returns true then, or will because no row that is left in its file matches. -/
theorem calledOff_iff {env : SearchEnv} {threads : ℕ} {s next : LimitedRun} {reader : ℕ}
    (run : Run (limitStep env) (Fits env) (.start threads) s)
    (hreader : s.readers[reader]? = some (.returning false))
    (htaken : limitStep env s (.move reader) = some next) :
    CalledOff env (Fits env) next ↔
      ∀ standing ∈ s.readers, returnsTrue env standing = false := by
  have hnext : next = s.place reader .waiting { s.shared with continueSearching := false } := by
    simp only [limitStep, hreader, readerStep, Option.map_some, Option.some.injEq] at htaken
    exact htaken.symm
  subst hnext
  constructor
  · intro hcalledOff standing hmem
    by_contra hreturns
    obtain ⟨other, hother⟩ := List.mem_iff_getElem?.mp hmem
    have hne : reader ≠ other := by
      rintro rfl
      obtain rfl : standing = .returning false := Option.some.inj (hother.symm.trans hreader)
      exact hreturns rfl
    have hplace : (s.place reader .waiting { s.shared with continueSearching := false }).readers[
        other]? = some standing := (List.getElem?_set_ne hne).trans hother
    obtain ⟨later, hrun, hresumed⟩ :=
      exists_resumed_of_returnsTrue hplace (Bool.eq_true_of_not_eq_false hreturns)
    exact Bool.false_ne_true ((hcalledOff later hrun).1.symm.trans hresumed)
  · intro hreturns
    have hexceeded := exceeded_of_run run (List.mem_of_getElem? hreader)
    refine Spent.calledOff ⟨rfl, hexceeded, fun standing hmem ↦ ?_⟩
    rcases List.mem_or_eq_of_mem_set hmem with hold | hnew
    · exact hreturns standing hold
    · exact hnew ▸ rfl

/-! ### Samples -/

/-- One reader has rejected a row, the other is at the end of a file without rows. -/
def stopping : LimitedRun :=
  { readers := [.returning false, .reading []]
    shared := ⟨true, ⟨41, []⟩, [sampleRow [1]]⟩
    fileSize := none }

/-- How they come there. -/
def stoppingEvents : List LimitEvent :=
  [.pop 0 (some [sampleRow [1]]), .pop 1 (some []), .move 0, .move 1, .move 0, .move 0]

/-- The search is not called off for good: the second read returns true. -/
theorem calledOff_iff_sample : ∃ next,
    execute (limitStep (sampleEnv 30)) (Fits (sampleEnv 30)) (.start 2) stoppingEvents =
        some stopping ∧
      stopping.readers[0]? = some (.returning false) ∧
      limitStep (sampleEnv 30) stopping (.move 0) = some next ∧
      (CalledOff (sampleEnv 30) (Fits (sampleEnv 30)) next ↔
        ∀ standing ∈ stopping.readers, returnsTrue (sampleEnv 30) standing = false) := by
  have hexecute : execute (limitStep (sampleEnv 30)) (Fits (sampleEnv 30)) (.start 2)
      stoppingEvents = some stopping := rfl
  have hreader : stopping.readers[0]? = some (.returning false) := rfl
  exact ⟨_, hexecute, hreader, rfl, calledOff_iff (run_of_execute hexecute) hreader rfl⟩

/-- When the second read has returned, the search goes on. -/
theorem not_calledOff : ¬ ∀ env threads s reader next,
    Reachable (limitStep env) (.start threads) s →
      s.readers[reader]? = some (.returning false) →
      limitStep env s (.move reader) = some next → CalledOff env anyEvent next := by
  intro hclaim
  have hexecute : execute (limitStep (sampleEnv 30)) anyEvent (.start 2) stoppingEvents =
      some stopping := rfl
  have hcalledOff := hclaim (sampleEnv 30) 2 stopping 0 _ (run_of_execute hexecute) rfl rfl
  have hresume : execute (limitStep (sampleEnv 30)) anyEvent
      (stopping.place 0 .waiting { stopping.shared with continueSearching := false })
      [.move 1, .move 1] = some
        { readers := [.waiting, .waiting]
          shared := stopping.shared
          fileSize := none } := rfl
  exact absurd (hcalledOff _ (run_of_execute hresume)).1.symm Bool.false_ne_true

end CppLearn.SearchEngine.SearchStop
