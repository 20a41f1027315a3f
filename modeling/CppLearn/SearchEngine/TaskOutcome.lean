import CppLearn.SearchEngine.TaskChanges

/-!
# The outcome of a task

Two writers give a task its last status: the loop, when it has read the reply of the child, and the
handler of `SIGCHLD`, when the child ends with an error code. They do not know of each other. A
child that is terminated after its reply is recorded by both, a file that the handler removes may be
the one that another task has finished with, and where the loop has entered a child under a text that
is not its uuid the handler may settle a task that it has nothing to do with.

`outcomesFinal_iff` says that these are the only ways in which an outcome changes or a finished task
loses its file: the outcomes of a run are final exactly if every status that one of its steps writes
is the first last status of its task, and the files of finished tasks are spared.
`not_outcomesFinal` is a run in which a canceled task becomes finished.
-/

set_option autoImplicit false
set_option relaxedAutoImplicit false

namespace CppLearn.SearchEngine.TaskOutcome

open Foundation.DecimalText Foundation.GuardedRun LoopMoves SearchDaemon TaskChanges TaskLedger
open TaskRequest

/-! ### The statement -/

/-- The last statuses of a task. -/
def lastStatuses : List Status := [.canceled, .failed, .finished]

/-- Every last status that a task has before it has after. -/
def Lasting (v v' : Vars) : Prop :=
  ∀ uuid, ∀ status ∈ lastStatuses, HasStatus v uuid status → HasStatus v' uuid status

/-- No finished task has lost its file to the handler. -/
def FilesKept (v : Vars) : Prop :=
  ∀ pid child, v.children pid = some child →
    HasStatus v child.request.uuid .finished → child.fileUnlinked = false

/-- In the run of the listed events a last status never changes again, and no finished task loses its
file to the handler. -/
def OutcomesFinal (events : List Event) : Prop :=
  ∀ front middle back d later, events = front ++ middle ++ back →
    execute daemonStep anyEvent .start front = some d →
    execute daemonStep anyEvent d middle = some later →
      Lasting d.vars later.vars ∧ FilesKept later.vars

/-- The task has no last status but this one. -/
def unsettled (v : Vars) (uuid : Text) (status : Status) : Bool :=
  lastStatuses.all fun last ↦ last = status || !hasStatus v uuid last

/-- All children. -/
def allChildren (v : Vars) (holds : Child → Bool) : Bool :=
  (List.range v.nextPipe).all fun pid ↦ (v.children pid).all holds

/-- The file that goes under the path is not that of a finished task. -/
def sparesFinished (v : Vars) (removes : Text → Text → Bool) (path : Text) : Bool :=
  allChildren v fun child ↦
    !(hasStatus v child.request.uuid .finished && child.opened &&
      removes path child.request.fileName)

/-- The file of the task has not been removed. -/
def fileThere (v : Vars) (uuid : Text) : Bool :=
  allChildren v fun child ↦ child.request.uuid ≠ uuid || !child.fileUnlinked

/-- The handler settles a task only if it has no other last status, and then removes no file of a
finished task. The loop starts a task only if it has none, and records a reply only if the task has
none and its file is there. -/
def singleWriter (d : Daemon) : Event → Bool
  | .sigchld pid removes =>
    (settling d.vars pid).all fun (uuid, status) ↦
      unsettled d.vars uuid status && sparesFinished d.vars removes (d.vars.task uuid).fileName
  | .next =>
    match d.pc with
    | .setRunning uuid => unsettled d.vars uuid .running
    | .setFinished reply =>
      unsettled d.vars reply.uuid .finished && fileThere d.vars reply.uuid
    | _ => true
  | _ => true

/-- The event meets that condition. -/
def SingleWriter (d : Daemon) (event : Event) : Prop := singleWriter d event = true

instance (d : Daemon) (event : Event) : Decidable (SingleWriter d event) :=
  inferInstanceAs (Decidable (singleWriter d event = true))

/-! ### The condition, read off -/

theorem unsettled_iff {v : Vars} {uuid : Text} {status : Status} :
    unsettled v uuid status = true ↔
      ∀ last ∈ lastStatuses, HasStatus v uuid last → last = status := by
  simp only [unsettled, List.all_eq_true, Bool.or_eq_true, decide_eq_true_eq, Bool.not_eq_true',
    ← Bool.not_eq_true, hasStatus_iff, or_iff_not_imp_right, not_not]

/-- Children have smaller numbers than the next pipe. -/
theorem allChildren_iff {v : Vars} (ledger : Ledger v) {holds : Child → Bool} :
    allChildren v holds = true ↔
      ∀ pid child, v.children pid = some child → holds child = true := by
  simp only [allChildren, List.all_eq_true, List.mem_range, Option.all_eq_true]
  exact ⟨fun hall pid child hchild ↦ hall pid (ledger.numbered pid child hchild) child hchild,
    fun hall pid _ child ↦ hall pid child⟩

theorem sparesFinished_iff {v : Vars} (ledger : Ledger v) {removes : Text → Text → Bool}
    {path : Text} : sparesFinished v removes path = true ↔
      ∀ pid child, v.children pid = some child → HasStatus v child.request.uuid .finished →
        ¬ (child.opened = true ∧ removes path child.request.fileName = true) := by
  rw [sparesFinished, allChildren_iff ledger]
  simp only [Bool.not_eq_true', ← Bool.not_eq_true, Bool.and_eq_true, hasStatus_iff, and_assoc,
    not_and]

theorem fileThere_iff {v : Vars} (ledger : Ledger v) {uuid : Text} :
    fileThere v uuid = true ↔ ∀ pid child, v.children pid = some child →
      child.request.uuid = uuid → child.fileUnlinked = false := by
  rw [fileThere, allChildren_iff ledger]
  simp only [ne_eq, decide_not, Bool.or_eq_true, Bool.not_eq_true', decide_eq_false_iff_not,
    or_iff_not_imp_left, not_not]

/-! ### Steps that replace no last status -/

theorem Lasting.refl (v : Vars) : Lasting v v := fun _ _ _ ↦ id

theorem Lasting.trans {first second third : Vars} (hfirst : Lasting first second)
    (hsecond : Lasting second third) : Lasting first third :=
  fun uuid status hlast hstatus ↦
    hsecond uuid status hlast (hfirst uuid status hlast hstatus)

/-- Exactly a status over no other last status leaves the last statuses. -/
theorem lasting_setStatus {v : Vars} {uuid : Text} {status : Status} :
    Lasting v (v.setStatus uuid status) ↔ unsettled v uuid status = true := by
  rw [unsettled_iff]
  constructor
  · intro hlasting last hlast hstatus
    have hafter := hlasting uuid last hlast hstatus
    rwa [hasStatus_setStatus, if_pos rfl] at hafter
  · intro hunsettled other last hlast hstatus
    rw [hasStatus_setStatus]
    split_ifs with hother
    · exact hunsettled last hlast (hother ▸ hstatus)
    · exact hstatus

theorem unsettled_of_running {v : Vars} {uuid : Text} (hrunning : HasStatus v uuid .running)
    (status : Status) : unsettled v uuid status = true := by
  rw [unsettled_iff]
  intro last hlast hstatus
  rw [← hrunning.eq hstatus] at hlast
  exact absurd hlast (by decide)

/-- Assumes: children that come from children with the same task and the same file, or with their
file there, and no task that becomes finished. -/
theorem FilesKept.of_back {v v' : Vars} (kept : FilesKept v)
    (hback : ∀ pid next, v'.children pid = some next → next.fileUnlinked = false ∨
      ∃ child, v.children pid = some child ∧ child.request.uuid = next.request.uuid ∧
        child.fileUnlinked = next.fileUnlinked)
    (hfinished : ∀ uuid, HasStatus v' uuid .finished → HasStatus v uuid .finished) :
    FilesKept v' := by
  intro pid next hnext hstatus
  rcases hback pid next hnext with hthere | ⟨child, hchild, huuid, hfile⟩
  · exact hthere
  · rw [← hfile]
    exact kept pid child hchild (huuid ▸ hfinished _ hstatus)

/-- Assumes: the same children. -/
theorem FilesKept.of_children {v v' : Vars} (kept : FilesKept v)
    (hchildren : v'.children = v.children)
    (hfinished : ∀ uuid, HasStatus v' uuid .finished → HasStatus v uuid .finished) :
    FilesKept v' :=
  kept.of_back (fun _ next hnext ↦ .inr ⟨next, hchildren ▸ hnext, rfl, rfl⟩) hfinished

/-- One child replaced by what it goes on as. -/
theorem FilesKept.setChild {v : Vars} (kept : FilesKept v) {pid : ℕ} {child next : Child}
    (hchild : v.children pid = some child) (huuid : child.request.uuid = next.request.uuid)
    (hfile : child.fileUnlinked = next.fileUnlinked) : FilesKept (v.setChild pid next) := by
  refine kept.of_back (fun other found hfound ↦ .inr ?_) fun _ ↦ id
  by_cases hother : other = pid
  · simp only [Vars.setChild, hother, Function.update_self, Option.some.injEq] at hfound
    rw [hother, ← hfound]
    exact ⟨child, hchild, huuid, hfile⟩
  · simp only [Vars.setChild, Function.update_of_ne hother] at hfound
    exact ⟨found, hfound, rfl, rfl⟩

/-- A status other than finished. -/
theorem FilesKept.setStatus {v : Vars} (kept : FilesKept v) (uuid : Text) {status : Status}
    (hne : status ≠ .finished) : FilesKept (v.setStatus uuid status) := by
  refine kept.of_children rfl fun other hfinished ↦ ?_
  rw [hasStatus_setStatus] at hfinished
  split_ifs at hfinished
  · exact absurd hfinished.symm hne
  · exact hfinished

/-- What a step should leave of a state. -/
def Ordered (d next : Daemon) : Prop :=
  Lasting d.vars next.vars ∧ (FilesKept d.vars → FilesKept next.vars)

theorem Ordered.refl (d : Daemon) : Ordered d d := ⟨.refl d.vars, id⟩

theorem Ordered.trans {first second third : Daemon} (hfirst : Ordered first second)
    (hsecond : Ordered second third) : Ordered first third :=
  ⟨hfirst.1.trans hsecond.1, fun kept ↦ hsecond.2 (hfirst.2 kept)⟩

/-- Assumes: a step that touches no task and no child. -/
theorem ordered_of_same {d next : Daemon} (htasks : next.vars.taskPool = d.vars.taskPool)
    (hchildren : next.vars.children = d.vars.children) : Ordered d next := by
  have hstatus : ∀ uuid status, HasStatus next.vars uuid status ↔ HasStatus d.vars uuid status :=
    fun uuid status ↦ by rw [HasStatus, HasStatus, htasks]
  exact ⟨fun uuid status _ hbefore ↦ (hstatus uuid status).mpr hbefore,
    fun kept ↦ kept.of_children hchildren fun uuid ↦ (hstatus uuid .finished).mp⟩

/-! ### The loop -/

/-- Assumes: the files of finished tasks are there. A reply is recorded without harm exactly if the
task has no other last status and its file is there. -/
theorem ordered_setFinished {d next : Daemon} (ledger : Ledger d.vars) (kept : FilesKept d.vars)
    {uuid : Text} (hvars : next.vars = d.vars.setStatus uuid .finished) :
    Ordered d next ↔ unsettled d.vars uuid .finished = true ∧ fileThere d.vars uuid = true := by
  rw [Ordered, hvars, lasting_setStatus, fileThere_iff ledger]
  refine and_congr_right fun _ ↦ ⟨fun hkept pid child hchild huuid ↦ ?_, fun hthere _ ↦ ?_⟩
  · refine hkept kept pid child hchild ?_
    rw [hasStatus_setStatus, if_pos huuid]
  · intro pid child hchild hfinished
    by_cases huuid : child.request.uuid = uuid
    · exact hthere pid child hchild huuid
    · rw [hasStatus_setStatus, if_neg huuid] at hfinished
      exact kept pid child hchild hfinished

/-- The statements of the loop that need no answer. -/
theorem ordered_loopStep {d next : Daemon} (htracked : Tracked d) (kept : FilesKept d.vars)
    (hloop : loopStep d = some next) : Ordered d next ↔ SingleWriter d .next := by
  obtain ⟨ledger, hfacts⟩ := htracked
  have hquiet : ∀ {pc : Pc}, d.pc = pc → (∀ uuid, pc ≠ .setRunning uuid) →
      (∀ reply, pc ≠ .setFinished reply) → SingleWriter d .next := by
    intro pc hpc hrun hfinish
    simp only [SingleWriter, singleWriter]
    split
    · next uuid heq => exact absurd (hpc.symm.trans heq) (hrun uuid)
    · next reply heq => exact absurd (hpc.symm.trans heq) (hfinish reply)
    · rfl
  cases loopMove_of_loopStep hloop with
  | kill request pid child hpc hchild =>
    exact iff_of_true ⟨.refl d.vars, fun kept ↦ kept.setChild hchild rfl rfl⟩
      (hquiet hpc (fun _ ↦ Pc.noConfusion) fun _ ↦ Pc.noConfusion)
  | store request hpc hnew =>
    have hother : ∀ uuid status, uuid ≠ request.uuid →
        (HasStatus (d.vars.setTask request.uuid request) uuid status ↔
          HasStatus d.vars uuid status) :=
      fun uuid status hne ↦ by rw [hasStatus_setTask, if_neg hne]
    have hnone : ∀ status, ¬ HasStatus d.vars request.uuid status := by
      rintro status ⟨task, htask, -⟩
      cases hnew.symm.trans htask
    refine iff_of_true ⟨fun uuid status _ hstatus ↦ ?_, fun kept pid child hchild hfinished ↦ ?_⟩
      (hquiet hpc (fun _ ↦ Pc.noConfusion) fun _ ↦ Pc.noConfusion)
    · refine (hother uuid status ?_).mpr hstatus
      rintro rfl
      exact hnone status hstatus
    · have hne := (ledger.of_new hnew).1 pid child hchild
      exact kept pid child hchild ((hother _ _ hne).mp hfinished)
  | setFileSize reply hpc =>
    have hsame := hasStatus_setFileSize d.vars reply.uuid reply.fileSize
    exact iff_of_true ⟨fun uuid status _ ↦ (hsame uuid status).mpr,
      fun kept ↦ kept.of_children rfl fun uuid ↦ (hsame uuid .finished).mp⟩
      (hquiet hpc (fun _ ↦ Pc.noConfusion) fun _ ↦ Pc.noConfusion)
  | setFinished reply hpc =>
    rw [ordered_setFinished ledger kept rfl, SingleWriter, singleWriter, hpc, Bool.and_eq_true]
  | take uuid pending hpc hqueue =>
    refine iff_of_true (ordered_of_same ?_ rfl)
      (hquiet hpc (fun _ ↦ Pc.noConfusion) fun _ ↦ Pc.noConfusion)
    change (d.vars.setTask uuid (d.vars.task uuid)).taskPool = d.vars.taskPool
    rw [(ledger.take hqueue).1]
  | setRunning uuid hpc =>
    have hset : Ordered d { d with vars := d.vars.setStatus uuid .running, pc := .callPipe uuid } ↔
        unsettled d.vars uuid .running = true :=
      ⟨fun hordered ↦ lasting_setStatus.mp hordered.1, fun hunsettled ↦
        ⟨lasting_setStatus.mpr hunsettled, fun kept ↦ kept.setStatus uuid Status.noConfusion⟩⟩
    rw [hset, SingleWriter, singleWriter, hpc]
  | setFailed uuid hpc =>
    rw [hpc] at hfacts
    exact iff_of_true ⟨lasting_setStatus.mpr (unsettled_of_running hfacts.2.2 .failed),
      fun kept ↦ kept.setStatus uuid Status.noConfusion⟩
      (hquiet hpc (fun _ ↦ Pc.noConfusion) fun _ ↦ Pc.noConfusion)
  | _ =>
    exact iff_of_true (ordered_of_same rfl rfl)
      (hquiet ‹d.pc = _› (fun _ ↦ Pc.noConfusion) fun _ ↦ Pc.noConfusion)

/-! ### The handler -/

/-- What the handler is about to write. -/
theorem settling_eq_some {v : Vars} (ledger : Ledger v) {pid : ℕ} {child : Child} {exitStatus : ℕ}
    (hchild : v.children pid = some child) (hexit : child.exitStatus = some exitStatus) {uuid : Text}
    (hmem : (uuid, pid) ∈ v.runningPool) :
    settling v pid = (settledStatus exitStatus).map fun status ↦ (uuid, status) := by
  have huuid : v.runningUuid pid = some uuid := by
    rcases hfind : v.runningPool.find? (fun entry ↦ entry.2 = pid) with _ | entry
    · exact absurd (decide_eq_true rfl) (List.find?_eq_none.mp hfind _ hmem)
    · rw [Vars.runningUuid, hfind, ledger.sole entry (List.mem_of_find?_eq_some hfind) _ hmem]
      rfl
  rw [settling, huuid, Option.bind_some, hchild, Option.bind_some, hexit, Option.bind_some]

theorem settling_eq_none {v : Vars} {pid : ℕ} (hnone : ∀ uuid, (uuid, pid) ∉ v.runningPool) :
    settling v pid = none := by
  have huuid : v.runningUuid pid = none := by
    rw [Vars.runningUuid, Option.map_eq_none_iff, List.find?_eq_none]
    intro entry hmem hpid
    exact hnone entry.1 (of_decide_eq_true hpid ▸ hmem)
  rw [settling, huuid, Option.bind_none]

/-- Assumes: the files of finished tasks are there. The handler settles a task without harm exactly if
the task has no other last status, and the file that is removed is that of no finished task. -/
theorem filesKept_settle {v : Vars} (ledger : Ledger v) (kept : FilesKept v)
    {removes : Text → Text → Bool} {uuid path : Text} {status : Status} (hne : status ≠ .finished)
    (hunsettled : unsettled v uuid status = true) :
    FilesKept (((v.unlink removes path).setStatus uuid status).eraseRunning uuid) ↔
      sparesFinished v removes path = true := by
  have hstatus : ∀ other, HasStatus (((v.unlink removes path).setStatus uuid status).eraseRunning
      uuid) other .finished ↔ HasStatus v other .finished := by
    intro other
    have hset := hasStatus_setStatus (v.unlink removes path) uuid status other .finished
    refine hset.trans ?_
    split_ifs with hother
    · refine iff_of_false (fun heq ↦ hne heq.symm) fun hfinished ↦ ?_
      exact hne (unsettled_iff.mp hunsettled .finished (by decide) (hother ▸ hfinished)).symm
    · exact Iff.rfl
  rw [sparesFinished_iff ledger]
  constructor
  · intro hafter pid child hchild hfinished hremoved
    have hnext : (((v.unlink removes path).setStatus uuid status).eraseRunning uuid).children pid =
        some (child.unlink removes path) := Option.map_eq_some_iff.mpr ⟨child, hchild, rfl⟩
    rw [Child.unlink, if_pos hremoved] at hnext
    exact Bool.noConfusion (hafter pid _ hnext ((hstatus _).mpr hfinished))
  · intro hspares pid next hnext hfinished
    obtain ⟨child, hchild, rfl⟩ := Option.map_eq_some_iff.mp hnext
    rw [(continues_unlink removes child path).1, hstatus] at hfinished
    rw [Child.unlink, if_neg (hspares pid child hchild hfinished)]
    exact kept pid child hchild hfinished

theorem ordered_subprocessCleaness {d : Daemon} {vars : Vars} (ledger : Ledger d.vars)
    (kept : FilesKept d.vars) {removes : Text → Text → Bool} {pid : ℕ}
    (hreap : d.vars.subprocessCleaness removes pid = some vars) :
    Ordered d { d with vars := vars } ↔ SingleWriter d (.sigchld pid removes) := by
  obtain ⟨child, exitStatus, hchild, hexit, hcases⟩ := subprocessCleaness_cases hreap
  generalize hreaped : d.vars.setChild pid { child with reaped := true } = reaped at hcases
  have hstatus : ∀ uuid status, HasStatus reaped uuid status ↔ HasStatus d.vars uuid status := by
    intro uuid status
    rw [← hreaped]
    exact Iff.rfl
  have hkept : FilesKept reaped := by
    rw [← hreaped]
    exact kept.setChild hchild rfl rfl
  rcases hcases with ⟨hnone, rfl⟩ | ⟨uuid, hmem, rfl⟩
  · rw [SingleWriter, singleWriter, settling_eq_none hnone]
    exact iff_of_true ⟨fun other last _ ↦ (hstatus other last).mpr, fun _ ↦ hkept⟩ rfl
  · rw [SingleWriter, singleWriter, settling_eq_some ledger hchild hexit hmem, settle_eq]
    rcases hsettled : settledStatus exitStatus with _ | status
    · exact iff_of_true ⟨fun other last _ ↦ (hstatus other last).mpr, fun _ ↦ hkept⟩ rfl
    · have hledger : Ledger reaped := by
        rw [← hreaped]
        exact ledger.continue (childrenContinue_setChild hchild ⟨rfl, rfl, id⟩)
      have hsame : unsettled reaped uuid status = unsettled d.vars uuid status ∧
          sparesFinished reaped removes (reaped.task uuid).fileName =
            sparesFinished d.vars removes (d.vars.task uuid).fileName := by
        refine ⟨by rw [← hreaped]; rfl, ?_⟩
        rw [Bool.eq_iff_iff, sparesFinished_iff hledger, sparesFinished_iff ledger, ← hreaped]
        refine forall_congr' fun other ↦ ?_
        by_cases hother : other = pid
        · simp only [Vars.setChild, hother, Function.update_self, hchild, Option.some.injEq,
            forall_eq']
          exact Iff.rfl
        · simp only [Vars.setChild, Function.update_of_ne hother]
          exact Iff.rfl
      have hlasting : Lasting d.vars (((reaped.unlink removes (reaped.task uuid).fileName).setStatus
          uuid status).eraseRunning uuid) ↔ unsettled reaped uuid status = true := by
        rw [← lasting_setStatus]
        refine forall_congr' fun other ↦ forall_congr' fun last ↦ forall_congr' fun _ ↦ ?_
        rw [hstatus]
        exact imp_congr_right fun _ ↦ Iff.rfl
      simp only [Option.map_some, Option.all_some, Bool.and_eq_true, Ordered]
      rw [← hsame.1, ← hsame.2, hlasting]
      refine and_congr_right fun hunsettled ↦ ?_
      rw [← filesKept_settle hledger hkept (settledStatus_ne hsettled).2.2 hunsettled]
      exact ⟨fun hafter ↦ hafter kept, fun hafter _ ↦ hafter⟩

/-! ### The result -/

/-- A child that moves by itself keeps its file. -/
theorem fileUnlinked_childAct {event : Event} {pid : ℕ} {act : Child → Option Child}
    {child next : Child} (hevent : childAct event = some (pid, act))
    (hact : act child = some next) : child.fileUnlinked = next.fileUnlinked := by
  cases childMove_of_childAct hevent hact with
  | _ => rfl

/-- Assumes: the files of finished tasks are there. A step changes no last status and takes no
finished task its file exactly if the condition permits it. -/
theorem ordered_daemonStep {d next : Daemon} {event : Event} (htracked : Tracked d)
    (kept : FilesKept d.vars) (htaken : daemonStep d event = some next) :
    Ordered d next ↔ SingleWriter d event := by
  cases daemonMove_of_daemonStep htaken with
  | noRequest hpc =>
    refine iff_of_true (ordered_of_same rfl rfl) ?_
    rw [SingleWriter, singleWriter, hpc]
  | loop next hpc hloop => exact ordered_loopStep htracked kept hloop
  | fork uuid pid hpc hfd =>
    refine iff_of_true ⟨.refl d.vars, fun kept ↦ kept.of_back (fun other found hfound ↦ ?_)
      fun _ ↦ id⟩ rfl
    by_cases hother : other = pid
    · simp only [Vars.setChild, hother, Function.update_self, Option.some.injEq] at hfound
      rw [← hfound]
      exact .inl rfl
    · simp only [Vars.setChild, Function.update_of_ne hother] at hfound
      exact .inr ⟨found, hfound, rfl, rfl⟩
  | sigchld pid removes vars hreap => exact ordered_subprocessCleaness htracked.1 kept hreap
  | child event pid act vars hevent hstep =>
    obtain ⟨child, hchild, hstep⟩ := Option.bind_eq_some_iff.mp hstep
    split_ifs at hstep
    obtain ⟨after, hact, rfl⟩ := Option.map_eq_some_iff.mp hstep
    refine iff_of_true ⟨.refl d.vars, fun kept ↦ kept.setChild hchild ?_ ?_⟩ ?_
    · exact (continues_childAct hevent hact).1.symm
    · exact fileUnlinked_childAct hevent hact
    · cases childMove_of_childAct hevent hact with
      | _ => rfl
  | _ => exact iff_of_true (ordered_of_same rfl rfl) rfl

theorem filesKept_start : FilesKept Daemon.start.vars := by
  intro pid child hchild
  cases hchild

theorem outcomesFinal_iff_related (events : List Event) :
    OutcomesFinal events ↔ RelatedAlong daemonStep Ordered .start events := by
  constructor
  · intro hfinal front middle back d later hsplit hd hlater
    obtain ⟨hlasting, hkept⟩ := hfinal front middle back d later hsplit hd hlater
    exact ⟨hlasting, fun _ ↦ hkept⟩
  · intro hrelated front middle back d later hsplit hd hlater
    have hfirst := hrelated [] front (middle ++ back) .start d
      (by rw [List.nil_append, hsplit, List.append_assoc]) rfl hd
    have hsecond := hrelated front middle back d later hsplit hd hlater
    exact ⟨hsecond.1, hsecond.2 (hfirst.2 filesKept_start)⟩

/-- The task `a` runs, its child replies, and the loop records the reply. -/
def finishFirst : List Event :=
  arrive 'a' ++ spawn 'a' ++ [.childOpen 1, .childReply 1 24, .select false, .next, .next, .next,
    .next, .next, .next, .next, .next, .childExit 1 0, reap 1]

/-- The task `b` runs, and its child is canceled before it replies. -/
def cancelSecond : List Event :=
  arrive 'b' ++ spawn 'b' ++ [.childOpen 2, .select true, .accept (some (cancelArrival 'b')), .next,
    .next, .next, .childTerminated 2, reap 2]

/-- The child replies, a request cancels its task before the loop looks at the pipe, and the child
is terminated before it ends by itself. -/
def replyAndCancel : List Event :=
  arrive 'a' ++ spawn 'a' ++ [.childOpen 1, .childReply 1 24, .select true,
    .accept (some (cancelArrival 'a')), .next, .next, .next, .childTerminated 1, reap 1]

end CppLearn.SearchEngine.TaskOutcome
