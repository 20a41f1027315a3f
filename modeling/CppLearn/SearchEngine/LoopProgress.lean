import CppLearn.SearchEngine.TaskLedger

/-!
# How the loop goes on

The statements of the loop in their order, as runs of the daemon: from `select` to the test of the
pipe, from there past a reply or an end of file to the test of the queue, and on to the start of a
task. Nothing but an entry of `running_pool` keeps the loop from that, and nothing but the status
`CANCELED` a task that is queued.
-/

set_option autoImplicit false
set_option relaxedAutoImplicit false

namespace CppLearn.SearchEngine.LoopProgress

open Foundation.DecimalText Foundation.GuardedRun SearchDaemon TaskLedger TaskRequest

/-- A statement that depends on the variables alone is a step of the daemon. -/
theorem reachable_loopStep {d next later : Daemon} (hstep : loopStep d = some next)
    (hrest : Reachable daemonStep next later) : Reachable daemonStep d later := by
  have hpc : d.pc ≠ .listenTest := by
    intro hpc
    simp only [loopStep, hpc] at hstep
    cases hstep
  have htaken : daemonStep d .next = some next := by
    simp only [daemonStep, if_neg hpc, hstep]
  exact (Run.tail .next .refl trivial htaken).trans hrest

/-- From `select` to the test of the pipe, when no client connects. -/
theorem reachable_pipeTest {d : Daemon} (hpc : d.pc = .top) :
    Reachable daemonStep d
      { d with pc := .pipeTest, listenReady := false, pipeReady := d.vars.pipeReadable } := by
  have hselect : daemonStep d (.select false) = some
      { d with pc := .listenTest, listenReady := false, pipeReady := d.vars.pipeReadable } := by
    simp only [daemonStep, hpc, if_true]
  exact (Run.tail _ .refl trivial hselect).tail .next trivial rfl

/-- There is something to read only where there is a child. -/
theorem exists_of_pipeReadable {v : Vars} (hready : v.pipeReadable = true) {pid : ℕ}
    (hfd : v.pipeFd = some pid) : v.children pid ≠ none := by
  intro hnone
  rw [Vars.pipeReadable, hfd, Option.bind_some, hnone] at hready
  cases hready

/-- Assumes: an empty `running_pool`. The first task of the queue is taken from it. -/
theorem reachable_canceledTest {d : Daemon} (ledger : Ledger d.vars) (hpc : d.pc = .pendingTest)
    (hpool : d.vars.runningPool = []) {uuid : Text} {pending : List Text}
    (hqueue : d.vars.pendingQueue = uuid :: pending) :
    Reachable daemonStep d
      { d with vars := { d.vars with pendingQueue := pending }, pc := .canceledTest uuid } := by
  have hpendingTest : loopStep d = some { d with pc := .runningTest } := by
    simp only [loopStep, hpc, hqueue, reduceCtorEq, if_false]
  have hrunningTest : loopStep { d with pc := .runningTest } =
      some { d with pc := .takePending } := by
    simp only [loopStep, hpool, if_true]
  have htakePending : loopStep { d with pc := .takePending } = some
      { d with vars := { d.vars with pendingQueue := pending }, pc := .canceledTest uuid } := by
    simp only [loopStep, hqueue, (ledger.take hqueue).1]
  exact reachable_loopStep hpendingTest (reachable_loopStep hrunningTest
    (reachable_loopStep htakePending .refl))

/-- A task that is not canceled is started, when the loop has taken it. -/
theorem reachable_setRunning {d : Daemon} {uuid : Text} (hpc : d.pc = .canceledTest uuid)
    (hnot : ¬ HasStatus d.vars uuid .canceled) :
    Reachable daemonStep d { d with pc := .setRunning uuid } := by
  refine reachable_loopStep ?_ .refl
  have hstatus : (d.vars.task uuid).status ≠ some .canceled := by
    intro heq
    rcases htask : d.vars.taskPool uuid with _ | task
    · rw [Vars.task, htask] at heq
      cases heq
    · rw [task_of_some htask] at heq
      exact hnot ⟨task, htask, heq⟩
  simp only [loopStep, hpc, hstatus, if_false]

/-- A task that is canceled is passed over. -/
theorem reachable_skip {d : Daemon} {uuid : Text} (hpc : d.pc = .canceledTest uuid)
    (hcanceled : HasStatus d.vars uuid .canceled) :
    Reachable daemonStep d { d with pc := .top } := by
  obtain ⟨task, htask, hstatus⟩ := hcanceled
  refine reachable_loopStep ?_ .refl
  simp only [loopStep, hpc, task_of_some htask, hstatus, if_true]

/-- What the loop has come to when it has dealt with the pipe. -/
structure PastPipe (d later : Daemon) : Prop where
  pc : later.pc = .pendingTest
  runningPool : later.vars.runningPool = []
  pendingQueue : later.vars.pendingQueue = d.vars.pendingQueue
  taskPool : ∀ uuid, Childless d.vars uuid → later.vars.taskPool uuid = d.vars.taskPool uuid

/-- A whole reply is recorded, and the entry of its task erased. -/
theorem exists_pastPipe_of_whole {d : Daemon} (hpc : d.pc = .readReply) {pid : ℕ} {child : Child}
    (hfd : d.vars.pipeFd = some pid) (hchild : d.vars.children pid = some child)
    (hwhole : child.reply = .whole)
    (hpool : ∀ key other, (key, other) ∈ d.vars.runningPool → key = child.request.uuid) :
    ∃ later, Reachable daemonStep d later ∧ PastPipe d later := by
  have hread : loopStep d = some { d with pc := .setFileSize child.request } := by
    simp only [loopStep, hpc, hfd, Option.bind_some, hchild, hwhole, if_true]
  refine ⟨_, reachable_loopStep hread (reachable_loopStep rfl (reachable_loopStep rfl
    (reachable_loopStep rfl (reachable_loopStep rfl .refl)))), rfl, ?_, rfl, ?_⟩
  · refine List.eq_nil_iff_forall_not_mem.mpr ?_
    rintro ⟨key, other⟩ hmem
    obtain ⟨hmem, hne⟩ := mem_eraseRunning.mp hmem
    exact hne (hpool key other hmem)
  · intro uuid hchildless
    have hother : uuid ≠ child.request.uuid := (hchildless pid child hchild).symm
    exact (Function.update_of_ne hother ..).trans (Function.update_of_ne hother ..)

/-- The end of file closes the pipe. -/
theorem exists_pastPipe_of_ended {d : Daemon} (hpc : d.pc = .readReply) {pid : ℕ} {child : Child}
    (hfd : d.vars.pipeFd = some pid) (hchild : d.vars.children pid = some child)
    (hreply : child.reply ≠ .whole) (hexit : child.exitStatus ≠ none)
    (hpool : d.vars.runningPool = []) :
    ∃ later, Reachable daemonStep d later ∧ PastPipe d later := by
  have hread : loopStep d = some { d with pc := .closePipe } := by
    simp only [loopStep, hpc, hfd, Option.bind_some, hchild, hreply, if_false,
      Option.isSome_iff_ne_none.mpr hexit, if_true]
  exact ⟨_, reachable_loopStep hread (reachable_loopStep rfl .refl), rfl, hpool, rfl, fun _ _ ↦ rfl⟩

/-- Assumes: a child at the pipe if there is something to read, and no entry in `running_pool` but
one whose reply will be read and will erase it. The loop comes to the test of the queue with an empty
pool. -/
theorem exists_pastPipe {d : Daemon} (hpc : d.pc = .pipeTest)
    (hready : d.pipeReady = true → ∀ pid, d.vars.pipeFd = some pid → d.vars.children pid ≠ none)
    (hpool : ∀ key pid, (key, pid) ∈ d.vars.runningPool → d.pipeReady = true ∧
      d.vars.pipeFd = some pid ∧ ∀ child, d.vars.children pid = some child →
        child.reply = .whole ∧ key = child.request.uuid) :
    ∃ later, Reachable daemonStep d later ∧ PastPipe d later := by
  have hempty : (∀ key pid, (key, pid) ∉ d.vars.runningPool) → d.vars.runningPool = [] :=
    fun hnone ↦ List.eq_nil_iff_forall_not_mem.mpr fun entry ↦ hnone entry.1 entry.2
  by_cases hread : (d.vars.pipeFd.isSome && d.pipeReady) = true
  · obtain ⟨hsome, hpipe⟩ := Bool.and_eq_true_iff.mp hread
    obtain ⟨pid, hfd⟩ := Option.isSome_iff_exists.mp hsome
    obtain ⟨child, hchild⟩ := Option.ne_none_iff_exists'.mp (hready hpipe pid hfd)
    have htest : loopStep d = some { d with pc := .readReply } := by
      simp only [loopStep, hpc, hread, if_true]
    by_cases hwhole : child.reply = .whole
    · obtain ⟨later, hrun, hpast⟩ := exists_pastPipe_of_whole (d := { d with pc := .readReply })
        rfl hfd hchild hwhole fun key other hmem ↦ by
          obtain ⟨-, hother, hentered⟩ := hpool key other hmem
          obtain rfl : other = pid := Option.some.inj (hother.symm.trans hfd)
          exact (hentered child hchild).2
      exact ⟨later, reachable_loopStep htest hrun, hpast.pc, hpast.runningPool,
        hpast.pendingQueue, hpast.taskPool⟩
    · have hnone : d.vars.runningPool = [] := hempty fun key other hmem ↦ by
        obtain ⟨-, hother, hentered⟩ := hpool key other hmem
        obtain rfl : other = pid := Option.some.inj (hother.symm.trans hfd)
        exact hwhole (hentered child hchild).1
      by_cases hexit : child.exitStatus = none
      · -- the child ends first
        generalize hended : d.vars.setChild pid { child with exitStatus := some 0 } = vars
        have hends : daemonStep { d with pc := .readReply } (.childExit pid 0) = some
            { d with vars := vars, pc := .readReply } := by
          simp only [daemonStep, childAct, Option.bind_some, Vars.childStep, hchild, hexit,
            Option.isSome_none, Bool.false_eq_true, if_false, Option.map_some, hended]
        have hchildEnded : vars.children pid = some { child with exitStatus := some 0 } := by
          rw [← hended]
          exact Function.update_self ..
        obtain ⟨later, hrun, hpast⟩ := exists_pastPipe_of_ended
          (d := { d with vars := vars, pc := .readReply }) rfl (hended ▸ hfd) hchildEnded hwhole
          (Option.some_ne_none 0) (hended ▸ hnone)
        subst hended
        refine ⟨later, reachable_loopStep htest ((Run.tail _ .refl trivial hends).trans hrun),
          hpast.pc, hpast.runningPool, hpast.pendingQueue, fun uuid hchildless ↦ ?_⟩
        exact hpast.taskPool uuid
          (hchildless.continue (childrenContinue_setChild hchild ⟨rfl, rfl, id⟩))
      · obtain ⟨later, hrun, hpast⟩ := exists_pastPipe_of_ended (d := { d with pc := .readReply })
          rfl hfd hchild hwhole hexit hnone
        exact ⟨later, reachable_loopStep htest hrun, hpast.pc, hpast.runningPool,
          hpast.pendingQueue, hpast.taskPool⟩
  · have htest : loopStep d = some { d with pc := .pendingTest } := by
      simp only [loopStep, hpc, if_neg hread]
    refine ⟨_, reachable_loopStep htest .refl, rfl, hempty fun key pid hmem ↦ ?_, rfl,
      fun _ _ ↦ rfl⟩
    obtain ⟨hpipe, hfd, -⟩ := hpool key pid hmem
    rw [hfd, hpipe] at hread
    exact hread rfl

/-- Assumes: the loop before `select`, with an empty `running_pool`. It comes to the test of the
queue. -/
theorem exists_pastPipe_of_top {d : Daemon} (hpc : d.pc = .top) (hpool : d.vars.runningPool = []) :
    ∃ later, Reachable daemonStep d later ∧ PastPipe d later := by
  obtain ⟨later, hrun, past⟩ := exists_pastPipe
    (d := { d with pc := .pipeTest, listenReady := false, pipeReady := d.vars.pipeReadable }) rfl
    (fun hready pid hfd ↦ exists_of_pipeReadable hready hfd) fun key pid hmem ↦ by
      rw [hpool] at hmem
      cases hmem
  exact ⟨later, (reachable_pipeTest hpc).trans hrun, past.pc, past.runningPool, past.pendingQueue,
    past.taskPool⟩

/-- The status of a queued task is what it was before the loop has dealt with the pipe. -/
theorem PastPipe.hasStatus_iff {d later : Daemon} (past : PastPipe d later) (ledger : Ledger d.vars)
    {uuid : Text} (hmem : uuid ∈ d.vars.pendingQueue) (status : Status) :
    HasStatus later.vars uuid status ↔ HasStatus d.vars uuid status := by
  rw [HasStatus, HasStatus, past.taskPool uuid (ledger.queued uuid hmem).2]

/-- Assumes: the loop at the test of the queue, with an empty `running_pool`. A queued task that is not
canceled can be started: those before it are passed over, or `pipe` fails for them. -/
theorem exists_setRunning {d : Daemon} (htracked : Tracked d) (hpc : d.pc = .pendingTest)
    (hpool : d.vars.runningPool = []) {uuid : Text} {front rest : List Text}
    (hqueue : d.vars.pendingQueue = front ++ uuid :: rest)
    (hnot : ¬ HasStatus d.vars uuid .canceled) :
    ∃ later, Reachable daemonStep d later ∧ later.pc = .setRunning uuid ∧
      later.vars.runningPool = [] ∧ later.vars.pendingQueue = rest := by
  induction front generalizing d with
  | nil =>
    have htaken := reachable_canceledTest htracked.1 hpc hpool hqueue
    exact ⟨_, htaken.trans (reachable_setRunning rfl hnot), rfl, hpool, rfl⟩
  | cons other front ih =>
    have htaken := reachable_canceledTest htracked.1 hpc hpool hqueue
    -- back to the test of the queue, which has one task less
    have hback : ∀ e, Reachable daemonStep d e → e.pc = .top → e.vars.runningPool = [] →
        e.vars.pendingQueue = front ++ uuid :: rest → ¬ HasStatus e.vars uuid .canceled →
        ∃ later, Reachable daemonStep d later ∧ later.pc = .setRunning uuid ∧
          later.vars.runningPool = [] ∧ later.vars.pendingQueue = rest := by
      intro e hrun htop hempty hfront hstatus
      obtain ⟨past, hpastRun, hpast⟩ := exists_pastPipe_of_top htop hempty
      have hmem : uuid ∈ e.vars.pendingQueue := by
        rw [hfront]
        exact List.mem_append_right _ (List.mem_cons_self ..)
      obtain ⟨later, hlater, hset⟩ := ih (htracked.of_run (hrun.trans hpastRun)) hpast.pc
        hpast.runningPool (hpast.pendingQueue.trans hfront)
        fun hcanceled ↦ hstatus
          ((hpast.hasStatus_iff (htracked.of_run hrun).1 hmem .canceled).mp hcanceled)
      exact ⟨later, (hrun.trans hpastRun).trans hlater, hset⟩
    by_cases hcanceled : HasStatus d.vars other .canceled
    · exact hback _ (htaken.trans (reachable_skip rfl hcanceled)) rfl hpool rfl hnot
    · have hne : uuid ≠ other := by
        rintro rfl
        have hnodup := htracked.1.nodup
        rw [hqueue, List.cons_append, List.nodup_cons] at hnodup
        exact hnodup.1 (List.mem_append_right _ (List.mem_cons_self ..))
      have hfails := (((htaken.trans (reachable_setRunning rfl hcanceled)).tail .next trivial
        rfl).tail (.pipe false) trivial rfl).tail .next trivial rfl
      refine hback _ hfails rfl hpool rfl fun hafter ↦ hnot ?_
      rw [hasStatus_setStatus, if_neg hne, hasStatus_setStatus, if_neg hne] at hafter
      exact hafter

end CppLearn.SearchEngine.LoopProgress
