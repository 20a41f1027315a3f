import CppLearn.SearchEngine.LoopPipe

/-!
# Requests to cancel a queued task

The branch for `cancel` looks in `running_pool` alone. For a task that is still queued it answers
`INVALID` and leaves the task `PENDING`, and the test for `CANCELED` before a task is started finds
nothing. `neverRuns_iff` says when such a task does not run all the same. Either `running_pool` has an
entry that nothing will erase, for then no task is started at all; or a child that has been terminated
was entered under the uuid of the task instead of its own, and all tasks before it are canceled, for
then the handler marks the task and the loop comes to it before any other child is entered.
-/

set_option autoImplicit false
set_option relaxedAutoImplicit false

namespace CppLearn.SearchEngine.CancelPending

open Foundation.DecimalText Foundation.GuardedRun SearchDaemon LoopMoves LoopPipe LoopProgress
open RunningPool TaskChanges TaskLedger TaskRequest

/-! ### The statement -/

/-- The daemon answers a request to cancel a task that is pending. -/
structure CancelAnswered (asked answered : Daemon) (uuid : Text) : Prop where
  request : ∃ reply, asked.pc = .answer reply ∧ reply.mode = "cancel".toList ∧ reply.uuid = uuid
  pending : HasStatus asked.vars uuid .pending
  taken : daemonStep asked .next = some answered

/-- However the run goes on, the task is not set to `RUNNING`. -/
def NeverRuns (d : Daemon) (uuid : Text) : Prop :=
  ∀ later, Reachable daemonStep d later → ¬ HasStatus later.vars uuid .running

/-- `running_pool` has an entry that nothing will erase: its child has been reaped, and the reply was
not written or is not that of the task of the entry. -/
def WaitsForDead (v : Vars) : Prop :=
  ∃ key pid child, (key, pid) ∈ v.runningPool ∧ v.children pid = some child ∧
    child.reaped = true ∧ (child.reply ≠ .whole ∨ child.request.uuid ≠ key)

/-- The handler will mark the queued task as canceled, for a child that has ended is entered under its
uuid, and all tasks before it in the queue are canceled. -/
def CanceledInQueue (v : Vars) (uuid : Text) : Prop :=
  ∃ front rest, v.pendingQueue = front ++ uuid :: rest ∧
    (∀ other ∈ front, HasStatus v other .canceled) ∧
      ∃ pid child, (uuid, pid) ∈ v.runningPool ∧ v.children pid = some child ∧
        child.exitStatus = some sigtermErr

/-! ### An entry that is never erased -/

/-- A child is reaped after it has ended. -/
theorem ended_of_run {allowed : Daemon → Event → Prop} {d : Daemon}
    (hrun : Run daemonStep allowed .start d) :
    ∀ pid child, d.vars.children pid = some child → child.reaped = true →
      child.exitStatus ≠ none := by
  induction hrun with
  | refl =>
    intro pid child hchild
    cases hchild
  | tail event run _ taken ih =>
    intro pid next hnext hreaped
    rcases grown_of_effect (daemonStep_effect taken) hnext with
      ⟨child, hchild, hevolves⟩ | ⟨uuid, -, -, -, rfl⟩
    · have hended : child.exitStatus ≠ none := by
        by_cases hbefore : child.reaped = true
        · exact ih pid child hchild hbefore
        · exact (hevolves.unreaped (Bool.eq_false_of_not_eq_true hbefore) hreaped).2
      rw [(hevolves.ended hended).1]
      exact hended
    · cases hreaped

/-- Assumes: a reply that is being recorded. It is that of the child of every entry whose pipe is still
there. -/
theorem uuid_of_replied {v : Vars} (ledger : Ledger v) {uuid : Text} (hreplied : Replied v uuid)
    {key : Text} {pid : ℕ} {child : Child} (hmem : (key, pid) ∈ v.runningPool)
    (hchild : v.children pid = some child) :
    child.reply = .whole ∧ child.request.uuid = uuid := by
  obtain ⟨pid', child', hfd, hchild', huuid, hwhole⟩ := hreplied
  rcases (ledger.running key pid hmem).2 with hpipe | hpipe
  · obtain rfl : pid = pid' := Option.some.inj (hpipe.symm.trans hfd)
    rw [Option.some.inj (hchild.symm.trans hchild')]
    exact ⟨hwhole, huuid⟩
  · cases hpipe.symm.trans hfd

/-- Assumes: no child that was reaped before it ended. The entry is left by every step. -/
theorem WaitsForDead.effect {v v' : Vars} {p p' : Phase} {event : Event} (hdead : WaitsForDead v)
    (hsound : Sound v p) (hended : ∀ pid child, v.children pid = some child →
      child.reaped = true → child.exitStatus ≠ none) (heffect : Effect v p event v' p') :
    WaitsForDead v' := by
  obtain ⟨key, pid, child, hmem, hchild, hreaped, hreply⟩ := hdead
  obtain ⟨next, hnext, hevolves⟩ := exists_evolves hsound heffect hchild
  have hexit := hended pid child hchild hreaped
  have hafter : (key, pid) ∈ v'.runningPool := by
    rcases mem_runningPool_of_effect hsound heffect hmem with
      hsame | ⟨removes, hreap⟩ | ⟨reply, rfl, rfl⟩
    · exact hsame
    · -- a child is reaped once
      obtain ⟨fresh, -, hfresh, -, hunreaped, -⟩ := subprocessCleaness_reaps hreap
      rw [← Option.some.inj (hchild.symm.trans hfresh), hreaped] at hunreaped
      cases hunreaped
    · obtain ⟨hwhole, huuid⟩ := uuid_of_replied hsound.1 hsound.2 hmem hchild
      exact hreply.elim (absurd hwhole) (absurd huuid)
  refine ⟨key, pid, next, hafter, hnext, hevolves.reaped hreaped, ?_⟩
  rw [(hevolves.ended hexit).2, hevolves.continues.1]
  exact hreply

/-- A pending task stays pending while the entry is there. -/
theorem pending_effect {v v' : Vars} {p p' : Phase} {event : Event} (hdead : WaitsForDead v)
    (hsound : Sound v p) (heffect : Effect v p event v' p') {uuid : Text}
    (hpending : HasStatus v uuid .pending) : HasStatus v' uuid .pending := by
  obtain ⟨key, pid, child, hmem, hchild, hreaped, -⟩ := hdead
  obtain ⟨ledger, hfacts⟩ := hsound
  have hnonempty : v.runningPool ≠ [] := List.ne_nil_of_mem hmem
  rcases hasStatus_of_effect heffect hpending with hsame | ⟨status, hchange, -⟩
  · exact hsame
  · cases hchange with
    | run uuid => exact absurd hfacts.1 hnonempty
    | fail uuid => exact absurd hfacts.1 hnonempty
    | finish reply =>
      obtain ⟨pid', child', -, hchild', huuid, -⟩ := hfacts
      exact absurd (huuid ▸ hpending) (ledger.not_pending hchild')
    | settle p pid' exitStatus removes child' uuid status hentry hchild' hexit hfresh =>
      -- the one entry is that of a child that has been reaped
      obtain ⟨-, rfl⟩ := Prod.mk.inj (ledger.sole _ hmem _ hentry)
      rw [← Option.some.inj (hchild.symm.trans hchild'), hreaped] at hfresh
      cases hfresh

/-- Assumes: a reachable state with such an entry. A pending task is never started. -/
theorem neverRuns_of_waitsForDead {d : Daemon} (hreach : Reachable daemonStep .start d)
    (hdead : WaitsForDead d.vars) {uuid : Text} (hpending : HasStatus d.vars uuid .pending) :
    NeverRuns d uuid := by
  intro later hlater hrunning
  have hkept : WaitsForDead later.vars ∧ HasStatus later.vars uuid .pending := by
    clear hrunning
    induction hlater with
    | refl => exact ⟨hdead, hpending⟩
    | tail event run _ taken ih =>
      have hsound := tracked_of_run (hreach.trans run)
      have heffect := daemonStep_effect taken
      exact ⟨ih.1.effect hsound (ended_of_run (hreach.trans run)) heffect,
        pending_effect ih.1 hsound heffect ih.2⟩
  exact Status.noConfusion (hkept.2.eq hrunning)

/-! ### A queue that moves on -/

/-- A pending task is in the queue, or about to be queued or started. -/
def PendingQueued (v : Vars) (p : Phase) : Prop :=
  ∀ uuid, HasStatus v uuid .pending →
    uuid ∈ v.pendingQueue ∨ p = .pushing uuid ∨ p = .spawning uuid

/-- A task that is pending after a step was pending before it, or has just been stored. -/
theorem pending_of_effect {v v' : Vars} {p p' : Phase} {event : Event} (hsound : Sound v p)
    (heffect : Effect v p event v' p') {uuid : Text} (hpending : HasStatus v' uuid .pending) :
    HasStatus v uuid .pending ∨ p' = .pushing uuid := by
  have hset : ∀ vars other status, status ≠ .pending →
      HasStatus (Vars.setStatus vars other status) uuid .pending → HasStatus vars uuid .pending := by
    intro vars other status hne hafter
    rw [hasStatus_setStatus] at hafter
    split_ifs at hafter
    · exact absurd hafter.symm hne
    · exact hafter
  cases heffect with
  | store request hnew =>
    rw [hasStatus_setTask] at hpending
    split_ifs at hpending with heq
    · exact .inr (heq ▸ rfl)
    · exact .inl hpending
  | fileSize reply => exact .inl ((hasStatus_setFileSize ..).mp hpending)
  | finish reply => exact .inl (hset v _ .finished Status.noConfusion hpending)
  | take other pending hqueue =>
    rw [(hsound.1.take hqueue).1] at hpending
    exact .inl hpending
  | run other => exact .inl (hset v _ .running Status.noConfusion hpending)
  | fail other => exact .inl (hset v _ .failed Status.noConfusion hpending)
  | sigchld p pid removes v' hreap =>
    obtain ⟨child, exitStatus, -, -, hcases⟩ := subprocessCleaness_cases hreap
    rcases hcases with ⟨-, rfl⟩ | ⟨key, -, rfl⟩
    · exact .inl hpending
    · rw [settle_eq] at hpending
      rcases hsettled : settledStatus exitStatus with _ | status
      · rw [hsettled] at hpending
        exact .inl hpending
      · rw [hsettled] at hpending
        exact .inl (hset _ key status (settledStatus_ne hsettled).1 hpending)
  | _ => exact .inl hpending

theorem PendingQueued.effect {v v' : Vars} {p p' : Phase} {event : Event}
    (queued : PendingQueued v p) (hsound : Sound v p) (heffect : Effect v p event v' p') :
    PendingQueued v' p' := by
  intro uuid hpending
  rcases pending_of_effect hsound heffect hpending with hold | hpushing
  · have hbefore := queued uuid hold
    cases heffect with
    | quiet => exact hbefore
    | child => exact hbefore
    | sigchld p pid removes v' hreap =>
      rw [(runningPool_subprocessCleaness hsound.1 hreap).2.1]
      exact hbefore
    | push other =>
      rcases hbefore with hmem | hphase | hphase
      · exact .inl (List.mem_append_left _ hmem)
      · cases hphase
        exact .inl (List.mem_append_right _ (List.mem_singleton_self _))
      · cases hphase
    | take other pending hqueue =>
      rcases hbefore with hmem | hphase | hphase
      · rw [hqueue] at hmem
        rcases List.mem_cons.mp hmem with rfl | hmem
        · exact .inr (.inr rfl)
        · exact .inl hmem
      · cases hphase
      · cases hphase
    | skip other hstatus =>
      rcases hbefore with hmem | hphase | hphase
      · exact .inl hmem
      · cases hphase
      · cases hphase
        obtain ⟨task, htask, hpend⟩ := hold
        rw [task_of_some htask, hpend] at hstatus
        cases hstatus
    | run other =>
      rcases hbefore with hmem | hphase | hphase
      · exact .inl hmem
      · cases hphase
      · cases hphase
        rw [hasStatus_setStatus, if_pos rfl] at hpending
        cases hpending
    | _ =>
      rcases hbefore with hmem | hphase | hphase
      · exact .inl hmem
      · cases hphase
      · cases hphase
  · exact .inr (.inl hpushing)

theorem pendingQueued_of_run {allowed : Daemon → Event → Prop} {d : Daemon}
    (hrun : Run daemonStep allowed .start d) : PendingQueued d.vars (phase d.pc) := by
  induction hrun with
  | refl =>
    rintro uuid ⟨task, htask, -⟩
    cases htask
  | tail event run _ taken ih => exact ih.effect (tracked_of_run run) (daemonStep_effect taken)

/-- From the test of the queue the loop comes back to `select`, where a child runs. -/
theorem reachable_top {d : Daemon} (hpc : d.pc = .pendingTest) (hpool : d.vars.runningPool ≠ []) :
    Reachable daemonStep d { d with pc := .top } := by
  by_cases hqueue : d.vars.pendingQueue = []
  · exact reachable_loopStep (by simp only [loopStep, hpc, hqueue, if_true]) .refl
  · refine reachable_loopStep (by simp only [loopStep, hpc, hqueue, if_false]; rfl)
      (reachable_loopStep ?_ .refl)
    simp only [loopStep, hpool, if_false]

/-- The handler waits for a child that has ended. Its entry is erased, and the status of a task is
replaced only if it stands under the uuid of the task and the child ended with an error code. -/
theorem exists_reaped {d : Daemon} (htracked : Tracked d) (halive : d.alive = true)
    {key : Text} {pid : ℕ} {child : Child} (hmem : (key, pid) ∈ d.vars.runningPool)
    (hchild : d.vars.children pid = some child) (hreaped : child.reaped = false) {exitStatus : ℕ}
    (hexit : child.exitStatus = some exitStatus) :
    ∃ next, Reachable daemonStep d next ∧ next.pc = d.pc ∧
      next.vars.pendingQueue = d.vars.pendingQueue ∧ next.vars.runningPool = [] ∧
      next.vars.taskPool = (d.vars.settle (fun _ _ ↦ false) key exitStatus).taskPool := by
  obtain ⟨vars, hreap⟩ : ∃ vars, d.vars.subprocessCleaness (fun _ _ ↦ false) pid = some vars := by
    simp only [Vars.subprocessCleaness, hchild, Option.bind_some, hexit, hreaped,
      Bool.false_eq_true, if_false]
    split
    · exact ⟨_, rfl⟩
    · exact ⟨_, rfl⟩
  have htaken : daemonStep d (.sigchld pid fun _ _ ↦ false) = some { d with vars := vars } := by
    simp only [daemonStep, halive, if_true, hreap, Option.map_some]
  obtain ⟨-, hqueue, hpool⟩ := runningPool_subprocessCleaness htracked.1 hreap
  refine ⟨_, Run.tail _ .refl trivial htaken, rfl, hqueue, ?_, ?_⟩
  · refine List.eq_nil_iff_forall_not_mem.mpr fun entry hentry ↦ ?_
    obtain ⟨hold, hne⟩ := (hpool entry.1 entry.2).mp hentry
    exact hne (congrArg Prod.snd (htracked.1.sole entry hold _ hmem))
  · obtain ⟨found, exitStatus', hfound, hexit', hcases⟩ := subprocessCleaness_cases hreap
    obtain rfl : child = found := Option.some.inj (hchild.symm.trans hfound)
    obtain rfl : exitStatus = exitStatus' := Option.some.inj (hexit.symm.trans hexit')
    rcases hcases with ⟨hnone, -⟩ | ⟨other, hother, rfl⟩
    · exact absurd hmem (hnone key)
    · obtain ⟨rfl, -⟩ := Prod.mk.inj (htracked.1.sole _ hmem _ hother)
      simp only [settle_eq]
      split
      · rfl
      · rfl

/-- A child that runs can end. -/
theorem daemonStep_childExit {d : Daemon} {pid : ℕ} {child : Child} (exitStatus : ℕ)
    (hchild : d.vars.children pid = some child) (hexit : child.exitStatus = none) :
    daemonStep d (.childExit pid exitStatus) =
      some { d with
        vars := d.vars.setChild pid { child with exitStatus := some exitStatus } } := by
  simp only [daemonStep, childAct, Option.bind_some, Vars.childStep, hchild, hexit,
    Option.isSome_none, Bool.false_eq_true, if_false, Option.map_some]

/-- What the loop has come to when it has dealt with the pipe and the handler with the child that has
an entry: no queued task is canceled that was not, but for one that the entry stood under. -/
structure Cleared (d later : Daemon) : Prop where
  pc : later.pc = .pendingTest
  runningPool : later.vars.runningPool = []
  pendingQueue : later.vars.pendingQueue = d.vars.pendingQueue
  canceled : ∀ uuid ∈ d.vars.pendingQueue, HasStatus later.vars uuid .canceled →
    HasStatus d.vars uuid .canceled ∨ ∃ pid child, (uuid, pid) ∈ d.vars.runningPool ∧
      d.vars.children pid = some child ∧ child.exitStatus = some sigtermErr

theorem cleared_of_pastPipe {d later : Daemon} (ledger : Ledger d.vars) (past : PastPipe d later) :
    Cleared d later where
  pc := past.pc
  runningPool := past.runningPool
  pendingQueue := past.pendingQueue
  canceled := fun _ hmem hcanceled ↦ .inl ((past.hasStatus_iff ledger hmem .canceled).mp hcanceled)

/-- A status that the handler has not written. -/
theorem hasStatus_of_settle {v : Vars} {removes : Text → Text → Bool} {key : Text} {exitStatus : ℕ}
    {uuid : Text} {status : Status}
    (hstatus : HasStatus (v.settle removes key exitStatus) uuid status) :
    HasStatus v uuid status ∨ uuid = key ∧ settledStatus exitStatus = some status := by
  rw [settle_eq] at hstatus
  rcases hsettled : settledStatus exitStatus with _ | written
  · rw [hsettled] at hstatus
    exact .inl hstatus
  · rw [hsettled] at hstatus
    have hset := (hasStatus_setStatus _ key written uuid status).mp hstatus
    split_ifs at hset with huuid
    · exact .inr ⟨huuid, congrArg some hset.symm⟩
    · exact .inl hset

section BeforePipe

variable {d : Daemon} (hreach : Reachable daemonStep .start d) (hpc : d.pc = .pipeTest)

include hreach hpc

/-- Nothing keeps the loop from the queue where `running_pool` is empty. -/
theorem exists_cleared_of_empty (hpool : d.vars.runningPool = []) :
    ∃ later, Reachable daemonStep d later ∧ Cleared d later := by
  obtain ⟨later, hrun, past⟩ := exists_pastPipe hpc (readable_of_run hreach (hpc ▸ rfl))
    fun key pid hmem ↦ by
      rw [hpool] at hmem
      cases hmem
  exact ⟨later, hrun, cleared_of_pastPipe (tracked_of_run hreach).1 past⟩

/-- Assumes: a child that has written its whole reply, with an entry under its uuid. The reply is read
now, if `select` has seen it, or after the next `select`. -/
theorem exists_cleared_of_replied {pid : ℕ} {child : Child}
    (hmem : (child.request.uuid, pid) ∈ d.vars.runningPool)
    (hchild : d.vars.children pid = some child) (hwhole : child.reply = .whole) :
    ∃ later, Reachable daemonStep d later ∧ Cleared d later := by
  have hledger := (tracked_of_run hreach).1
  have hfd := (atPipe_of_run hreach pid child hmem hchild (.inr hwhole)).1
  have hread : ∀ {e : Daemon}, Reachable daemonStep .start e → e.pc = .pipeTest →
      e.pipeReady = true → e.vars = d.vars →
        ∃ later, Reachable daemonStep e later ∧ PastPipe e later := by
    intro e hfrom htest hbit hvars
    refine exists_pastPipe htest (readable_of_run hfrom (htest ▸ rfl)) fun key pid' hother ↦ ?_
    rw [hvars] at hother ⊢
    obtain ⟨rfl, rfl⟩ := Prod.mk.inj (hledger.sole _ hother _ hmem)
    refine ⟨hbit, hfd, fun child' hchild' ↦ ?_⟩
    rw [Option.some.inj (hchild'.symm.trans hchild)]
    exact ⟨hwhole, rfl⟩
  by_cases hbit : d.pipeReady = true
  · obtain ⟨later, hrun, past⟩ := hread hreach hpc hbit rfl
    exact ⟨later, hrun, cleared_of_pastPipe hledger past⟩
  · have htest : loopStep d = some { d with pc := .pendingTest } := by
      simp only [loopStep, hpc, hbit, Bool.and_false, Bool.false_eq_true, if_false]
    have htop : Reachable daemonStep d { d with pc := .top } :=
      reachable_loopStep htest (reachable_top rfl (List.ne_nil_of_mem hmem))
    have hselect := htop.trans (reachable_pipeTest rfl)
    have hwatched : d.vars.pipeWatched = true := by
      rcases watched_of_run hreach _ pid hmem hfd with hwatched | hwatch
      · exact hwatched
      · cases hpc.symm.trans hwatch
    have hreadable : d.vars.pipeReadable = true := by
      simp only [Vars.pipeReadable, hfd, Option.bind_some, hchild, hwatched, hwhole,
        Bool.true_and, Bool.or_eq_true, bne_iff_ne, ne_eq, reduceCtorEq, not_false_eq_true,
        true_or]
    obtain ⟨later, hrun, past⟩ := hread (hreach.trans hselect) rfl hreadable rfl
    exact ⟨later, hselect.trans hrun, cleared_of_pastPipe hledger
      ⟨past.pc, past.runningPool, past.pendingQueue, past.taskPool⟩⟩

/-- Assumes: a child that has ended and has not been reaped. The handler erases its entry. -/
theorem exists_cleared_of_ended {key : Text} {pid : ℕ} {child : Child}
    (hmem : (key, pid) ∈ d.vars.runningPool) (hchild : d.vars.children pid = some child)
    (hreaped : child.reaped = false) {exitStatus : ℕ} (hexit : child.exitStatus = some exitStatus) :
    ∃ later, Reachable daemonStep d later ∧ Cleared d later := by
  have halive : d.alive = true := by
    rw [Daemon.alive, hpc]
    rfl
  obtain ⟨next, hrun, hnext, hqueue, hpool, htasks⟩ :=
    exists_reaped (tracked_of_run hreach) halive hmem hchild hreaped hexit
  obtain ⟨later, hlater, hcleared⟩ :=
    exists_cleared_of_empty (hreach.trans hrun) (hnext.trans hpc) hpool
  refine ⟨later, hrun.trans hlater, hcleared.pc, hcleared.runningPool,
    hcleared.pendingQueue.trans hqueue, fun uuid hqueued hcanceled ↦ ?_⟩
  rcases hcleared.canceled uuid (hqueue ▸ hqueued) hcanceled with hbefore | ⟨other, -, hentry, -⟩
  · rw [HasStatus, htasks] at hbefore
    rcases hasStatus_of_settle hbefore with hold | ⟨rfl, hsettled⟩
    · exact .inl hold
    · refine .inr ⟨pid, child, hmem, hchild, ?_⟩
      unfold settledStatus at hsettled
      split_ifs at hsettled with hterm
      · rw [hexit, hterm]
      · cases hsettled
  · rw [hpool] at hentry
    cases hentry

/-- Assumes: a reachable state before the pipe is looked at, and no entry that is never erased. The
loop comes to the test of the queue with an empty `running_pool`. -/
theorem exists_cleared (hlive : ¬ WaitsForDead d.vars) :
    ∃ later, Reachable daemonStep d later ∧ Cleared d later := by
  by_cases hpool : d.vars.runningPool = []
  · exact exists_cleared_of_empty hreach hpc hpool
  · obtain ⟨⟨key, pid⟩, hmem⟩ := List.exists_mem_of_ne_nil _ hpool
    obtain ⟨⟨child, hchild⟩, -⟩ := (tracked_of_run hreach).1.running key pid hmem
    by_cases hreaped : child.reaped = true
    · have hentered : child.reply = .whole ∧ child.request.uuid = key := by
        by_contra hneither
        exact hlive ⟨key, pid, child, hmem, hchild, hreaped, not_and_or.mp hneither⟩
      obtain ⟨hwhole, rfl⟩ := hentered
      exact exists_cleared_of_replied hreach hpc hmem hchild hwhole
    · have hunreaped := Bool.eq_false_of_not_eq_true hreaped
      rcases hexit : child.exitStatus with _ | exitStatus
      · -- the child ends first
        have hends := daemonStep_childExit 0 hchild hexit
        have hrun : Reachable daemonStep d _ := Run.tail _ .refl trivial hends
        obtain ⟨later, hlater, hcleared⟩ := exists_cleared_of_ended (hreach.trans hrun) hpc hmem
          (Function.update_self ..) hunreaped rfl
        refine ⟨later, hrun.trans hlater, hcleared.pc, hcleared.runningPool, hcleared.pendingQueue,
          fun uuid hqueued hcanceled ↦ ?_⟩
        rcases hcleared.canceled uuid hqueued hcanceled with hold | ⟨other, ended, hentry, hother, hterm⟩
        · exact .inl hold
        · obtain ⟨-, rfl⟩ := Prod.mk.inj ((tracked_of_run hreach).1.sole _ hentry _ hmem)
          have hended := hother.symm.trans (Function.update_self ..)
          rw [Option.some.inj hended] at hterm
          cases hterm
      · exact exists_cleared_of_ended hreach hpc hmem hchild hunreaped hexit

end BeforePipe

/-- Assumes: the loop about to start a task, with an empty `running_pool`. Its child is entered under
another uuid and fails, and the task of that uuid is marked as failed. -/
theorem exists_failed {d : Daemon} (htracked : Tracked d) {other : Text}
    (hpc : d.pc = .setRunning other) (hpool : d.vars.runningPool = []) (uuid : Text) :
    ∃ later, Reachable daemonStep d later ∧ later.pc = .top ∧ later.vars.runningPool = [] ∧
      later.vars.pendingQueue = d.vars.pendingQueue ∧ HasStatus later.vars uuid .failed := by
  obtain ⟨entered, child, hrun, htop, hqueue, hchild, hreaped, hexit, hmem⟩ :
      ∃ entered child, Reachable daemonStep d entered ∧ entered.pc = .top ∧
        entered.vars.pendingQueue = d.vars.pendingQueue ∧
        entered.vars.children d.vars.nextPipe = some child ∧ child.reaped = false ∧
        child.exitStatus = none ∧ (uuid, d.vars.nextPipe) ∈ entered.vars.runningPool := by
    obtain ⟨vars, pc, listenReady, pipeReady, answers⟩ := d
    subst hpc
    have hentered : Reachable daemonStep
        (Daemon.mk vars (.setRunning other) listenReady pipeReady answers) _ :=
      (((((Run.refl.tail .next trivial rfl).tail (.pipe true) trivial rfl).tail (.fork true) trivial
        rfl).tail (.insert uuid) trivial rfl).tail .next trivial rfl)
    exact ⟨_, _, hentered, rfl, rfl, Function.update_self .., rfl, rfl,
      List.mem_append_right _ (List.mem_singleton_self _)⟩
  have hends := hrun.tail _ trivial (daemonStep_childExit sigsegvErr hchild hexit)
  obtain ⟨later, hlater, hpcLater, hqueueLater, hempty, htasks⟩ := exists_reaped
    (htracked.of_run hends) (by rw [Daemon.alive, htop]; rfl) hmem (Function.update_self ..)
    hreaped rfl
  refine ⟨later, hends.trans hlater, hpcLater.trans htop, hempty, hqueueLater.trans hqueue, ?_⟩
  rw [HasStatus, htasks, settle_eq]
  refine (hasStatus_setStatus _ uuid .failed uuid .failed).mpr ?_
  rw [if_pos rfl]

/-- Assumes: a reachable state before the pipe is looked at, no entry that is never erased, and a
pending task that the handler will not cancel in the queue. The task can be started. -/
theorem exists_started {d : Daemon} (hreach : Reachable daemonStep .start d)
    (hpc : d.pc = .pipeTest) (hlive : ¬ WaitsForDead d.vars) {uuid : Text}
    (hkept : ¬ CanceledInQueue d.vars uuid) (hpending : HasStatus d.vars uuid .pending)
    (hmem : uuid ∈ d.vars.pendingQueue) :
    ∃ later, Reachable daemonStep d later ∧ later.pc = .setRunning uuid := by
  have htracked := tracked_of_run hreach
  obtain ⟨past, hrun, hcleared⟩ := exists_cleared hreach hpc hlive
  obtain ⟨front, rest, hqueue⟩ := List.append_of_mem hmem
  have hpastQueue := hcleared.pendingQueue.trans hqueue
  by_cases hcanceled : HasStatus past.vars uuid .canceled
  · -- the handler has marked the task, but one before it is started
    rcases hcleared.canceled uuid hmem hcanceled with hold | ⟨pid, child, hentry, hchild, hexit⟩
    · exact Status.noConfusion (hpending.eq hold)
    · obtain ⟨other, hother, hnot⟩ : ∃ other ∈ front, ¬ HasStatus past.vars other .canceled := by
        by_contra hall
        push Not at hall
        refine hkept ⟨front, rest, hqueue, fun other hother ↦ ?_, pid, child, hentry, hchild, hexit⟩
        have hqueued : other ∈ d.vars.pendingQueue := by
          rw [hqueue]
          exact List.mem_append_left _ hother
        rcases hcleared.canceled other hqueued (hall other hother) with hold | ⟨pid', -, hentry', -⟩
        · exact hold
        · obtain ⟨rfl, -⟩ := Prod.mk.inj (htracked.1.sole _ hentry' _ hentry)
          have hnodup := htracked.1.nodup
          rw [hqueue] at hnodup
          exact absurd rfl
            ((List.nodup_append.mp hnodup).2.2 other hother other (List.mem_cons_self ..))
      obtain ⟨before, between, rfl⟩ := List.append_of_mem hother
      rw [List.append_assoc, List.cons_append] at hpastQueue
      obtain ⟨started, hstarted, hset, hempty, hleft⟩ := exists_setRunning
        (htracked.of_run hrun) hcleared.pc hcleared.runningPool hpastQueue hnot
      obtain ⟨failed, hfailed, htop, hnone, hstill, hstatus⟩ := exists_failed
        (htracked.of_run (hrun.trans hstarted)) hset hempty uuid
      have hbefore := (hrun.trans hstarted).trans hfailed
      obtain ⟨turned, hturned, hturn⟩ := exists_pastPipe_of_top htop hnone
      have hqueueTurned := hturn.pendingQueue.trans (hstill.trans hleft)
      have hqueued : uuid ∈ failed.vars.pendingQueue := by
        rw [hstill, hleft]
        exact List.mem_append_right _ (List.mem_cons_self ..)
      have hnotCanceled : ¬ HasStatus turned.vars uuid .canceled := fun hafter ↦
        Status.noConfusion (hstatus.eq ((hturn.hasStatus_iff (htracked.of_run hbefore).1 hqueued
          .canceled).mp hafter))
      obtain ⟨later, hlater, hfound, -⟩ := exists_setRunning
        (htracked.of_run (hbefore.trans hturned)) hturn.pc hturn.runningPool hqueueTurned
        hnotCanceled
      exact ⟨later, (hbefore.trans hturned).trans hlater, hfound⟩
  · obtain ⟨later, hlater, hfound, -⟩ := exists_setRunning (htracked.of_run hrun) hcleared.pc
      hcleared.runningPool hpastQueue hcanceled
    exact ⟨later, hrun.trans hlater, hfound⟩

/-! ### A task that is canceled in the queue -/

/-- The task that the loop has taken and still to test. -/
def taken : Pc → List Text
  | .canceledTest uuid => [uuid]
  | _ => []

/-- The loop has taken a task and is starting it. -/
def starts : Pc → Bool
  | .setRunning _ => true
  | .callPipe _ => true
  | .callFork _ => true
  | .setFailed _ => true
  | .insertRunning _ _ => true
  | _ => false

/-- The loop will pass over the task: all tasks before it are canceled, and so is it, or it will be
when the handler erases the entry that stands under its uuid. -/
structure WillPass (d : Daemon) (uuid : Text) : Prop where
  waits : starts d.pc = false
  queue : ∃ front rest, taken d.pc ++ d.vars.pendingQueue = front ++ uuid :: rest ∧
    ∀ other ∈ front, HasStatus d.vars other .canceled
  status : d.vars.runningPool = [] ∧ HasStatus d.vars uuid .canceled ∨
    HasStatus d.vars uuid .pending ∧ ∃ pid child, (uuid, pid) ∈ d.vars.runningPool ∧
      d.vars.children pid = some child ∧ child.exitStatus = some sigtermErr

/-- The loop is about to queue the task or to start it. -/
def Names : Phase → Text → Prop
  | .pushing uuid, other => uuid = other
  | .spawning uuid, other => uuid = other
  | _, _ => False

/-- The loop has passed over the task: it is in the pool, not running, and no longer queued. -/
structure HasPassed (v : Vars) (p : Phase) (uuid : Text) : Prop where
  queue : uuid ∉ v.pendingQueue
  names : ¬ Names p uuid
  status : ∃ status, HasStatus v uuid status ∧ status ≠ .running

theorem HasPassed.effect {v v' : Vars} {p p' : Phase} {event : Event} {uuid : Text}
    (passed : HasPassed v p uuid) (heffect : Effect v p event v' p') :
    HasPassed v' p' uuid := by
  obtain ⟨hqueue, hnames, status, hstatus, hne⟩ := passed
  have hafter : ∃ status', HasStatus v' uuid status' ∧ status' ≠ .running := by
    rcases hasStatus_of_effect heffect hstatus with hsame | ⟨status', hchange, hreplaced⟩
    · exact ⟨status, hsame, hne⟩
    · refine ⟨status', hreplaced, ?_⟩
      cases hchange with
      | run uuid => exact absurd rfl hnames
      | fail uuid => exact Status.noConfusion
      | finish reply => exact Status.noConfusion
      | settle p pid exitStatus removes child uuid status' hmem hchild hexit hfresh hsettled =>
        exact (settledStatus_ne hsettled).2.1
  cases heffect with
  | quiet => exact ⟨hqueue, hnames, hafter⟩
  | child => exact ⟨hqueue, hnames, hafter⟩
  | sigchld p pid removes v' hreap =>
    have hsame : v'.pendingQueue = v.pendingQueue := by
      obtain ⟨child, exitStatus, -, -, hcases⟩ := subprocessCleaness_cases hreap
      rcases hcases with ⟨-, rfl⟩ | ⟨key, -, rfl⟩
      · rfl
      · rw [settle_eq]
        rcases settledStatus exitStatus with _ | written
        · rfl
        · rfl
    exact ⟨hsame ▸ hqueue, hnames, hafter⟩
  | store request hnew =>
    refine ⟨hqueue, ?_, hafter⟩
    rintro rfl
    obtain ⟨task, htask, -⟩ := hstatus
    cases hnew.symm.trans htask
  | push other =>
    refine ⟨fun hmem ↦ ?_, id, hafter⟩
    rcases List.mem_append.mp hmem with hold | hnew
    · exact hqueue hold
    · exact hnames (List.mem_singleton.mp hnew).symm
  | take other pending hfront =>
    rw [hfront] at hqueue
    exact ⟨fun hmem ↦ hqueue (List.mem_cons_of_mem _ hmem),
      fun heq ↦ hqueue (heq ▸ List.mem_cons_self ..), hafter⟩
  | _ => exact ⟨hqueue, id, hafter⟩

/-- The task that the loop has taken and those in the queue are different, and have no child. -/
theorem line_of_tracked {d : Daemon} (htracked : Tracked d) :
    (taken d.pc ++ d.vars.pendingQueue).Nodup ∧
      ∀ uuid ∈ taken d.pc ++ d.vars.pendingQueue, Childless d.vars uuid := by
  obtain ⟨ledger, hfacts⟩ := htracked
  cases hpc : d.pc with
  | canceledTest other =>
    rw [hpc] at hfacts
    obtain ⟨-, hqueue, -, hchildless⟩ := hfacts
    refine ⟨List.nodup_cons.mpr ⟨hqueue, ledger.nodup⟩, fun uuid hmem ↦ ?_⟩
    rcases List.mem_cons.mp hmem with rfl | hqueued
    · exact hchildless
    · exact (ledger.queued uuid hqueued).2
  | _ => exact ⟨ledger.nodup, fun uuid hmem ↦ (ledger.queued uuid hmem).2⟩

theorem starts_of_starting {pc : Pc} {uuid : Text} (hphase : phase pc = .starting uuid) :
    starts pc = true := by
  cases pc with
  | callPipe other => rfl
  | setFailed other => rfl
  | _ => cases hphase

/-- Where the loop is not starting a task, a step looks at the status of the one that it has taken, or
the line is as it was but for tasks that are queued behind. -/
theorem line_of_daemonStep {d next : Daemon} {event : Event} (htracked : Tracked d)
    (hwaits : starts d.pc = false) (hstep : daemonStep d event = some next) :
    (∃ uuid, d.pc = .canceledTest uuid ∧ next.vars = d.vars ∧
      ((d.vars.task uuid).status = some .canceled → next.pc = .top)) ∨
    (starts next.pc = false ∧ (event = .next → ∀ uuid, phase d.pc ≠ .spawning uuid) ∧
      ∃ behind, taken next.pc ++ next.vars.pendingQueue =
        taken d.pc ++ d.vars.pendingQueue ++ behind) := by
  cases daemonMove_of_daemonStep hstep with
  | accept arrival hpc =>
    refine .inr ⟨?_, Event.noConfusion, [], ?_⟩
    · unfold dispatch
      split_ifs
      · rfl
      · rfl
      · rfl
      · rfl
    · rw [hpc]
      unfold dispatch
      split_ifs
      · exact (List.append_nil _).symm
      · exact (List.append_nil _).symm
      · exact (List.append_nil _).symm
      · exact (List.append_nil _).symm
  | interrupted hpc => exact .inr ⟨hwaits, Event.noConfusion, [], (List.append_nil _).symm⟩
  | loop next hpc hloop =>
    cases loopMove_of_loopStep hloop with
    | push uuid hpc =>
      rw [hpc]
      exact .inr ⟨rfl, fun _ _ ↦ Phase.noConfusion, [uuid], rfl⟩
    | take uuid pending hpc hqueue =>
      rw [hpc]
      refine .inr ⟨rfl, fun _ _ ↦ Phase.noConfusion, [], ?_⟩
      rw [List.append_nil, hqueue]
      rfl
    | skip uuid hpc hstatus => exact .inl ⟨uuid, hpc, rfl, fun _ ↦ rfl⟩
    | keep uuid hpc hstatus => exact .inl ⟨uuid, hpc, rfl, fun hcanceled ↦ absurd hcanceled hstatus⟩
    | setRunning uuid hpc =>
      rw [hpc] at hwaits
      cases hwaits
    | setFailed uuid hpc =>
      rw [hpc] at hwaits
      cases hwaits
    | _ =>
      rw [‹d.pc = _›]
      exact .inr ⟨rfl, fun _ _ ↦ Phase.noConfusion, [], (List.append_nil _).symm⟩
  | sigchld pid removes vars hreap =>
    refine .inr ⟨hwaits, Event.noConfusion, [], ?_⟩
    rw [List.append_nil, (runningPool_subprocessCleaness htracked.1 hreap).2.1]
  | child event pid act vars hevent hmoved =>
    refine .inr ⟨hwaits, ?_, [], ?_⟩
    · rintro rfl
      cases hevent
    · obtain ⟨child, -, hmoved⟩ := Option.bind_eq_some_iff.mp hmoved
      split_ifs at hmoved
      obtain ⟨after, -, rfl⟩ := Option.map_eq_some_iff.mp hmoved
      exact (List.append_nil _).symm
  | pipe uuid hpc =>
    rw [hpc] at hwaits
    cases hwaits
  | pipeFails uuid hpc =>
    rw [hpc] at hwaits
    cases hwaits
  | fork uuid pid hpc hfd =>
    rw [hpc] at hwaits
    cases hwaits
  | forkFails uuid pid hpc hfd =>
    rw [hpc] at hwaits
    cases hwaits
  | insert key uuid pid hpc =>
    rw [hpc] at hwaits
    cases hwaits
  | noRequest hpc =>
    rw [hpc]
    exact .inr ⟨rfl, fun _ _ ↦ Phase.noConfusion, [], (List.append_nil _).symm⟩
  | _ =>
    rw [‹d.pc = _›]
    exact .inr ⟨rfl, Event.noConfusion, [], (List.append_nil _).symm⟩

/-- Assumes: a step that does not start a task. A task in the line keeps its status, but for one whose
uuid the entry stands under that the handler finds. -/
theorem hasStatus_of_line {d next : Daemon} {event : Event} (htracked : Tracked d)
    (hwaits : starts d.pc = false) (hspawn : event = .next → ∀ uuid, phase d.pc ≠ .spawning uuid)
    (hstep : daemonStep d event = some next) {uuid : Text} {status : Status}
    (hmem : uuid ∈ taken d.pc ++ d.vars.pendingQueue) (hbefore : HasStatus d.vars uuid status)
    (hnone : ∀ removes pid, event = .sigchld pid removes → (uuid, pid) ∉ d.vars.runningPool) :
    HasStatus next.vars uuid status := by
  have hchildless := (line_of_tracked htracked).2
  generalize hphase : phase d.pc = p at *
  have heffect := daemonStep_effect hstep
  rw [hphase] at heffect
  rcases hasStatus_of_effect heffect hbefore with hsame | ⟨status', hchange, -⟩
  · exact hsame
  · cases hchange with
    | run uuid => exact absurd rfl (hspawn rfl uuid)
    | fail uuid => exact Bool.noConfusion (hwaits.symm.trans (starts_of_starting hphase))
    | finish reply =>
      have hfacts := htracked.2
      rw [hphase] at hfacts
      obtain ⟨pid, child, -, hchild, huuid, -⟩ := hfacts
      exact absurd huuid (hchildless _ hmem pid child hchild)
    | settle p pid exitStatus removes child uuid status hentry =>
      exact absurd hentry (hnone removes pid rfl)

/-- The loop tests the first task of the line. If that is the one to be passed over, it has been. -/
theorem WillPass.test {d next : Daemon} {uuid other : Text} (will : WillPass d uuid)
    (htracked : Tracked d) (hpc : d.pc = .canceledTest other) (hvars : next.vars = d.vars)
    (hskip : (d.vars.task other).status = some .canceled → next.pc = .top) :
    WillPass next uuid ∨ HasPassed next.vars (phase next.pc) uuid := by
  obtain ⟨-, ⟨front, rest, hline, hfront⟩, hstatus⟩ := will
  have hfacts := htracked.2
  rw [hpc] at hline hfacts
  have hcanceled : d.vars.runningPool = [] ∧ HasStatus d.vars uuid .canceled := by
    rcases hstatus with hboth | ⟨-, pid, child, hentry, -⟩
    · exact hboth
    · rw [hfacts.1] at hentry
      cases hentry
  have htask : ∀ name, HasStatus d.vars name .canceled →
      (d.vars.task name).status = some .canceled := by
    rintro name ⟨task, htask, heq⟩
    rw [task_of_some htask, heq]
  cases front with
  | nil =>
    obtain ⟨rfl, hqueue⟩ := List.cons.inj hline
    rw [hskip (htask _ hcanceled.2), hvars]
    exact .inr ⟨hfacts.2.1, id, .canceled, hcanceled.2, Status.noConfusion⟩
  | cons first front =>
    obtain ⟨rfl, hqueue⟩ := List.cons.inj hline
    have htop := hskip (htask _ (hfront _ (List.mem_cons_self ..)))
    refine .inl ⟨htop ▸ rfl, ⟨front, rest, ?_, fun name hname ↦ ?_⟩, ?_⟩
    · rw [htop, hvars]
      exact hqueue
    · rw [hvars]
      exact hfront name (List.mem_cons_of_mem _ hname)
    · rw [hvars]
      exact hstatus

/-- Assumes: a step that does not start a task. The tasks before the one to be passed over stay
canceled. -/
theorem WillPass.front {d next : Daemon} {event : Event} {uuid : Text} (will : WillPass d uuid)
    (htracked : Tracked d) (hspawn : event = .next → ∀ uuid, phase d.pc ≠ .spawning uuid)
    (hstep : daemonStep d event = some next) :
    ∃ front rest, taken d.pc ++ d.vars.pendingQueue = front ++ uuid :: rest ∧
      ∀ other ∈ front, HasStatus next.vars other .canceled := by
  obtain ⟨hwaits, ⟨front, rest, hline, hfront⟩, hstatus⟩ := will
  have hnodup := (line_of_tracked htracked).1
  refine ⟨front, rest, hline, fun other hother ↦ ?_⟩
  have hmem : other ∈ taken d.pc ++ d.vars.pendingQueue := by
    rw [hline]
    exact List.mem_append_left _ hother
  refine hasStatus_of_line htracked hwaits hspawn hstep hmem (hfront other hother)
    fun removes pid _ hentry ↦ ?_
  rcases hstatus with ⟨hempty, -⟩ | ⟨-, pid', child, hentry', -⟩
  · rw [hempty] at hentry
    cases hentry
  · obtain ⟨rfl, -⟩ := Prod.mk.inj (htracked.1.sole _ hentry _ hentry')
    rw [hline] at hnodup
    exact (List.nodup_append.mp hnodup).2.2 other hother other (List.mem_cons_self ..) rfl

/-- Assumes: a step that does not start a task. The task stays canceled, or the entry under its uuid
stays where it is until the handler comes to it. -/
theorem WillPass.mark {d next : Daemon} {event : Event} {uuid : Text} (will : WillPass d uuid)
    (htracked : Tracked d) (hspawn : event = .next → ∀ uuid, phase d.pc ≠ .spawning uuid)
    (hstep : daemonStep d event = some next) :
    next.vars.runningPool = [] ∧ HasStatus next.vars uuid .canceled ∨
      HasStatus next.vars uuid .pending ∧ ∃ pid child, (uuid, pid) ∈ next.vars.runningPool ∧
        next.vars.children pid = some child ∧ child.exitStatus = some sigtermErr := by
  obtain ⟨hwaits, ⟨front, rest, hline, -⟩, hstatus⟩ := will
  have hmem : uuid ∈ taken d.pc ++ d.vars.pendingQueue := by
    rw [hline]
    exact List.mem_append_right _ (List.mem_cons_self ..)
  rcases hstatus with ⟨hempty, hcanceled⟩ | ⟨hpending, pid, child, hentry, hchild, hexit⟩
  · refine .inl ⟨?_, hasStatus_of_line htracked hwaits hspawn hstep hmem hcanceled
      fun removes pid _ hentry ↦ ?_⟩
    · rcases runningPool_of_effect htracked (daemonStep_effect hstep) with
        hold | ⟨key, name, pid, hphase, -⟩
      · exact List.eq_nil_iff_forall_not_mem.mpr fun entry hentry ↦ by
          have hbefore := hold entry hentry
          rw [hempty] at hbefore
          cases hbefore
      · rw [pc_of_inserting hphase] at hwaits
        cases hwaits
    · rw [hempty] at hentry
      cases hentry
  · obtain ⟨after, hafter, hevolves⟩ := exists_evolves htracked (daemonStep_effect hstep) hchild
    have hexitAfter : after.exitStatus = some sigtermErr :=
      (hevolves.ended (hexit ▸ Option.some_ne_none _)).1.trans hexit
    rcases mem_runningPool_of_effect htracked (daemonStep_effect hstep) hentry with
      hkept | ⟨removes, hreap⟩ | ⟨reply, hphase, rfl⟩
    · refine .inr ⟨?_, pid, after, hkept, hafter, hexitAfter⟩
      refine hasStatus_of_line htracked hwaits hspawn hstep hmem hpending
        fun removes pid' heq hentry' ↦ ?_
      -- the handler would have erased the entry
      obtain ⟨-, rfl⟩ := Prod.mk.inj (htracked.1.sole _ hentry _ hentry')
      rw [heq] at hstep
      obtain ⟨vars, hreap, rfl⟩ := reaps_of_sigchld hstep
      exact ((runningPool_subprocessCleaness htracked.1 hreap).2.2 _ _).mp hkept |>.2 rfl
    · refine .inl ⟨?_, hasStatus_settled htracked.1 hentry hchild hexit rfl hreap⟩
      refine List.eq_nil_iff_forall_not_mem.mpr fun entry hother ↦ ?_
      obtain ⟨hold, hne⟩ :=
        ((runningPool_subprocessCleaness htracked.1 hreap).2.2 entry.1 entry.2).mp hother
      exact hne (congrArg Prod.snd (htracked.1.sole entry hold _ hentry))
    · have hfacts := htracked.2
      rw [hphase] at hfacts
      obtain ⟨pid', child', -, hchild', huuid, -⟩ := hfacts
      exact absurd huuid ((line_of_tracked htracked).2 _ hmem pid' child' hchild')

/-- A step leaves the task to be passed over, or passes over it. -/
theorem WillPass.daemonStep {d next : Daemon} {event : Event} {uuid : Text}
    (will : WillPass d uuid) (htracked : Tracked d) (hstep : daemonStep d event = some next) :
    WillPass next uuid ∨ HasPassed next.vars (phase next.pc) uuid := by
  rcases line_of_daemonStep htracked will.waits hstep with
    ⟨other, hpc, hvars, hskip⟩ | ⟨hwaits, hspawn, behind, hbehind⟩
  · exact will.test htracked hpc hvars hskip
  · obtain ⟨front, rest, hline, hfront⟩ := will.front htracked hspawn hstep
    refine .inl ⟨hwaits, ⟨front, rest ++ behind, ?_, hfront⟩, will.mark htracked hspawn hstep⟩
    rw [hbehind, hline, List.append_assoc, List.cons_append]

/-- Assumes: the loop about to answer, and a task that the handler will cancel in the queue. It is
never started. -/
theorem neverRuns_of_canceledInQueue {d : Daemon} (hreach : Reachable daemonStep .start d)
    {reply : TaskInfo} (hpc : d.pc = .answer reply) {uuid : Text}
    (hkept : CanceledInQueue d.vars uuid) (hpending : HasStatus d.vars uuid .pending) :
    NeverRuns d uuid := by
  intro later hlater hrunning
  have hpassed : WillPass later uuid ∨ HasPassed later.vars (phase later.pc) uuid := by
    clear hrunning
    induction hlater with
    | refl =>
      obtain ⟨front, rest, hqueue, hfront, hentry⟩ := hkept
      refine .inl ⟨hpc ▸ rfl, ⟨front, rest, ?_, hfront⟩, .inr ⟨hpending, hentry⟩⟩
      rw [hpc]
      exact hqueue
    | tail event run _ hstep ih =>
      rcases ih with will | passed
      · exact will.daemonStep (tracked_of_run (hreach.trans run)) hstep
      · exact .inr (passed.effect (daemonStep_effect hstep))
  rcases hpassed with will | passed
  · rcases will.status with ⟨-, hcanceled⟩ | ⟨hstill, -⟩
    · exact Status.noConfusion (hcanceled.eq hrunning)
    · exact Status.noConfusion (hstill.eq hrunning)
  · obtain ⟨status, hstatus, hne⟩ := passed.status
    exact hne (hstatus.eq hrunning)

/-! ### The request to cancel -/

/-- Assumes: a request to cancel a pending task is answered. The task never runs exactly when
`running_pool` has an entry that nothing will erase, or one under the uuid of the task, of a child
that has been terminated, with canceled tasks before it in the queue. -/
theorem neverRuns_iff {asked answered : Daemon} {uuid : Text}
    (hreach : Reachable daemonStep .start asked) (hcancel : CancelAnswered asked answered uuid) :
    NeverRuns answered uuid ↔ WaitsForDead asked.vars ∨ CanceledInQueue asked.vars uuid := by
  obtain ⟨⟨reply, hpc, -, -⟩, hpending, hstep⟩ := hcancel
  have hnext : answered = { asked with pc := .pipeTest, answers := asked.answers ++ [reply] } := by
    have hloop : loopStep asked = some answered := by
      simpa only [SearchDaemon.daemonStep, hpc, reduceCtorEq, if_false] using hstep
    simpa only [loopStep, hpc, Option.some.injEq, eq_comm] using hloop
  have hanswered : Reachable daemonStep asked answered := Run.tail .next .refl trivial hstep
  have hboth : NeverRuns asked uuid → NeverRuns answered uuid :=
    fun hnever later hlater ↦ hnever later (hanswered.trans hlater)
  constructor
  · intro hnever
    by_contra hneither
    obtain ⟨hlive, hkept⟩ := not_or.mp hneither
    have hqueued : uuid ∈ asked.vars.pendingQueue := by
      have hfound := pendingQueued_of_run hreach uuid hpending
      rw [hpc] at hfound
      rcases hfound with hmem | hphase | hphase
      · exact hmem
      · cases hphase
      · cases hphase
    have hfrom := hreach.trans hanswered
    subst hnext
    obtain ⟨later, hlater, hset⟩ := exists_started hfrom rfl hlive hkept hpending hqueued
    have hstarts : SearchDaemon.daemonStep later .next = some { later with
        vars := later.vars.setStatus uuid .running, pc := .callPipe uuid } := by
      simp only [SearchDaemon.daemonStep, hset, reduceCtorEq, if_false, loopStep]
    refine hnever _ (hlater.tail .next trivial hstarts) ?_
    refine (hasStatus_setStatus _ uuid .running uuid .running).mpr ?_
    rw [if_pos rfl]
  · rintro (hdead | hkept)
    · exact hboth (neverRuns_of_waitsForDead hreach hdead hpending)
    · exact hboth (neverRuns_of_canceledInQueue hreach hpc hkept hpending)

/-! ### Samples -/

/-- A request to cancel the task `b`, up to its answer. -/
def cancelSecond : List Event := [.select true, .accept (some (cancelArrival 'b')), .next]

/-- The child of the task `a` is reaped before the loop enters it into `running_pool`. The task `b`,
which is queued behind it, never runs, and so its cancellation is kept. -/
theorem neverRuns_of_entered_late : ∃ asked answered, Reachable daemonStep .start asked ∧
    CancelAnswered asked answered ['b'] ∧ NeverRuns answered ['b'] := by
  obtain ⟨asked, answered, reply, task, child, hexecute, hstep, hpc, hmode, htask, hmem, hchild,
      hreaped, hreply⟩ :
      ∃ asked answered reply task child, execute daemonStep anyEvent .start (arrive 'a' ++
          takeNext ++ [.fork true, .childExit 1 50, reap 1, .insert ['a'], .next] ++ arrive 'b' ++
            [.next, .next, .next, .next, .next] ++ cancelSecond) = some asked ∧
        daemonStep asked .next = some answered ∧ asked.pc = .answer reply ∧
        (reply.mode = "cancel".toList ∧ reply.uuid = ['b']) ∧
        (asked.vars.taskPool ['b'] = some task ∧ task.status = some .pending) ∧
        (['a'], 1) ∈ asked.vars.runningPool ∧ asked.vars.children 1 = some child ∧
          child.reaped = true ∧ child.reply = .nothing :=
    ⟨_, _, _, _, _, rfl, rfl, rfl, ⟨rfl, rfl⟩, ⟨rfl, rfl⟩, List.mem_singleton_self _, rfl, rfl,
      rfl⟩
  have hreach := run_of_execute hexecute
  have hcancel : CancelAnswered asked answered ['b'] := ⟨⟨reply, hpc, hmode⟩, ⟨task, htask⟩, hstep⟩
  exact ⟨asked, answered, hreach, hcancel,
    (neverRuns_iff hreach hcancel).mpr (.inl ⟨['a'], 1, child, hmem, hchild, hreaped,
      .inl fun hwhole ↦ Reply.noConfusion (hreply.symm.trans hwhole)⟩)⟩

/-- The task `b` is queued behind `a`, a request to cancel it is answered, and when `a` is done it
runs. -/
theorem not_neverRuns : ¬ ∀ asked answered uuid, Reachable daemonStep .start asked →
    CancelAnswered asked answered uuid → NeverRuns answered uuid := by
  intro hclaim
  obtain ⟨asked, answered, later, reply, task, task', hexecute, hstep, hrest, hpc, hmode, htask,
      htask'⟩ :
      ∃ asked answered later reply task task', execute daemonStep anyEvent .start (arrive 'a' ++
          spawn 'a' ++ arrive 'b' ++ [.next, .next, .next] ++ cancelSecond) = some asked ∧
        daemonStep asked .next = some answered ∧
        execute daemonStep anyEvent answered [.childExit 1 0, reap 1, .next, .next, .next,
          .next, .next, .next] = some later ∧
        asked.pc = .answer reply ∧ (reply.mode = "cancel".toList ∧ reply.uuid = ['b']) ∧
        (asked.vars.taskPool ['b'] = some task ∧ task.status = some .pending) ∧
        later.vars.taskPool ['b'] = some task' ∧ task'.status = some .running :=
    ⟨_, _, _, _, _, _, rfl, rfl, rfl, rfl, ⟨rfl, rfl⟩, ⟨rfl, rfl⟩, rfl, rfl⟩
  exact hclaim asked answered ['b'] (run_of_execute hexecute)
    ⟨⟨reply, hpc, hmode⟩, ⟨task, htask⟩, hstep⟩ later (run_of_execute hrest) ⟨task', htask'⟩

end CppLearn.SearchEngine.CancelPending
