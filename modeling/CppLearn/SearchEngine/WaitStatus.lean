import CppLearn.SearchEngine.TaskChanges

/-!
# How a child ends

`waitpid` reports an exit code in the second byte of the wait status and a signal in the first.
`subprocess_cleaness` looks at `WEXITSTATUS` alone, which is zero for every child that a signal has
ended, and knows two exit codes. `settled_iff` says that a task whose child ends without a reply
leaves the status `RUNNING` only for these two codes, and only if the handler finds a child that has
ended with one of them in `running_pool` under the uuid of the task: the child of the task, if it was
entered in time and the uuid was still there to be read. When the end of file on the pipe is handled
makes no difference.
-/

set_option autoImplicit false
set_option relaxedAutoImplicit false

namespace CppLearn.SearchEngine.WaitStatus

open Foundation.DecimalText Foundation.GuardedRun LoopMoves SearchDaemon TaskChanges TaskLedger
open TaskRequest

/-! ### Wait statuses -/

/-- How a process ends: by `exit` with a code, or by a signal. -/
inductive Ending
  | exited (code : BitVec 32)
  | signaled (signal : BitVec 32) (coreDumped : Bool)

/-- The wait status. -/
def waitStatus : Ending → BitVec 32
  | .exited code => (code &&& 0xff) <<< 8
  | .signaled signal coreDumped => (signal &&& 0x7f) ||| (if coreDumped then 0x80 else 0)

/-- `WEXITSTATUS`. -/
def wexitstatus (stat : BitVec 32) : BitVec 32 := (stat &&& 0xff00) >>> 8

/-- The exit code is one of the two that the handler knows. -/
def Coded (ending : Ending) : Prop :=
  ∃ code, ending = .exited code ∧ ((code &&& 0xff) = 40 ∨ (code &&& 0xff) = 50)

theorem wexitstatus_exited (code : BitVec 32) :
    wexitstatus (waitStatus (.exited code)) = code &&& 0xff := by
  apply BitVec.eq_of_getLsbD_eq
  intro index hindex
  interval_cases index <;> simp [wexitstatus, waitStatus]

theorem wexitstatus_signaled (signal : BitVec 32) (coreDumped : Bool) :
    wexitstatus (waitStatus (.signaled signal coreDumped)) = 0 := by
  apply BitVec.eq_of_getLsbD_eq
  intro index hindex
  interval_cases index <;> cases coreDumped <;> simp [wexitstatus, waitStatus]

theorem exists_settledStatus_iff (exitStatus : ℕ) :
    (∃ status, settledStatus exitStatus = some status) ↔
      exitStatus = sigtermErr ∨ exitStatus = sigsegvErr := by
  unfold settledStatus
  constructor
  · rintro ⟨status, hstatus⟩
    split_ifs at hstatus with hterm hsegv
    · exact .inl hterm
    · exact .inr hsegv
  · rintro (hterm | hsegv)
    · exact ⟨.canceled, if_pos hterm⟩
    · rw [hsegv]
      exact ⟨.failed, rfl⟩

/-- The handler gives a task a status for these two codes and for no other ending. -/
theorem exists_settledStatus_ending (ending : Ending) :
    (∃ status, settledStatus (wexitstatus (waitStatus ending)).toNat = some status) ↔
      Coded ending := by
  rw [exists_settledStatus_iff]
  cases ending with
  | exited code =>
    rw [wexitstatus_exited]
    constructor
    · intro hcode
      exact ⟨code, rfl, hcode.imp BitVec.eq_of_toNat_eq BitVec.eq_of_toNat_eq⟩
    · rintro ⟨code', hending, hcode⟩
      cases hending
      exact hcode.imp (congrArg BitVec.toNat) (congrArg BitVec.toNat)
  | signaled signal coreDumped =>
    rw [wexitstatus_signaled]
    constructor
    · rintro (hterm | hsegv)
      · cases hterm
      · cases hsegv
    · rintro ⟨code, hending, -⟩
      cases hending

/-- A code that the handler knows is that of some ending. -/
theorem exists_ending_of_settledStatus {exitStatus : ℕ} {status : Status}
    (hsettled : settledStatus exitStatus = some status) :
    ∃ ending, exitStatus = (wexitstatus (waitStatus ending)).toNat ∧ Coded ending := by
  rcases (exists_settledStatus_iff exitStatus).mp ⟨status, hsettled⟩ with rfl | rfl
  · exact ⟨.exited 40, by rw [wexitstatus_exited]; rfl, 40, rfl, .inl rfl⟩
  · exact ⟨.exited 50, by rw [wexitstatus_exited]; rfl, 50, rfl, .inr rfl⟩

/-! ### The statement -/

/-- The task is failed or canceled. -/
def Settled (v : Vars) (uuid : Text) : Prop :=
  HasStatus v uuid .failed ∨ HasStatus v uuid .canceled

/-- The child `pid` has been forked, and the handler comes to an entry of `running_pool` under the
uuid of its task, of a child that has ended with one of the two exit codes. -/
def Settles (pid : ℕ) (d : Daemon) (event : Event) : Prop :=
  ∃ child ended other removes ending, d.vars.children pid = some child ∧
    event = .sigchld other removes ∧ (child.request.uuid, other) ∈ d.vars.runningPool ∧
      d.vars.children other = some ended ∧
        ended.exitStatus = some (wexitstatus (waitStatus ending)).toNat ∧ Coded ending

/-- The child `pid` has been forked, and its task is failed or canceled. -/
def SettledChild (pid : ℕ) (d : Daemon) : Prop :=
  ∃ child, d.vars.children pid = some child ∧ Settled d.vars child.request.uuid

/-- The child `pid` has not written its whole reply, if it has been forked. -/
def Unreplied (pid : ℕ) (d : Daemon) : Prop :=
  ∀ child, d.vars.children pid = some child → child.reply ≠ .whole

/-! ### The status of a task whose child has not replied -/

/-- The child of a reply that is being recorded is the one that has written it. -/
theorem not_replied_of_reply {v : Vars} (ledger : Ledger v) {pid : ℕ} {child : Child}
    (hchild : v.children pid = some child) (hreply : child.reply ≠ .whole) :
    ¬ Replied v child.request.uuid := by
  rintro ⟨pid', child', -, hchild', huuid, hwhole⟩
  obtain rfl := ledger.single pid pid' child child' hchild hchild' huuid.symm
  rw [Option.some.inj (hchild.symm.trans hchild')] at hreply
  exact hreply hwhole

/-- Assumes: the daemon is sound. The status of a task whose child has not replied is replaced by the
handler alone. -/
theorem settled_of_statusChange {v v' : Vars} {p : Phase} {event : Event} (hsound : Sound v p)
    {pid : ℕ} {child : Child} (hchild : v.children pid = some child)
    (hreply : child.reply ≠ .whole) {status : Status}
    (hchange : StatusChange v v' p event child.request.uuid status) :
    (status = .canceled ∨ status = .failed) ∧ ∃ other removes ended ending,
      event = .sigchld other removes ∧ (child.request.uuid, other) ∈ v.runningPool ∧
        v.children other = some ended ∧
          ended.exitStatus = some (wexitstatus (waitStatus ending)).toNat ∧ Coded ending := by
  obtain ⟨ledger, hfacts⟩ := hsound
  generalize huuid : child.request.uuid = uuid at hchange
  cases hchange with
  | run uuid => exact absurd huuid (hfacts.2.2.2 pid child hchild)
  | fail uuid => exact absurd huuid (hfacts.2.1.2.2 pid child hchild)
  | finish reply => exact absurd (huuid ▸ hfacts) (not_replied_of_reply ledger hchild hreply)
  | settle p other exitStatus removes ended uuid status hmem hended hexit hreaped hsettled =>
    refine ⟨settledStatus_terminal hsettled, other, removes, ended, ?_⟩
    obtain ⟨ending, hstatus, hcoded⟩ := exists_ending_of_settledStatus hsettled
    exact ⟨ending, rfl, hmem, hended, hstatus ▸ hexit, hcoded⟩

/-- The task of a child that has not written its reply is running, or has been settled. -/
def Owed (v : Vars) : Prop :=
  ∀ pid child, v.children pid = some child → child.reply ≠ .whole →
    HasStatus v child.request.uuid .running ∨ Settled v child.request.uuid

/-- A child that has just been forked has a running task. -/
theorem running_of_forked {v v' : Vars} {uuid : Text} {event : Event} {p' : Phase}
    (hsound : Sound v (.forking uuid)) (heffect : Effect v (.forking uuid) event v' p') :
    HasStatus v' (newChild (v.task uuid)).request.uuid .running := by
  obtain ⟨ledger, hpool, ⟨-, ⟨task, htask, huuid⟩, -⟩, hstatus, -⟩ := hsound
  have hsame : (newChild (v.task uuid)).request.uuid = uuid := by
    rw [newChild, task_of_some htask]
    exact huuid
  rw [hsame]
  rcases hasStatus_of_effect heffect hstatus with hkept | ⟨status, hchange, -⟩
  · exact hkept
  · cases hchange with
    | settle p other exitStatus removes child uuid status hmem =>
      rw [hpool] at hmem
      cases hmem

theorem Owed.effect {v v' : Vars} {p p' : Phase} {event : Event} (howed : Owed v)
    (hsound : Sound v p) (heffect : Effect v p event v' p') : Owed v' := by
  intro pid next hnext hreply
  rcases grown_of_effect heffect hnext with
    ⟨child, hchild, hevolves⟩ | ⟨uuid, rfl, -, -, rfl⟩
  · have hbefore : child.reply ≠ .whole := fun hwhole ↦ hreply (hevolves.continues.2.2 hwhole)
    rw [hevolves.continues.1]
    have hkept : ∀ status, HasStatus v child.request.uuid status →
        HasStatus v' child.request.uuid status ∨ Settled v' child.request.uuid := by
      intro status hstatus
      rcases hasStatus_of_effect heffect hstatus with hsame | ⟨status', hchange, hafter⟩
      · exact .inl hsame
      · rcases (settled_of_statusChange hsound hchild hbefore hchange).1 with rfl | rfl
        · exact .inr (.inr hafter)
        · exact .inr (.inl hafter)
    rcases howed pid child hchild hbefore with hrunning | hfailed | hcanceled
    · exact hkept .running hrunning
    · exact .inr ((hkept .failed hfailed).elim .inl id)
    · exact .inr ((hkept .canceled hcanceled).elim .inr id)
  · exact .inl (running_of_forked hsound heffect)

theorem owed_of_run {allowed : Daemon → Event → Prop} {d : Daemon}
    (hrun : Run daemonStep allowed .start d) : Owed d.vars := by
  induction hrun with
  | refl =>
    intro pid child hchild
    cases hchild
  | tail event run _ htaken ih => exact ih.effect (tracked_of_run run) (daemonStep_effect htaken)

/-! ### The handler -/

/-- Assumes: a call of the handler that settles the task of a child. -/
theorem Settles.settled {d next : Daemon} {event : Event} {pid : ℕ} {child : Child}
    (hsettles : Settles pid d event) (htracked : Tracked d)
    (hstep : daemonStep d event = some next) (hchild : d.vars.children pid = some child) :
    Settled next.vars child.request.uuid := by
  obtain ⟨found, ended, other, removes, ending, hfound, rfl, hmem, hended, hexit, hcoded⟩ := hsettles
  obtain rfl : child = found := Option.some.inj (hchild.symm.trans hfound)
  obtain ⟨vars, hreap, rfl⟩ := reaps_of_sigchld hstep
  obtain ⟨status, hsettled⟩ := (exists_settledStatus_ending ending).mpr hcoded
  have hafter := hasStatus_settled htracked.1 hmem hended hexit hsettled hreap
  rcases settledStatus_terminal hsettled with rfl | rfl
  · exact .inr hafter
  · exact .inl hafter

/-- A child that is forked by a step has a task that is running. -/
theorem not_settledChild_of_fork {d next : Daemon} {event : Event} {pid : ℕ}
    (htracked : Tracked d) (hstep : daemonStep d event = some next)
    (hnone : d.vars.children pid = none) : ¬ SettledChild pid next := by
  have heffect := daemonStep_effect hstep
  rintro ⟨after, hafter, hsettled⟩
  rcases grown_of_effect heffect hafter with ⟨child, hchild, -⟩ | ⟨uuid, hphase, -, -, rfl⟩
  · cases hnone.symm.trans hchild
  · rw [Tracked, hphase] at htracked
    rw [hphase] at heffect
    have hrunning := running_of_forked htracked heffect
    rcases hsettled with hfailed | hcanceled
    · exact Status.noConfusion (hrunning.eq hfailed)
    · exact Status.noConfusion (hrunning.eq hcanceled)

section Unreplied

variable {d next : Daemon} {event : Event} {pid : ℕ} {child : Child}
  (hstep : daemonStep d event = some next) (hchild : d.vars.children pid = some child)
  (hreply : child.reply ≠ .whole)

include hstep hchild hreply

/-- Assumes: a child that has not written its whole reply. Its task stays settled. -/
theorem Settled.daemonStep (hsettled : Settled d.vars child.request.uuid) (htracked : Tracked d) :
    Settled next.vars child.request.uuid := by
  have hkept : ∀ status, HasStatus d.vars child.request.uuid status →
      HasStatus next.vars child.request.uuid status ∨ Settled next.vars child.request.uuid := by
    intro status hstatus
    rcases hasStatus_of_effect (daemonStep_effect hstep) hstatus with
      hsame | ⟨status', hchange, hreplaced⟩
    · exact .inl hsame
    · rcases (settled_of_statusChange htracked hchild hreply hchange).1 with rfl | rfl
      · exact .inr (.inr hreplaced)
      · exact .inr (.inl hreplaced)
  rcases hsettled with hfailed | hcanceled
  · exact (hkept .failed hfailed).elim .inl id
  · exact (hkept .canceled hcanceled).elim .inr id

/-- Assumes: a child that has not written its whole reply. If its task is settled after a step, it was
before or the handler has settled it. -/
theorem settled_or_settles (hrun : Reachable daemonStep .start d)
    (hsettled : Settled next.vars child.request.uuid) :
    Settled d.vars child.request.uuid ∨ Settles pid d event := by
  rcases owed_of_run hrun pid child hchild hreply with hrunning | hold
  · rcases hasStatus_of_effect (daemonStep_effect hstep) hrunning with hsame | ⟨status, hchange, -⟩
    · rcases hsettled with hfailed | hcanceled
      · exact Status.noConfusion (hsame.eq hfailed)
      · exact Status.noConfusion (hsame.eq hcanceled)
    · obtain ⟨-, other, removes, ended, ending, hevent, hmem, hended, hexit, hcoded⟩ :=
        settled_of_statusChange (tracked_of_run hrun) hchild hreply hchange
      exact .inr ⟨child, ended, other, removes, ending, hchild, hevent, hmem, hended, hexit, hcoded⟩
  · exact .inl hold

end Unreplied

/-- Assumes: a step, and a child at its end that has not written its whole reply. Its task is settled
if and only if it was before, or the step is a call of the handler that settles it. -/
theorem settled_step_iff {d next : Daemon} {event : Event} {pid : ℕ}
    (hrun : Reachable daemonStep .start d) (hstep : daemonStep d event = some next)
    (hreply : Unreplied pid next) :
    Unreplied pid d ∧ (SettledChild pid next ↔ SettledChild pid d ∨ Settles pid d event) := by
  have htracked := tracked_of_run hrun
  have hbefore : Unreplied pid d := by
    intro child hchild hwhole
    obtain ⟨after, hafter, hevolves⟩ := exists_evolves htracked (daemonStep_effect hstep) hchild
    exact hreply after hafter (hevolves.continues.2.2 hwhole)
  refine ⟨hbefore, ?_⟩
  rcases hfound : d.vars.children pid with _ | child
  · refine iff_of_false (not_settledChild_of_fork htracked hstep hfound) ?_
    rintro (⟨child, hchild, -⟩ | ⟨child, -, -, -, -, hchild, -⟩)
    · cases hfound.symm.trans hchild
    · cases hfound.symm.trans hchild
  · obtain ⟨after, hafter, hevolves⟩ := exists_evolves htracked (daemonStep_effect hstep) hfound
    have huuid := hevolves.continues.1
    constructor
    · rintro ⟨last, hlast, hsettled⟩
      obtain rfl : after = last := Option.some.inj (hafter.symm.trans hlast)
      rw [huuid] at hsettled
      exact (settled_or_settles hstep hfound (hbefore child hfound) hrun hsettled).imp_left
        fun hold ↦ ⟨child, hfound, hold⟩
    · rintro (⟨last, hlast, hsettled⟩ | hsettles)
      · obtain rfl : child = last := Option.some.inj (hfound.symm.trans hlast)
        refine ⟨after, hafter, ?_⟩
        rw [huuid]
        exact Settled.daemonStep hstep hfound (hbefore child hfound) hsettled htracked
      · refine ⟨after, hafter, ?_⟩
        rw [huuid]
        exact hsettles.settled htracked hstep hfound

/-- Assumes: a run at the end of which a child has not written its whole reply. Its task is failed or
canceled if and only if, since the child was forked, the handler has come to an entry of `running_pool`
under the uuid of the task, of a child that had ended with one of the two exit codes. When the end of
file on the pipe was handled makes no difference. -/
theorem settled_iff {events : List Event} {later : Daemon}
    (hexecute : execute daemonStep anyEvent .start events = some later) {pid : ℕ} {child : Child}
    (hchild : later.vars.children pid = some child) (hreply : child.reply ≠ .whole) :
    Settled later.vars child.request.uuid ↔ MetAlong daemonStep (Settles pid) .start events := by
  have hstart : ¬ SettledChild pid .start := by
    rintro ⟨found, hfound, -⟩
    cases hfound
  have hunreplied : Unreplied pid later := by
    intro found hfound
    rw [← Option.some.inj (hchild.symm.trans hfound)]
    exact hreply
  have hiff : SettledChild pid later ↔ MetAlong daemonStep (Settles pid) .start events :=
    iff_metAlong (fun _ hrun ↦ hrun) hstart
      (fun _ _ _ hrun hstep hmatters ↦ settled_step_iff hrun hstep hmatters) hexecute hunreplied
  rw [← hiff]
  constructor
  · exact fun hsettled ↦ ⟨child, hchild, hsettled⟩
  · rintro ⟨found, hfound, hsettled⟩
    rw [Option.some.inj (hchild.symm.trans hfound)]
    exact hsettled

/-- Assumes: a run in which the uuid was always there when the entry was made. The child of the entry is
that of the task, and has ended with one of the two codes. -/
theorem Settles.own {d : Daemon} {event : Event} {pid : ℕ} (hsettles : Settles pid d event)
    (hrun : Run daemonStep Intact .start d) :
    ∃ child removes ending, d.vars.children pid = some child ∧ event = .sigchld pid removes ∧
      (child.request.uuid, pid) ∈ d.vars.runningPool ∧
        child.exitStatus = some (wexitstatus (waitStatus ending)).toNat ∧ Coded ending := by
  obtain ⟨child, ended, other, removes, ending, hchild, rfl, hmem, hended, hexit, hcoded⟩ := hsettles
  have hsame := matched_of_run (fun _ _ hintact ↦ hintact) hrun _ other ended hmem hended
  obtain rfl := (tracked_of_run hrun).1.single other pid ended child hended hchild hsame
  obtain rfl : ended = child := Option.some.inj (hended.symm.trans hchild)
  exact ⟨ended, removes, ending, hchild, rfl, hmem, hexit, hcoded⟩

/-! ### Samples -/

/-- A task is started, its child ends and is reaped, and the loop comes to the end of file on the
pipe. -/
def endedEvents (exitStatus : ℕ) : List Event :=
  arrive 'a' ++ spawn 'a' ++ [.childExit 1 exitStatus, reap 1, .select false, .next, .next, .next,
    .next]

/-- A child with the exit code of `SIGTERM`. -/
theorem settled_iff_terminated : ∃ later child,
    execute daemonStep anyEvent .start (endedEvents 40) = some later ∧
      later.vars.children 1 = some child ∧
        (Settled later.vars child.request.uuid ↔
          MetAlong daemonStep (Settles 1) .start (endedEvents 40)) := by
  obtain ⟨later, child, hexecute, hchild, hreply⟩ :
      ∃ later child, execute daemonStep anyEvent .start (endedEvents 40) = some later ∧
        later.vars.children 1 = some child ∧ child.reply = .nothing := ⟨_, _, rfl, rfl, rfl⟩
  refine ⟨later, child, hexecute, hchild, settled_iff hexecute hchild ?_⟩
  rw [hreply]
  exact Reply.noConfusion

/-- A child without a reply is ended by `SIGKILL`: when the handler and the end of file are over, its
task is still running. -/
theorem not_settled : ¬ ∀ later pid child ending, Reachable daemonStep .start later →
    later.vars.children pid = some child →
    child.exitStatus = some (wexitstatus (waitStatus ending)).toNat → child.reply = .nothing →
    child.reaped = true → later.vars.pipeFd ≠ some pid → Settled later.vars child.request.uuid := by
  intro hclaim
  obtain ⟨later, child, hexecute, hchild, hending, hreply, hreaped, hpipe, hrunning⟩ :
      ∃ later child, execute daemonStep anyEvent .start (endedEvents 0) = some later ∧
        later.vars.children 1 = some child ∧
        child.exitStatus = some (wexitstatus (waitStatus (.signaled 9 false))).toNat ∧
        child.reply = .nothing ∧ child.reaped = true ∧ later.vars.pipeFd = none ∧
        HasStatus later.vars child.request.uuid .running :=
    ⟨_, _, rfl, rfl, rfl, rfl, rfl, rfl, _, rfl, rfl⟩
  have hclosed : later.vars.pipeFd ≠ some 1 := by
    rw [hpipe]
    exact (Option.some_ne_none 1).symm
  rcases hclaim later 1 child (.signaled 9 false) (run_of_execute hexecute) hchild hending hreply
    hreaped hclosed with hfailed | hcanceled
  · exact Status.noConfusion (hrunning.eq hfailed)
  · exact Status.noConfusion (hrunning.eq hcanceled)

end CppLearn.SearchEngine.WaitStatus
