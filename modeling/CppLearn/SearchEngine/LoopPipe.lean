import CppLearn.SearchEngine.RunningPool

/-!
# The pipe that the loop watches

What the statements of the loop do to `pipe_fd[0]` and to its membership in `all_set`, and what holds
of them in every run: there is a child at the pipe when the loop comes to read from it, and the pipe
of an entry of `running_pool` is watched.
-/

set_option autoImplicit false
set_option relaxedAutoImplicit false

namespace CppLearn.SearchEngine.LoopPipe

open Foundation.DecimalText Foundation.GuardedRun SearchDaemon LoopMoves LoopProgress RunningPool
open TaskChanges TaskLedger TaskRequest

/-! ### The pipe in one step -/

/-- What a step leaves of `pipe_fd[0]` and of its membership in `all_set`. -/
def pipeAfter (d : Daemon) : Event → Option ℕ × Bool
  | .next =>
    match d.pc with
    | .closePipe => (none, false)
    | .watchPipe => (d.vars.pipeFd, true)
    | _ => (d.vars.pipeFd, d.vars.pipeWatched)
  | .pipe true => (some d.vars.nextPipe, false)
  | _ => (d.vars.pipeFd, d.vars.pipeWatched)

/-- Two statements of the loop are about the pipe that it has. -/
theorem pipeAfter_next {d : Daemon} (hclose : d.pc ≠ .closePipe) (hwatch : d.pc ≠ .watchPipe) :
    pipeAfter d .next = (d.vars.pipeFd, d.vars.pipeWatched) := by
  simp only [pipeAfter]

theorem pipe_loopStep {d next : Daemon} (htaken : loopStep d = some next) :
    (next.vars.pipeFd, next.vars.pipeWatched) = pipeAfter d .next := by
  cases loopMove_of_loopStep htaken with
  | _ =>
    simp only [pipeAfter, ‹d.pc = _›, Vars.setTask, Vars.setStatus, Vars.setFileSize,
      Vars.eraseRunning, Vars.setChild]

/-- The event is one of the handler or of a child: the loop stays where it is. -/
def aside : Event → Bool
  | .sigchld _ _ => true
  | .childOpen _ => true
  | .childWrite _ => true
  | .childReply _ _ => true
  | .childTerminated _ => true
  | .childExit _ _ => true
  | _ => false

theorem aside_of_childAct {event : Event} {pid : ℕ} {act : Child → Option Child}
    (hevent : childAct event = some (pid, act)) : aside event = true := by
  cases event with
  | childOpen pid => rfl
  | childWrite pid => rfl
  | childReply pid fileSize => rfl
  | childTerminated pid => rfl
  | childExit pid exitStatus => rfl
  | _ => cases hevent

theorem pipeAfter_aside {event : Event} (haside : aside event = true) (d : Daemon) :
    pipeAfter d event = (d.vars.pipeFd, d.vars.pipeWatched) := by
  cases event with
  | next => cases haside
  | pipe success => cases haside
  | _ => rfl

/-- The handler and the children change neither the loop nor the pipe. -/
theorem daemonStep_aside {d next : Daemon} {event : Event} (haside : aside event = true)
    (htaken : daemonStep d event = some next) :
    next = { d with vars := next.vars } ∧ next.vars.pipeFd = d.vars.pipeFd ∧
      next.vars.pipeWatched = d.vars.pipeWatched := by
  cases daemonMove_of_daemonStep htaken with
  | sigchld pid removes vars hreap =>
    obtain ⟨child, exitStatus, -, -, hcases⟩ := subprocessCleaness_cases hreap
    rcases hcases with ⟨-, rfl⟩ | ⟨key, -, rfl⟩
    · exact ⟨rfl, rfl, rfl⟩
    · rw [settle_eq]
      rcases settledStatus exitStatus with _ | status
      · exact ⟨rfl, rfl, rfl⟩
      · exact ⟨rfl, rfl, rfl⟩
  | child event pid act vars hevent hstep =>
    obtain ⟨child, -, hvars⟩ := Option.bind_eq_some_iff.mp hstep
    split_ifs at hvars
    obtain ⟨after, -, rfl⟩ := Option.map_eq_some_iff.mp hvars
    exact ⟨rfl, rfl, rfl⟩
  | _ => cases haside

theorem pipe_daemonStep {d next : Daemon} {event : Event} (htaken : daemonStep d event = some next) :
    (next.vars.pipeFd, next.vars.pipeWatched) = pipeAfter d event := by
  have hquiet : aside event = true →
      (next.vars.pipeFd, next.vars.pipeWatched) = pipeAfter d event := by
    intro haside
    obtain ⟨-, hfd, hwatched⟩ := daemonStep_aside haside htaken
    rw [hfd, hwatched, pipeAfter_aside haside]
  cases daemonMove_of_daemonStep htaken with
  | noRequest hpc => simp only [pipeAfter, hpc]
  | loop next hpc hloop => exact pipe_loopStep hloop
  | sigchld pid removes vars hreap => exact hquiet rfl
  | child event pid act vars hevent hstep => exact hquiet (aside_of_childAct hevent)
  | _ => rfl

/-! ### A request in the loop -/

/-- The loop is at a request that it has read. -/
def serving : Pc → Bool
  | .statusTest _ => true
  | .statusStatus _ => true
  | .statusFileSize _ => true
  | .cancelTest _ => true
  | .cancelKill _ => true
  | .answer _ => true
  | .answerSearch _ => true
  | .storeTask _ => true
  | .pushPending _ => true
  | _ => false

/-- A request is served to its end, unless the daemon kills itself, and then comes the pipe. -/
theorem serving_loopStep {d next : Daemon} (htaken : loopStep d = some next) :
    next.pc ≠ .listenTest ∧ next.pipeReady = d.pipeReady ∧
      (serving d.pc = true ↔ serving next.pc = true ∨ next.pc = .pipeTest ∨ next.pc = .exited) := by
  cases loopMove_of_loopStep htaken with
  | _ => simp [‹d.pc = _›, serving]

/-- The loop has still to look at the pipe. -/
def beforePipe : Pc → Bool
  | .listenTest => true
  | .pipeTest => true
  | pc => serving pc

theorem beforePipe_iff {pc : Pc} :
    beforePipe pc = true ↔ pc = .listenTest ∨ serving pc = true ∨ pc = .pipeTest := by
  cases pc <;> simp [beforePipe, serving]

/-! ### Every run -/

/-- The bit of `pipe_fd[0]` that `select` has left stands for a pipe with a child. -/
def Readable (d : Daemon) : Prop :=
  beforePipe d.pc = true → d.pipeReady = true → ∀ pid, d.vars.pipeFd = some pid →
    d.vars.children pid ≠ none

/-- Assumes: a step that keeps the bit and the pipe. -/
theorem Readable.step {d next : Daemon} {event : Event} (readable : Readable d)
    (htracked : Tracked d) (htaken : daemonStep d event = some next)
    (hpc : beforePipe next.pc = true → beforePipe d.pc = true) (hready : next.pipeReady = d.pipeReady)
    (hpipe : next.vars.pipeFd = d.vars.pipeFd) : Readable next := by
  intro hbefore hbit pid hfd
  obtain ⟨child, hchild⟩ := Option.ne_none_iff_exists'.mp
    (readable (hpc hbefore) (hready ▸ hbit) pid (hpipe ▸ hfd))
  obtain ⟨after, hafter, -⟩ := exists_evolves htracked (daemonStep_effect htaken) hchild
  rw [hafter]
  exact Option.some_ne_none after

theorem Readable.daemonStep {d next : Daemon} {event : Event} (readable : Readable d)
    (htracked : Tracked d) (htaken : daemonStep d event = some next) : Readable next := by
  have haside : aside event = true → Readable next := by
    intro haside
    obtain ⟨hnext, hfd, -⟩ := daemonStep_aside haside htaken
    refine readable.step htracked htaken ?_ ?_ hfd
    · rw [hnext]
      exact id
    · rw [hnext]
  have hpipe := congrArg Prod.fst (pipe_daemonStep htaken)
  have hkeep := readable.step htracked htaken
  cases daemonMove_of_daemonStep htaken with
  | select listenReady hpc => exact fun _ hbit pid hfd ↦ exists_of_pipeReadable hbit hfd
  | interrupted hpc => exact readable
  | accept arrival hpc => exact hkeep (fun _ ↦ beforePipe_iff.mpr (.inl hpc)) rfl rfl
  | noRequest hpc => exact hkeep (fun _ ↦ beforePipe_iff.mpr (.inl hpc)) rfl rfl
  | loop next hpc hloop =>
    obtain ⟨hnot, hready, hserving⟩ := serving_loopStep hloop
    by_cases hserved : serving d.pc = true
    · refine hkeep (fun _ ↦ beforePipe_iff.mpr (.inr (.inl hserved))) hready (hpipe.trans ?_)
      rw [pipeAfter_next]
      · intro hpc
        rw [hpc] at hserved
        cases hserved
      · intro hpc
        rw [hpc] at hserved
        cases hserved
    · intro hbefore
      rcases beforePipe_iff.mp hbefore with heq | heq | heq
      · exact absurd heq hnot
      · exact absurd (hserving.mpr (.inl heq)) hserved
      · exact absurd (hserving.mpr (.inr (.inl heq))) hserved
  | sigchld pid removes vars hreap => exact haside rfl
  | child event pid act vars hevent hstep => exact haside (aside_of_childAct hevent)
  | _ => exact fun hbefore ↦ Bool.noConfusion hbefore

theorem readable_of_run {allowed : Daemon → Event → Prop} {d : Daemon}
    (hrun : Run daemonStep allowed .start d) : Readable d := by
  induction hrun with
  | refl => exact fun hbefore ↦ Bool.noConfusion hbefore
  | tail event run _ taken ih => exact ih.daemonStep (tracked_of_run run) taken

/-- The pipe of an entry of `running_pool` is in `all_set`, once the loop is past the statement that
adds it. -/
def Watched (d : Daemon) : Prop :=
  ∀ key pid, (key, pid) ∈ d.vars.runningPool → d.vars.pipeFd = some pid →
    d.vars.pipeWatched = true ∨ d.pc = .watchPipe

theorem Watched.daemonStep {d next : Daemon} {event : Event} (watched : Watched d)
    (htracked : Tracked d) (htaken : daemonStep d event = some next) : Watched next := by
  intro key pid hmem hfd
  have hpipe := pipe_daemonStep htaken
  rcases runningPool_of_effect htracked (daemonStep_effect htaken) with
    hold | ⟨entered, uuid, pid', hphase, rfl, -⟩
  · have hkept : next.vars.pipeFd = d.vars.pipeFd → next.vars.pipeWatched = d.vars.pipeWatched →
        (d.pc = .watchPipe → next.pc = .watchPipe) →
          next.vars.pipeWatched = true ∨ next.pc = .watchPipe := by
      intro hsame hbit hpc
      rcases watched key pid (hold _ hmem) (hsame ▸ hfd) with hwatched | hwatch
      · exact .inl (hbit.trans hwatched)
      · exact .inr (hpc hwatch)
    have haside : aside event = true →
        next.vars.pipeWatched = true ∨ next.pc = .watchPipe := by
      intro haside
      obtain ⟨hnext, hsame, hbit⟩ := daemonStep_aside haside htaken
      refine hkept hsame hbit fun hpc ↦ ?_
      rw [hnext, hpc]
    have hstill : (next.vars.pipeFd, next.vars.pipeWatched) =
        (d.vars.pipeFd, d.vars.pipeWatched) → d.pc ≠ .watchPipe →
          next.vars.pipeWatched = true ∨ next.pc = .watchPipe :=
      fun heq hpc ↦ hkept (congrArg Prod.fst heq) (congrArg Prod.snd heq) fun hwatch ↦
        absurd hwatch hpc
    have hpc : ∀ pc, d.pc = pc → pc ≠ .watchPipe → d.pc ≠ .watchPipe :=
      fun pc heq hne hwatch ↦ hne (heq.symm.trans hwatch)
    cases daemonMove_of_daemonStep htaken with
    | loop next hlisten hloop =>
      by_cases hclose : d.pc = .closePipe
      · simp only [pipeAfter, hclose, Prod.mk.injEq] at hpipe
        exact absurd (hpipe.1.symm.trans hfd) (Option.some_ne_none pid).symm
      · by_cases hwatch : d.pc = .watchPipe
        · simp only [pipeAfter, hwatch, Prod.mk.injEq] at hpipe
          exact .inl hpipe.2
        · exact hstill (hpipe.trans (pipeAfter_next hclose hwatch)) hwatch
    | noRequest hlisten => exact hstill rfl (hpc _ hlisten Pc.noConfusion)
    | pipe other hcall =>
      have hfacts := htracked.2
      rw [hcall] at hfacts
      rw [hfacts.1] at hold
      cases hold _ hmem
    | sigchld pid removes vars hreap => exact haside rfl
    | child event pid act vars hevent hstep => exact haside (aside_of_childAct hevent)
    | _ => exact hstill rfl (hpc _ ‹d.pc = _› Pc.noConfusion)
  · cases daemonMove_of_daemonStep htaken with
    | insert entered uuid pid hpc => exact .inr rfl
    | child event pid act vars hevent hstep => cases hevent

theorem watched_of_run {allowed : Daemon → Event → Prop} {d : Daemon}
    (hrun : Run daemonStep allowed .start d) : Watched d := by
  induction hrun with
  | refl =>
    intro key pid hmem
    cases hmem
  | tail event run _ taken ih => exact ih.daemonStep (tracked_of_run run) taken

end CppLearn.SearchEngine.LoopPipe
