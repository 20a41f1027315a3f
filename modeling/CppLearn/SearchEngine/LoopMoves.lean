import CppLearn.SearchEngine.SearchDaemon

/-!
# The moves of the daemon

What a step of the daemon can be, once for all that is proved of its steps: `LoopMove` for a statement of
the loop that needs no answer, `ChildMove` for a statement of a child, and `DaemonMove` for every step.
Each has a case for a branch of the source, with the test that leads there and the state that it leaves.
-/

set_option autoImplicit false
set_option relaxedAutoImplicit false

namespace CppLearn.SearchEngine.LoopMoves

open Foundation.DecimalText SearchDaemon TaskRequest

/-- A statement of the loop that needs no answer, and the daemon after it. -/
inductive LoopMove (d : Daemon) : Daemon → Prop
  | known (request : TaskInfo) (hpc : d.pc = .statusTest request)
      (htask : (d.vars.taskPool request.uuid).isSome = true) :
      LoopMove d { d with pc := .statusStatus request }
  | unknown (request : TaskInfo) (hpc : d.pc = .statusTest request)
      (htask : ¬ (d.vars.taskPool request.uuid).isSome = true) :
      LoopMove d { d with pc := .answer { request with status := some .invalid } }
  | status (request : TaskInfo) (hpc : d.pc = .statusStatus request) :
      LoopMove d { d with
        pc := .statusFileSize { request with status := (d.vars.task request.uuid).status } }
  | fileSize (request : TaskInfo) (hpc : d.pc = .statusFileSize request) :
      LoopMove d { d with
        pc := .answer { request with fileSize := (d.vars.task request.uuid).fileSize } }
  | running (request : TaskInfo) (hpc : d.pc = .cancelTest request) :
      LoopMove d { d with pc := .cancelKill request }
  | notRunning (request : TaskInfo) (hpc : d.pc = .cancelTest request) :
      LoopMove d { d with pc := .answer { request with status := some .invalid } }
  | killSelf (request : TaskInfo) (hpc : d.pc = .cancelKill request) :
      LoopMove d { d with pc := .exited }
  | killNone (request : TaskInfo) (hpc : d.pc = .cancelKill request) :
      LoopMove d { d with pc := .answer { request with status := some .canceled } }
  | kill (request : TaskInfo) (pid : ℕ) (child : Child) (hpc : d.pc = .cancelKill request)
      (hchild : d.vars.children pid = some child) :
      LoopMove d { d with
        vars := d.vars.setChild pid { child with terminated := true }
        pc := .answer { request with status := some .canceled } }
  | answer (request : TaskInfo) (hpc : d.pc = .answer request) :
      LoopMove d { d with pc := .pipeTest, answers := d.answers ++ [request] }
  | answerSearch (request : TaskInfo) (hpc : d.pc = .answerSearch request) :
      LoopMove d { d with pc := .storeTask request, answers := d.answers ++ [request] }
  | store (request : TaskInfo) (hpc : d.pc = .storeTask request)
      (hnew : d.vars.taskPool request.uuid = none) :
      LoopMove d { d with
        vars := d.vars.setTask request.uuid request
        pc := .pushPending request.uuid }
  | push (uuid : Text) (hpc : d.pc = .pushPending uuid) :
      LoopMove d { d with
        vars := { d.vars with pendingQueue := d.vars.pendingQueue ++ [uuid] }
        pc := .pipeTest }
  | readable (hpc : d.pc = .pipeTest) (hread : (d.vars.pipeFd.isSome && d.pipeReady) = true) :
      LoopMove d { d with pc := .readReply }
  | notReadable (hpc : d.pc = .pipeTest) (hread : ¬ (d.vars.pipeFd.isSome && d.pipeReady) = true) :
      LoopMove d { d with pc := .pendingTest }
  | read (pid : ℕ) (child : Child) (hpc : d.pc = .readReply) (hfd : d.vars.pipeFd = some pid)
      (hchild : d.vars.children pid = some child) (hwhole : child.reply = .whole) :
      LoopMove d { d with pc := .setFileSize child.request }
  | endOfFile (pid : ℕ) (child : Child) (hpc : d.pc = .readReply) (hfd : d.vars.pipeFd = some pid)
      (hchild : d.vars.children pid = some child) (hreply : child.reply ≠ .whole)
      (hexit : child.exitStatus ≠ none) : LoopMove d { d with pc := .closePipe }
  | setFileSize (reply : TaskInfo) (hpc : d.pc = .setFileSize reply) :
      LoopMove d { d with
        vars := d.vars.setFileSize reply.uuid reply.fileSize
        pc := .setFinished reply }
  | setFinished (reply : TaskInfo) (hpc : d.pc = .setFinished reply) :
      LoopMove d { d with
        vars := d.vars.setStatus reply.uuid .finished
        pc := .eraseRunning reply }
  | eraseRunning (reply : TaskInfo) (hpc : d.pc = .eraseRunning reply) :
      LoopMove d { d with vars := d.vars.eraseRunning reply.uuid, pc := .closePipe }
  | closePipe (hpc : d.pc = .closePipe) :
      LoopMove d { d with
        vars := { d.vars with pipeFd := none, pipeWatched := false }
        pc := .pendingTest }
  | nonePending (hpc : d.pc = .pendingTest) (hqueue : d.vars.pendingQueue = []) :
      LoopMove d { d with pc := .top }
  | pending (hpc : d.pc = .pendingTest) (hqueue : d.vars.pendingQueue ≠ []) :
      LoopMove d { d with pc := .runningTest }
  | noneRunning (hpc : d.pc = .runningTest) (hrunning : d.vars.runningPool = []) :
      LoopMove d { d with pc := .takePending }
  | someRunning (hpc : d.pc = .runningTest) (hrunning : d.vars.runningPool ≠ []) :
      LoopMove d { d with pc := .top }
  | take (uuid : Text) (pending : List Text) (hpc : d.pc = .takePending)
      (hqueue : d.vars.pendingQueue = uuid :: pending) :
      LoopMove d { d with
        vars := { d.vars.setTask uuid (d.vars.task uuid) with pendingQueue := pending }
        pc := .canceledTest uuid }
  | skip (uuid : Text) (hpc : d.pc = .canceledTest uuid)
      (hstatus : (d.vars.task uuid).status = some .canceled) : LoopMove d { d with pc := .top }
  | keep (uuid : Text) (hpc : d.pc = .canceledTest uuid)
      (hstatus : (d.vars.task uuid).status ≠ some .canceled) :
      LoopMove d { d with pc := .setRunning uuid }
  | setRunning (uuid : Text) (hpc : d.pc = .setRunning uuid) :
      LoopMove d { d with vars := d.vars.setStatus uuid .running, pc := .callPipe uuid }
  | setFailed (uuid : Text) (hpc : d.pc = .setFailed uuid) :
      LoopMove d { d with vars := d.vars.setStatus uuid .failed, pc := .top }
  | watchPipe (hpc : d.pc = .watchPipe) :
      LoopMove d { d with vars := { d.vars with pipeWatched := true }, pc := .top }

theorem loopMove_of_loopStep {d next : Daemon} (htaken : loopStep d = some next) :
    LoopMove d next := by
  cases hpc : d.pc with
  | statusTest request =>
    simp only [loopStep, hpc] at htaken
    split_ifs at htaken with htask
    · cases htaken
      exact .known request hpc htask
    · cases htaken
      exact .unknown request hpc htask
  | statusStatus request =>
    simp only [loopStep, hpc] at htaken
    cases htaken
    exact .status request hpc
  | statusFileSize request =>
    simp only [loopStep, hpc] at htaken
    cases htaken
    exact .fileSize request hpc
  | cancelTest request =>
    simp only [loopStep, hpc] at htaken
    split_ifs at htaken
    · cases htaken
      exact .running request hpc
    · cases htaken
      exact .notRunning request hpc
  | cancelKill request =>
    simp only [loopStep, hpc] at htaken
    split at htaken
    · cases htaken
      exact .killSelf request hpc
    · next uuid pid hfind =>
      cases htaken
      cases hchild : d.vars.children pid with
      | none => exact .killNone request hpc
      | some child => exact .kill request pid child hpc hchild
  | answer request =>
    simp only [loopStep, hpc] at htaken
    cases htaken
    exact .answer request hpc
  | answerSearch request =>
    simp only [loopStep, hpc] at htaken
    cases htaken
    exact .answerSearch request hpc
  | storeTask request =>
    simp only [loopStep, hpc] at htaken
    split_ifs at htaken with hnew
    cases htaken
    exact .store request hpc (Option.not_isSome_iff_eq_none.mp hnew)
  | pushPending uuid =>
    simp only [loopStep, hpc] at htaken
    cases htaken
    exact .push uuid hpc
  | pipeTest =>
    simp only [loopStep, hpc] at htaken
    split_ifs at htaken with hread
    · cases htaken
      exact .readable hpc hread
    · cases htaken
      exact .notReadable hpc hread
  | readReply =>
    simp only [loopStep, hpc] at htaken
    obtain ⟨child, hread, htaken⟩ := Option.bind_eq_some_iff.mp htaken
    obtain ⟨pid, hfd, hchild⟩ := Option.bind_eq_some_iff.mp hread
    split_ifs at htaken with hwhole hexit
    · cases htaken
      exact .read pid child hpc hfd hchild hwhole
    · cases htaken
      exact .endOfFile pid child hpc hfd hchild hwhole (Option.isSome_iff_ne_none.mp hexit)
  | setFileSize reply =>
    simp only [loopStep, hpc] at htaken
    cases htaken
    exact .setFileSize reply hpc
  | setFinished reply =>
    simp only [loopStep, hpc] at htaken
    cases htaken
    exact .setFinished reply hpc
  | eraseRunning reply =>
    simp only [loopStep, hpc] at htaken
    cases htaken
    exact .eraseRunning reply hpc
  | closePipe =>
    simp only [loopStep, hpc] at htaken
    cases htaken
    exact .closePipe hpc
  | pendingTest =>
    simp only [loopStep, hpc] at htaken
    split_ifs at htaken with hqueue
    · cases htaken
      exact .nonePending hpc hqueue
    · cases htaken
      exact .pending hpc hqueue
  | runningTest =>
    simp only [loopStep, hpc] at htaken
    split_ifs at htaken with hrunning
    · cases htaken
      exact .noneRunning hpc hrunning
    · cases htaken
      exact .someRunning hpc hrunning
  | takePending =>
    simp only [loopStep, hpc] at htaken
    split at htaken
    · cases htaken
    · next uuid pending hqueue =>
      cases htaken
      exact .take uuid pending hpc hqueue
  | canceledTest uuid =>
    simp only [loopStep, hpc] at htaken
    split_ifs at htaken with hstatus
    · cases htaken
      exact .skip uuid hpc hstatus
    · cases htaken
      exact .keep uuid hpc hstatus
  | setRunning uuid =>
    simp only [loopStep, hpc] at htaken
    cases htaken
    exact .setRunning uuid hpc
  | setFailed uuid =>
    simp only [loopStep, hpc] at htaken
    cases htaken
    exact .setFailed uuid hpc
  | watchPipe =>
    simp only [loopStep, hpc] at htaken
    cases htaken
    exact .watchPipe hpc
  | _ =>
    simp only [loopStep, hpc] at htaken
    cases htaken

/-- A statement of the child `pid`, and the child after it. -/
inductive ChildMove (pid : ℕ) (child : Child) : Event → Child → Prop
  | opened : ChildMove pid child (.childOpen pid) { child with opened := true }
  | write (hopened : child.opened = true) (hreply : child.reply = .nothing) :
      ChildMove pid child (.childWrite pid) { child with reply := .front }
  | reply (fileSize : BitVec 64) (hopened : child.opened = true) (hreply : child.reply ≠ .whole) :
      ChildMove pid child (.childReply pid fileSize) { child with
        reply := .whole
        request := { child.request with fileSize := fileSize } }
  | terminated (hterminated : child.terminated = true) :
      ChildMove pid child (.childTerminated pid) { child with exitStatus := some sigtermErr }
  | exit (exitStatus : ℕ) :
      ChildMove pid child (.childExit pid exitStatus) { child with exitStatus := some exitStatus }

theorem childMove_of_childAct {event : Event} {pid : ℕ} {act : Child → Option Child}
    {child next : Child} (hevent : childAct event = some (pid, act))
    (hact : act child = some next) : ChildMove pid child event next := by
  cases event with
  | childOpen target =>
    cases hevent
    cases hact
    exact .opened
  | childWrite target =>
    cases hevent
    simp only at hact
    split_ifs at hact with hfront
    cases hact
    exact .write hfront.1 hfront.2
  | childReply target fileSize =>
    cases hevent
    simp only at hact
    split_ifs at hact with hwhole
    cases hact
    exact .reply fileSize hwhole.1 hwhole.2
  | childTerminated target =>
    cases hevent
    simp only at hact
    split_ifs at hact with hterminated
    cases hact
    exact .terminated hterminated
  | childExit target exitStatus =>
    cases hevent
    cases hact
    exact .exit exitStatus
  | _ => cases hevent

/-- A step of the daemon, of its handler or of a child, and the daemon after it. -/
inductive DaemonMove (d : Daemon) : Event → Daemon → Prop
  | select (listenReady : Bool) (hpc : d.pc = .top) :
      DaemonMove d (.select listenReady) { d with
        pc := .listenTest
        listenReady := listenReady
        pipeReady := d.vars.pipeReadable }
  | interrupted (hpc : d.pc = .top) : DaemonMove d .interrupted d
  | selectFails (hpc : d.pc = .top) : DaemonMove d .selectFails { d with pc := .returned }
  | reject (hpc : d.pc = .listenTest) : DaemonMove d (.accept none) { d with pc := .top }
  | accept (arrival : Arrival) (hpc : d.pc = .listenTest) :
      DaemonMove d (.accept (some arrival)) { d with pc := dispatch arrival }
  | noRequest (hpc : d.pc = .listenTest) : DaemonMove d .next { d with pc := .pipeTest }
  | loop (next : Daemon) (hpc : d.pc ≠ .listenTest) (hloop : loopStep d = some next) :
      DaemonMove d .next next
  | pipe (uuid : Text) (hpc : d.pc = .callPipe uuid) :
      DaemonMove d (.pipe true) { d with vars := d.vars.openPipe, pc := .callFork uuid }
  | pipeFails (uuid : Text) (hpc : d.pc = .callPipe uuid) :
      DaemonMove d (.pipe false) { d with pc := .setFailed uuid }
  | fork (uuid : Text) (pid : ℕ) (hpc : d.pc = .callFork uuid) (hfd : d.vars.pipeFd = some pid) :
      DaemonMove d (.fork true) { d with
        vars := d.vars.setChild pid (newChild (d.vars.task uuid))
        pc := .insertRunning uuid pid }
  | forkFails (uuid : Text) (pid : ℕ) (hpc : d.pc = .callFork uuid)
      (hfd : d.vars.pipeFd = some pid) : DaemonMove d (.fork false) { d with pc := .setFailed uuid }
  | insert (key uuid : Text) (pid : ℕ) (hpc : d.pc = .insertRunning uuid pid) :
      DaemonMove d (.insert key) { d with
        vars := d.vars.insertRunning key pid
        pc := .watchPipe }
  | sigchld (pid : ℕ) (removes : Text → Text → Bool) (vars : Vars)
      (hreap : d.vars.subprocessCleaness removes pid = some vars) :
      DaemonMove d (.sigchld pid removes) { d with vars := vars }
  | child (event : Event) (pid : ℕ) (act : Child → Option Child) (vars : Vars)
      (hevent : childAct event = some (pid, act)) (hstep : d.vars.childStep pid act = some vars) :
      DaemonMove d event { d with vars := vars }

theorem daemonMove_of_daemonStep {d next : Daemon} {event : Event}
    (htaken : daemonStep d event = some next) : DaemonMove d event next := by
  have hchild : ∀ pid act, childAct event = some (pid, act) →
      (d.vars.childStep pid act).map (fun vars ↦ { d with vars := vars }) = some next →
        DaemonMove d event next := by
    intro pid act hevent hmoved
    obtain ⟨vars, hstep, rfl⟩ := Option.map_eq_some_iff.mp hmoved
    exact .child event pid act vars hevent hstep
  cases event with
  | select listenReady =>
    simp only [daemonStep] at htaken
    split_ifs at htaken with hpc
    cases htaken
    exact .select listenReady hpc
  | interrupted =>
    simp only [daemonStep] at htaken
    split_ifs at htaken with hpc
    cases htaken
    exact .interrupted hpc
  | selectFails =>
    simp only [daemonStep] at htaken
    split_ifs at htaken with hpc
    cases htaken
    exact .selectFails hpc
  | accept arrival =>
    simp only [daemonStep] at htaken
    split_ifs at htaken with hpc
    cases arrival with
    | none =>
      cases htaken
      exact .reject hpc.1
    | some arrival =>
      cases htaken
      exact .accept arrival hpc.1
  | next =>
    simp only [daemonStep] at htaken
    by_cases hpc : d.pc = .listenTest
    · rw [if_pos hpc] at htaken
      split_ifs at htaken
      cases htaken
      exact .noRequest hpc
    · rw [if_neg hpc] at htaken
      exact .loop next hpc htaken
  | pipe success =>
    simp only [daemonStep] at htaken
    split at htaken
    · next uuid hpc =>
      cases success with
      | true =>
        cases htaken
        exact .pipe uuid hpc
      | false =>
        cases htaken
        exact .pipeFails uuid hpc
    · cases htaken
  | fork success =>
    simp only [daemonStep] at htaken
    split at htaken
    · next uuid pid hpc hfd =>
      cases success with
      | true =>
        cases htaken
        exact .fork uuid pid hpc hfd
      | false =>
        cases htaken
        exact .forkFails uuid pid hpc hfd
    · cases htaken
  | insert key =>
    simp only [daemonStep] at htaken
    split at htaken
    · next uuid pid hpc =>
      cases htaken
      exact .insert key uuid pid hpc
    · cases htaken
  | sigchld pid removes =>
    simp only [daemonStep] at htaken
    split_ifs at htaken
    obtain ⟨vars, hreap, rfl⟩ := Option.map_eq_some_iff.mp htaken
    exact .sigchld pid removes vars hreap
  | childOpen pid => exact hchild pid _ rfl htaken
  | childWrite pid => exact hchild pid _ rfl htaken
  | childReply pid fileSize => exact hchild pid _ rfl htaken
  | childTerminated pid => exact hchild pid _ rfl htaken
  | childExit pid exitStatus => exact hchild pid _ rfl htaken

/-- A step of the handler is a run of `subprocess_cleaness`. -/
theorem reaps_of_sigchld {d next : Daemon} {pid : ℕ} {removes : Text → Text → Bool}
    (htaken : daemonStep d (.sigchld pid removes) = some next) :
    ∃ vars, d.vars.subprocessCleaness removes pid = some vars ∧ { d with vars := vars } = next := by
  cases daemonMove_of_daemonStep htaken with
  | sigchld pid removes vars hreap => exact ⟨vars, hreap, rfl⟩
  | child event pid act vars hevent hstep => cases hevent

/-- An arrival is taken from the test of `listen_fd` to the branch of its request. -/
theorem dispatches_of_accept {d next : Daemon} {arrival : Arrival}
    (htaken : daemonStep d (.accept (some arrival)) = some next) :
    d.pc = .listenTest ∧ { d with pc := dispatch arrival } = next := by
  cases daemonMove_of_daemonStep htaken with
  | accept arrival hpc => exact ⟨hpc, rfl⟩
  | child event pid act vars hevent hstep => cases hevent

end CppLearn.SearchEngine.LoopMoves
