import CppLearn.SearchEngine.TaskChanges

/-!
# The start of a child

`fork` leaves a child with the handlers of the daemon. `search_core` reads the configuration again
and then replaces them, one call of `my_signal` after the other. A `SIGTERM` that comes before the
first of these calls has returned is answered by the handler of the daemon, which removes the pid
file and the socket. `kill` has another way to that handler: where the entry of `running_pool` that
the branch for `cancel` has found is gone by the time it reads it, the process id is zero, and the
daemon signals itself. And the two files can go without that handler: when a child has been cancelled
or has failed, the daemon removes the file of its task, which is whatever file the client has named.

`undamaged_iff` says that there are no other ways: the files are there, and no child has run the
handler, in exactly those states that are reached without any of them. The monitor, which removes the
files of old tasks, is no part of these runs.
-/

set_option autoImplicit false
set_option relaxedAutoImplicit false

namespace CppLearn.SearchEngine.ChildStartup

open Foundation.DecimalText Foundation.GuardedRun SearchDaemon TaskChanges TaskLedger TaskRequest

/-! ### Signals and their handlers -/

/-- The signals for which `singleton` sets the handler of the daemon. -/
inductive Signal
  | sigterm
  | sighup
  | sigchld
  | sigint
  | sigquit
  | sigill
  | sigabrt
  | sigfpe
  | sigsegv
  deriving DecidableEq

/-- The two functions with the name `signal_handler`, in `search_daemon.cpp` and `search_core.cpp`. -/
inductive Handler
  | daemon
  | searchCore
  deriving DecidableEq

/-- What `search_core` does before it searches. -/
inductive Startup
  | reload
  | mySignal (sigNum : Signal)
  deriving DecidableEq

/-- `search_core`, up to its threads. -/
def searchCore : List Startup :=
  [.reload, .mySignal .sigterm, .mySignal .sigint, .mySignal .sigquit, .mySignal .sigill,
    .mySignal .sigabrt, .mySignal .sigfpe, .mySignal .sigsegv]

/-- The handlers of a process after one of these steps. -/
def Startup.handlers (handler : Signal → Handler) : Startup → Signal → Handler
  | .reload => handler
  | .mySignal sigNum => Function.update handler sigNum .searchCore

/-! ### The processes -/

/-- The daemon with its two files; what each child has still to do before it searches, and its
handlers; and the children that have run the handler of the daemon. -/
structure Processes where
  daemon : Daemon
  pidFile : Bool
  unixSock : Bool
  todo : ℕ → List Startup
  handler : ℕ → Signal → Handler
  ranHandler : List ℕ

/-- The daemon as it enters the loop. -/
def Processes.start : Processes :=
  { daemon := .start
    pidFile := true
    unixSock := true
    todo := fun _ ↦ []
    handler := fun _ _ ↦ .daemon
    ranHandler := [] }

/-- The events: those of the daemon and its children, and the next step of a child before it
searches. -/
inductive ProcessEvent
  | daemon (event : Event)
  | startup (pid : ℕ)

/-- `signal_handler` of the daemon on `SIGTERM`, before its `exit`. -/
def Processes.signalHandler (s : Processes) : Processes :=
  { s with pidFile := false, unixSock := false }

/-- `g_pid_file`. -/
def gPidFile : Text := "/var/run/search.pid".toList

/-- `g_unix_sock`. -/
def gUnixSock : Text := "/var/run/search.sock".toList

/-- The path that `subprocess_cleaness` hands to `unlink` when it waits for a child. -/
def unlinked (v : Vars) (pid : ℕ) : Option Text :=
  (v.children pid).bind fun child ↦
    if child.exitStatus = some sigtermErr ∨ child.exitStatus = some sigsegvErr then
      (v.runningUuid pid).map fun uuid ↦ (v.task uuid).fileName
    else none

/-- `unlink` on the files of the daemon. -/
def Processes.unlink (s : Processes) (removes : Text → Text → Bool) (path : Text) : Processes :=
  { s with
    pidFile := s.pidFile && !removes path gPidFile
    unixSock := s.unixSock && !removes path gUnixSock }

/-- The child whose search an event belongs to. -/
def searching : Event → Option ℕ
  | .childOpen pid => some pid
  | .childWrite pid => some pid
  | .childReply pid _ => some pid
  | _ => none

/-- The branch for `cancel` has an entry of `running_pool` to read. -/
def entryThere (d : Daemon) : Bool :=
  match d.pc with
  | .cancelKill request => d.vars.runningPool.any fun entry ↦ entry.1 = request.uuid
  | _ => true

/-- What an event of the daemon or of a child does beside its step. -/
def Processes.aside (s : Processes) : Event → Processes
  | .fork true =>
    match s.daemon.vars.pipeFd with
    | some pid =>
      { s with
        todo := Function.update s.todo pid searchCore
        handler := Function.update s.handler pid fun _ ↦ .daemon }
    | none => s
  | .next => if entryThere s.daemon then s else s.signalHandler
  | .childTerminated pid =>
    match s.handler pid .sigterm with
    | .searchCore => s
    | .daemon => { s.signalHandler with ranHandler := s.ranHandler ++ [pid] }
  | .sigchld pid removes =>
    match unlinked s.daemon.vars pid with
    | some path => s.unlink removes path
    | none => s
  | _ => s

/-- One step of the daemon or of a child. A child searches when it has replaced its handlers. -/
def processStep (s : Processes) : ProcessEvent → Option Processes
  | .daemon event =>
    if (searching event).all fun pid ↦ s.todo pid = [] then
      (daemonStep s.daemon event).map fun daemon ↦ { s.aside event with daemon := daemon }
    else none
  | .startup pid =>
    (s.daemon.vars.children pid).bind fun child ↦
      match child.exitStatus, s.todo pid with
      | none, step :: rest =>
        some { s with
          todo := Function.update s.todo pid rest
          handler := Function.update s.handler pid (step.handlers (s.handler pid)) }
      | _, _ => none

/-! ### The statement -/

/-- No child has run the handler of the daemon, and the daemon has its files. -/
def Undamaged (s : Processes) : Prop :=
  s.ranHandler = [] ∧ s.pidFile = true ∧ s.unixSock = true

/-- A `SIGTERM` comes to a child when it is past `my_signal(SIGTERM, ..)`, the branch for `cancel`
reads an entry that is there, and the file of a task that has been cancelled or has failed is none of
those of the daemon. -/
def sparesDaemon (s : Processes) : ProcessEvent → Bool
  | .daemon (.childTerminated pid) => Startup.mySignal .sigterm ∉ s.todo pid
  | .daemon .next => entryThere s.daemon
  | .daemon (.sigchld pid removes) =>
    (unlinked s.daemon.vars pid).all fun path ↦ !removes path gPidFile && !removes path gUnixSock
  | _ => true

/-- The event meets that condition. -/
def SparesDaemon (s : Processes) (event : ProcessEvent) : Prop := sparesDaemon s event = true

instance (s : Processes) (event : ProcessEvent) : Decidable (SparesDaemon s event) :=
  inferInstanceAs (Decidable (sparesDaemon s event = true))

/-! ### The handlers of a child -/

/-- What a child has still to do ends `search_core`, and it has the handler of the daemon until it is
past the call that replaces it. -/
def Inherited (s : Processes) : Prop :=
  ∀ pid child, s.daemon.vars.children pid = some child →
    s.todo pid <:+ searchCore ∧
      ∀ sigNum, Startup.mySignal sigNum ∈ searchCore →
        (s.handler pid sigNum = .daemon ↔ .mySignal sigNum ∈ s.todo pid)

theorem nodup_searchCore : searchCore.Nodup := by decide

/-- One step before the search. -/
theorem Inherited.startup {s next : Processes} (inherited : Inherited s) {pid : ℕ}
    (htaken : processStep s (.startup pid) = some next) : Inherited next := by
  obtain ⟨child, hchild, hstep⟩ := Option.bind_eq_some_iff.mp htaken
  split at hstep
  · next step rest hexit htodo =>
    cases hstep
    intro other found hfound
    by_cases hother : other = pid
    · subst hother
      obtain ⟨hsuffix, hhandlers⟩ := inherited other child hchild
      rw [htodo] at hsuffix hhandlers
      have hfresh : step ∉ rest := (List.nodup_cons.mp (nodup_searchCore.sublist hsuffix.sublist)).1
      simp only [Function.update_self]
      refine ⟨(List.suffix_cons step rest).trans hsuffix, fun sigNum hmem ↦ ?_⟩
      cases step with
      | reload =>
        simpa only [Startup.handlers, List.mem_cons, reduceCtorEq, false_or] using
          hhandlers sigNum hmem
      | mySignal replaced =>
        by_cases hreplaced : sigNum = replaced
        · subst hreplaced
          simp only [Startup.handlers, Function.update_self, reduceCtorEq, false_iff]
          exact hfresh
        · simp only [Startup.handlers, Function.update_of_ne hreplaced, hhandlers sigNum hmem,
            List.mem_cons, Startup.mySignal.injEq, hreplaced, false_or]
    · simp only [Function.update_of_ne hother]
      exact inherited other found hfound
  · cases hstep

theorem fork_of_effect {v v' : Vars} {uuid uuid' : Text} {pid : ℕ} {event : Event}
    (heffect : Effect v (.forking uuid) event v' (.inserting uuid' pid)) : event = .fork true := by
  cases heffect
  rfl

/-- The handlers of a child change by its own steps alone. -/
theorem aside_of_ne {s : Processes} {event : Event} (hevent : event ≠ .fork true) :
    (s.aside event).todo = s.todo ∧ (s.aside event).handler = s.handler := by
  unfold Processes.aside
  split
  · exact absurd rfl hevent
  · split
    · exact ⟨rfl, rfl⟩
    · exact ⟨rfl, rfl⟩
  · split
    · exact ⟨rfl, rfl⟩
    · exact ⟨rfl, rfl⟩
  · split
    · exact ⟨rfl, rfl⟩
    · exact ⟨rfl, rfl⟩
  · exact ⟨rfl, rfl⟩

theorem Inherited.daemonStep {s : Processes} {daemon : Daemon} {event : Event}
    (inherited : Inherited s) (htaken : daemonStep s.daemon event = some daemon) :
    Inherited { s.aside event with daemon := daemon } := by
  intro pid child hchild
  have heffect := daemonStep_effect htaken
  by_cases hevent : event = .fork true
  · subst hevent
    rcases hfd : s.daemon.vars.pipeFd with _ | forked
    · rcases grown_of_effect heffect hchild with ⟨before, hbefore, -⟩ | ⟨-, -, -, hpipe, -⟩
      · simp only [Processes.aside, hfd]
        exact inherited pid before hbefore
      · cases hfd.symm.trans hpipe
    · simp only [Processes.aside, hfd]
      by_cases hforked : pid = forked
      · simp only [hforked, Function.update_self]
        exact ⟨List.suffix_refl _, fun sigNum hmem ↦ iff_of_true trivial hmem⟩
      · simp only [Function.update_of_ne hforked]
        rcases grown_of_effect heffect hchild with ⟨before, hbefore, -⟩ | ⟨-, -, -, hpipe, -⟩
        · exact inherited pid before hbefore
        · exact absurd (Option.some.inj (hpipe.symm.trans hfd)) hforked
  · obtain ⟨htodo, hhandler⟩ := aside_of_ne (s := s) hevent
    simp only [htodo, hhandler]
    rcases grown_of_effect heffect hchild with ⟨before, hbefore, -⟩ | ⟨uuid, hphase, hphase', -⟩
    · exact inherited pid before hbefore
    · rw [hphase, hphase'] at heffect
      exact absurd (fork_of_effect heffect) hevent

theorem daemonStep_of_processStep {s next : Processes} {event : Event}
    (htaken : processStep s (.daemon event) = some next) :
    ∃ daemon, daemonStep s.daemon event = some daemon ∧
      next = { s.aside event with daemon := daemon } := by
  simp only [processStep] at htaken
  split_ifs at htaken
  obtain ⟨daemon, hstep, rfl⟩ := Option.map_eq_some_iff.mp htaken
  exact ⟨daemon, hstep, rfl⟩

theorem inherited_of_run {s : Processes} (hrun : Reachable processStep .start s) :
    Inherited s := by
  induction hrun with
  | refl =>
    intro pid child hchild
    cases hchild
  | tail event _ _ taken ih =>
    cases event with
    | daemon event =>
      obtain ⟨daemon, hstep, rfl⟩ := daemonStep_of_processStep taken
      exact ih.daemonStep hstep
    | startup pid => exact ih.startup taken

/-! ### The result -/

theorem not_undamaged_signalHandler (s : Processes) (daemon : Daemon) (ran : List ℕ) :
    ¬ Undamaged { s.signalHandler with daemon := daemon, ranHandler := ran } :=
  fun hundamaged ↦ Bool.false_ne_true hundamaged.2.1

/-- The files of the daemon are left exactly if they were there and the path names none of them. -/
theorem undamaged_unlink (s : Processes) (daemon : Daemon) (removes : Text → Text → Bool)
    (path : Text) : Undamaged { s.unlink removes path with daemon := daemon } ↔
      Undamaged s ∧ (!removes path gPidFile && !removes path gUnixSock) = true := by
  simp only [Undamaged, Processes.unlink, Bool.and_eq_true, Bool.not_eq_true']
  constructor
  · rintro ⟨hran, ⟨hpid, hsparesPid⟩, hsock, hsparesSock⟩
    exact ⟨⟨hran, hpid, hsock⟩, hsparesPid, hsparesSock⟩
  · rintro ⟨⟨hran, hpid, hsock⟩, hsparesPid, hsparesSock⟩
    exact ⟨hran, ⟨hpid, hsparesPid⟩, hsock, hsparesSock⟩

/-- The daemon has its files after a step, and no child has run its handler, exactly if it was so
before, the signal of this step, if there is one, was in time, and the file that the handler of
`SIGCHLD` removes, if it does, is another. -/
theorem undamaged_step {s next : Processes} {event : ProcessEvent} (inherited : Inherited s)
    (htaken : processStep s event = some next) :
    Undamaged next ↔ Undamaged s ∧ SparesDaemon s event := by
  cases event with
  | startup pid =>
    obtain ⟨child, hchild, hstep⟩ := Option.bind_eq_some_iff.mp htaken
    split at hstep
    · cases hstep
      exact (and_iff_left rfl).symm
    · cases hstep
  | daemon event =>
    obtain ⟨daemon, hstep, rfl⟩ := daemonStep_of_processStep htaken
    cases event with
    | next =>
      by_cases hentry : entryThere s.daemon = true
      · simp only [Processes.aside, hentry, if_true]
        exact (and_iff_left hentry).symm
      · simp only [Processes.aside, hentry]
        exact iff_of_false (not_undamaged_signalHandler s daemon _) fun h ↦ hentry h.2
    | childTerminated pid =>
      have hchild : ∃ child, s.daemon.vars.children pid = some child := by
        obtain ⟨vars, hvars, -⟩ := Option.map_eq_some_iff.mp hstep
        obtain ⟨child, hchild, -⟩ := Option.bind_eq_some_iff.mp hvars
        exact ⟨child, hchild⟩
      obtain ⟨child, hchild⟩ := hchild
      have hhandler := (inherited pid child hchild).2 .sigterm (by decide)
      have hguard : SparesDaemon s (.daemon (.childTerminated pid)) ↔
          s.handler pid .sigterm ≠ .daemon := by
        rw [SparesDaemon, sparesDaemon, decide_eq_true_eq, ne_eq, hhandler]
      rw [hguard]
      rcases howner : s.handler pid .sigterm with _ | _
      · simp only [Processes.aside, howner]
        exact iff_of_false (not_undamaged_signalHandler s daemon _) fun h ↦ h.2 rfl
      · simp only [Processes.aside, howner]
        exact (and_iff_left Handler.noConfusion).symm
    | sigchld pid removes =>
      rcases hpath : unlinked s.daemon.vars pid with _ | path
      · simp only [Processes.aside, hpath]
        refine (and_iff_left ?_).symm
        simp only [SparesDaemon, sparesDaemon, hpath, Option.all_none]
      · simp only [Processes.aside, hpath, undamaged_unlink, SparesDaemon, sparesDaemon,
          Option.all_some]
    | fork success =>
      have hframe : Undamaged { s.aside (.fork success) with daemon := daemon } ↔ Undamaged s := by
        unfold Processes.aside
        split
        · split
          · exact Iff.rfl
          · exact Iff.rfl
        · next heq => cases heq
        · next heq => cases heq
        · next heq => cases heq
        · exact Iff.rfl
      exact hframe.trans (and_iff_left rfl).symm
    | _ => exact (and_iff_left rfl).symm

/-- Assumes: a reachable state. The daemon has its files, and no child has run its handler, exactly
if every `SIGTERM` has come to a child that was past `my_signal(SIGTERM, ..)`, every cancelled task
still had its entry in `running_pool` when it was read, and no file of a task that the handler has
settled was the pid file or the socket. -/
theorem undamaged_iff {s : Processes} (hreach : Reachable processStep .start s) :
    Undamaged s ↔ Run processStep SparesDaemon .start s :=
  run_iff (fun _ ↦ inherited_of_run) ⟨rfl, rfl, rfl⟩
    (fun _ _ _ inherited htaken ↦ undamaged_step inherited htaken) hreach

/-! ### Samples -/

/-- A search request arrives, its child is forked, and a request to cancel it arrives. -/
def spawnAndCancel (startup : List ProcessEvent) : List ProcessEvent :=
  (arrive 'a' ++ spawn 'a').map .daemon ++ startup ++
    [Event.select true, .accept (some (cancelArrival 'a')), .next, .next,
      .childTerminated 1, reap 1].map .daemon

/-- The child has read the configuration and replaced its handler of `SIGTERM` when it is cancelled,
ends on the signal and is reaped: the file of its task is removed. -/
theorem undamaged_of_late_cancel : ∃ s, Reachable processStep .start s ∧
    (s.daemon.vars.children 1).bind Child.exitStatus = some sigtermErr ∧ Undamaged s := by
  obtain ⟨s, hexecute, hexit⟩ : ∃ s, execute processStep SparesDaemon .start
        (spawnAndCancel [.startup 1, .startup 1]) = some s ∧
      (s.daemon.vars.children 1).bind Child.exitStatus = some sigtermErr := ⟨_, rfl, rfl⟩
  have hrun := run_of_execute hexecute
  have hreach : Reachable processStep .start s := hrun.mono fun _ _ _ ↦ trivial
  exact ⟨s, hreach, hexit, (undamaged_iff hreach).mpr hrun⟩

/-- It is cancelled while it reads the configuration. -/
theorem not_undamaged : ¬ ∀ s, Reachable processStep .start s → Undamaged s := by
  intro hclaim
  obtain ⟨s, hexecute, hgone⟩ : ∃ s, execute processStep anyEvent .start (spawnAndCancel []) =
      some s ∧ s.unixSock = false := ⟨_, rfl, rfl⟩
  exact Bool.false_ne_true (hgone.symm.trans (hclaim s (run_of_execute hexecute)).2.2)

end CppLearn.SearchEngine.ChildStartup
