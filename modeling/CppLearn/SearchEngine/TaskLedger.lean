import CppLearn.Foundation.GuardedRun
import CppLearn.SearchEngine.LoopMoves

/-!
# What the daemon keeps track of

Most statements of the loop move the program counter and touch no variable. `Phase` is what is left
of the program counter when these are taken together, and `Effect` lists what the others do:
`daemonStep_effect` says that there is nothing else. `Ledger` is the part of the invariant that
holds in every phase, about the tasks, the queue, the children and the running pool, and
`PhaseFacts` adds what the loop knows in each phase. `tracked_of_run` gives both in every run of
the daemon, whatever the texts under which it enters its children into `running_pool`.
-/

set_option autoImplicit false
set_option relaxedAutoImplicit false

namespace CppLearn.SearchEngine.TaskLedger

open Foundation.DecimalText Foundation.GuardedRun LoopMoves SearchDaemon TaskRequest

/-! ### The effects of a step -/

/-- What the loop is about: a request it has still to store or to queue, a reply it is recording, or
a task it is starting. -/
inductive Phase
  | idle
  | storing (request : TaskInfo)
  | pushing (uuid : Text)
  | finishing (reply : TaskInfo)
  | erasing (reply : TaskInfo)
  | closing
  | chosen
  | spawning (uuid : Text)
  | starting (uuid : Text)
  | forking (uuid : Text)
  | inserting (uuid : Text) (pid : ℕ)

/-- The phase of a statement. -/
def phase : Pc → Phase
  | .answerSearch request => .storing request
  | .storeTask request => .storing request
  | .pushPending uuid => .pushing uuid
  | .setFileSize reply => .finishing reply
  | .setFinished reply => .finishing reply
  | .eraseRunning reply => .erasing reply
  | .closePipe => .closing
  | .takePending => .chosen
  | .canceledTest uuid => .spawning uuid
  | .setRunning uuid => .spawning uuid
  | .callPipe uuid => .starting uuid
  | .setFailed uuid => .starting uuid
  | .callFork uuid => .forking uuid
  | .insertRunning uuid pid => .inserting uuid pid
  | _ => .idle

/-- What an event does to the variables and the phase. -/
inductive Effect (v : Vars) : Phase → Event → Vars → Phase → Prop
  | quiet (p : Phase) (event : Event) : Effect v p event v p
  | receive (event : Event) (request : TaskInfo) (hstatus : request.status = some .pending) :
      Effect v .idle event v (.storing request)
  | store (request : TaskInfo) (hnew : v.taskPool request.uuid = none) :
      Effect v (.storing request) .next (v.setTask request.uuid request) (.pushing request.uuid)
  | push (uuid : Text) :
      Effect v (.pushing uuid) .next { v with pendingQueue := v.pendingQueue ++ [uuid] } .idle
  | read (pid : ℕ) (child : Child) (hfd : v.pipeFd = some pid)
      (hchild : v.children pid = some child) (hwhole : child.reply = .whole) :
      Effect v .idle .next v (.finishing child.request)
  | endOfFile (pid : ℕ) (child : Child) (hfd : v.pipeFd = some pid)
      (hchild : v.children pid = some child) (hreply : child.reply ≠ .whole)
      (hexit : child.exitStatus ≠ none) : Effect v .idle .next v .closing
  | fileSize (reply : TaskInfo) :
      Effect v (.finishing reply) .next (v.setFileSize reply.uuid reply.fileSize)
        (.finishing reply)
  | finish (reply : TaskInfo) :
      Effect v (.finishing reply) .next (v.setStatus reply.uuid .finished) (.erasing reply)
  | erase (reply : TaskInfo) :
      Effect v (.erasing reply) .next (v.eraseRunning reply.uuid) .closing
  | close : Effect v .closing .next { v with pipeFd := none, pipeWatched := false } .idle
  | choose (hrunning : v.runningPool = []) : Effect v .idle .next v .chosen
  | take (uuid : Text) (pending : List Text) (hqueue : v.pendingQueue = uuid :: pending) :
      Effect v .chosen .next { v.setTask uuid (v.task uuid) with pendingQueue := pending }
        (.spawning uuid)
  | skip (uuid : Text) (hstatus : (v.task uuid).status = some .canceled) :
      Effect v (.spawning uuid) .next v .idle
  | run (uuid : Text) : Effect v (.spawning uuid) .next (v.setStatus uuid .running) (.starting uuid)
  | fail (uuid : Text) : Effect v (.starting uuid) .next (v.setStatus uuid .failed) .idle
  | pipe (uuid : Text) : Effect v (.starting uuid) (.pipe true) v.openPipe (.forking uuid)
  | forkFailed (uuid : Text) : Effect v (.forking uuid) (.fork false) v (.starting uuid)
  | fork (uuid : Text) (pid : ℕ) (hfd : v.pipeFd = some pid) :
      Effect v (.forking uuid) (.fork true) (v.setChild pid (newChild (v.task uuid)))
        (.inserting uuid pid)
  | insert (key uuid : Text) (pid : ℕ) :
      Effect v (.inserting uuid pid) (.insert key) (v.insertRunning key pid) .idle
  | watch : Effect v .idle .next { v with pipeWatched := true } .idle
  | kill (pid : ℕ) (child : Child) (hchild : v.children pid = some child) :
      Effect v .idle .next (v.setChild pid { child with terminated := true }) .idle
  | child (p : Phase) (event : Event) (pid : ℕ) (act : Child → Option Child) (child next : Child)
      (hevent : childAct event = some (pid, act)) (hchild : v.children pid = some child)
      (hlive : child.exitStatus = none) (hact : act child = some next) :
      Effect v p event (v.setChild pid next) p
  | sigchld (p : Phase) (pid : ℕ) (removes : Text → Text → Bool) (v' : Vars)
      (hreap : v.subprocessCleaness removes pid = some v') : Effect v p (.sigchld pid removes) v' p

theorem phase_dispatch (arrival : Arrival) :
    phase (dispatch arrival) = .idle ∨
      phase (dispatch arrival) = .storing (searchRequest arrival) := by
  unfold dispatch
  split_ifs
  · exact .inl rfl
  · exact .inl rfl
  · exact .inr rfl
  · exact .inl rfl

/-- A statement that depends on the variables alone has one of the effects. -/
theorem loopStep_effect {d next : Daemon} (htaken : loopStep d = some next) :
    Effect d.vars (phase d.pc) .next next.vars (phase next.pc) := by
  cases loopMove_of_loopStep htaken with
  | kill request pid child hpc hchild =>
    rw [hpc]
    exact .kill pid child hchild
  | store request hpc hnew =>
    rw [hpc]
    exact .store request hnew
  | push uuid hpc =>
    rw [hpc]
    exact .push uuid
  | read pid child hpc hfd hchild hwhole =>
    rw [hpc]
    exact .read pid child hfd hchild hwhole
  | endOfFile pid child hpc hfd hchild hreply hexit =>
    rw [hpc]
    exact .endOfFile pid child hfd hchild hreply hexit
  | setFileSize reply hpc =>
    rw [hpc]
    exact .fileSize reply
  | setFinished reply hpc =>
    rw [hpc]
    exact .finish reply
  | eraseRunning reply hpc =>
    rw [hpc]
    exact .erase reply
  | closePipe hpc =>
    rw [hpc]
    exact .close
  | noneRunning hpc hrunning =>
    rw [hpc]
    exact .choose hrunning
  | take uuid pending hpc hqueue =>
    rw [hpc]
    exact .take uuid pending hqueue
  | skip uuid hpc hstatus =>
    rw [hpc]
    exact .skip uuid hstatus
  | setRunning uuid hpc =>
    rw [hpc]
    exact .run uuid
  | setFailed uuid hpc =>
    rw [hpc]
    exact .fail uuid
  | watchPipe hpc =>
    rw [hpc]
    exact .watch
  | _ =>
    -- the statement moves on without a change of the variables or the phase
    rw [‹d.pc = _›]
    exact .quiet _ _

/-- Every step of the daemon has one of the effects. -/
theorem daemonStep_effect {d next : Daemon} {event : Event}
    (htaken : daemonStep d event = some next) :
    Effect d.vars (phase d.pc) event next.vars (phase next.pc) := by
  cases daemonMove_of_daemonStep htaken with
  | interrupted hpc => exact .quiet _ _
  | accept arrival hpc =>
    rw [hpc]
    rcases phase_dispatch arrival with hphase | hphase
    · simp only [hphase]
      exact .quiet _ _
    · simp only [hphase]
      exact .receive _ _ rfl
  | loop next hpc hloop => exact loopStep_effect hloop
  | pipe uuid hpc =>
    rw [hpc]
    exact .pipe uuid
  | fork uuid pid hpc hfd =>
    rw [hpc]
    exact .fork uuid pid hfd
  | forkFails uuid pid hpc hfd =>
    rw [hpc]
    exact .forkFailed uuid
  | insert key uuid pid hpc =>
    rw [hpc]
    exact .insert key uuid pid
  | sigchld pid removes vars hreap => exact .sigchld _ pid removes vars hreap
  | child event pid act vars hevent hstep =>
    obtain ⟨child, hchild, hstep⟩ := Option.bind_eq_some_iff.mp hstep
    split_ifs at hstep with hlive
    obtain ⟨after, hact, rfl⟩ := Option.map_eq_some_iff.mp hstep
    exact .child _ event pid act child after hevent hchild (Option.not_isSome_iff_eq_none.mp hlive)
      hact
  | _ =>
    rw [‹d.pc = _›]
    exact .quiet _ _

/-! ### The status of a task -/

/-- The task is in the pool with the status. -/
def HasStatus (v : Vars) (uuid : Text) (status : Status) : Prop :=
  ∃ task, v.taskPool uuid = some task ∧ task.status = some status

/-- The task is in the pool with the status. -/
def hasStatus (v : Vars) (uuid : Text) (status : Status) : Bool :=
  (v.taskPool uuid).any fun task ↦ task.status = some status

theorem hasStatus_iff {v : Vars} {uuid : Text} {status : Status} :
    hasStatus v uuid status = true ↔ HasStatus v uuid status := by
  rw [hasStatus, Option.any_eq_true]
  simp only [decide_eq_true_eq, HasStatus]

theorem HasStatus.exists_task {v : Vars} {uuid : Text} {status : Status}
    (hstatus : HasStatus v uuid status) : ∃ task, v.taskPool uuid = some task := by
  obtain ⟨task, htask, -⟩ := hstatus
  exact ⟨task, htask⟩

theorem HasStatus.eq {v : Vars} {uuid : Text} {status status' : Status}
    (hstatus : HasStatus v uuid status) (hstatus' : HasStatus v uuid status') :
    status = status' := by
  obtain ⟨task, htask, hone⟩ := hstatus
  obtain ⟨task', htask', htwo⟩ := hstatus'
  obtain rfl : task = task' := Option.some.inj (htask.symm.trans htask')
  exact Option.some.inj (hone.symm.trans htwo)

theorem hasStatus_setTask (v : Vars) (uuid : Text) (task : TaskInfo) (other : Text)
    (status : Status) : HasStatus (v.setTask uuid task) other status ↔
      if other = uuid then task.status = some status else HasStatus v other status := by
  unfold HasStatus Vars.setTask
  by_cases hother : other = uuid
  · simp only [hother, Function.update_self, Option.some.injEq, exists_eq_left', if_true]
  · simp only [Function.update_of_ne hother, hother, if_false]

theorem hasStatus_setStatus (v : Vars) (uuid : Text) (status : Status) (other : Text)
    (status' : Status) : HasStatus (v.setStatus uuid status) other status' ↔
      if other = uuid then status' = status else HasStatus v other status' := by
  rw [Vars.setStatus, hasStatus_setTask]
  by_cases hother : other = uuid
  · simp only [hother, if_true, Option.some.injEq, eq_comm]
  · simp only [hother, if_false]

theorem task_of_some {v : Vars} {uuid : Text} {task : TaskInfo}
    (htask : v.taskPool uuid = some task) : v.task uuid = task := by
  rw [Vars.task, htask, Option.getD_some]

/-- The file size and the other members do not matter to the status. -/
theorem hasStatus_setFileSize (v : Vars) (uuid : Text) (fileSize : BitVec 64) (other : Text)
    (status : Status) : HasStatus (v.setFileSize uuid fileSize) other status ↔
      HasStatus v other status := by
  rw [Vars.setFileSize, hasStatus_setTask]
  by_cases hother : other = uuid
  · rw [if_pos hother, hother]
    rcases htask : v.taskPool uuid with _ | task
    · simp only [Vars.task, htask, Option.getD_none, HasStatus, taskInfo, reduceCtorEq,
        false_and, exists_false]
    · rw [task_of_some htask]
      simp only [HasStatus, htask, Option.some.injEq, exists_eq_left']
  · rw [if_neg hother]

/-! ### The ledger -/

/-- The task is stored under its own uuid. -/
def Stored (v : Vars) (uuid : Text) : Prop :=
  ∃ task, v.taskPool uuid = some task ∧ task.uuid = uuid

/-- The task has no child. -/
def Childless (v : Vars) (uuid : Text) : Prop :=
  ∀ pid child, v.children pid = some child → child.request.uuid ≠ uuid

/-- The task is stored, out of the queue, and has no child yet. -/
def InHand (v : Vars) (uuid : Text) : Prop :=
  uuid ∉ v.pendingQueue ∧ Stored v uuid ∧ Childless v uuid

/-- What holds of the tasks, the queue, the children and the running pool in every phase: a child has
the uuid and the file name of a task that is no longer pending, and is the only one for it; queued
tasks are stored, have no child and are queued once; and the running pool has one entry at most, of a
child whose pipe has not been replaced. -/
structure Ledger (v : Vars) : Prop where
  known : ∀ pid child, v.children pid = some child → ∃ task,
    v.taskPool child.request.uuid = some task ∧ task.status ≠ some .pending ∧
      task.fileName = child.request.fileName
  numbered : ∀ pid child, v.children pid = some child → pid < v.nextPipe
  held : ∀ pid, v.pipeFd = some pid → pid < v.nextPipe
  single : ∀ pid pid' child child', v.children pid = some child → v.children pid' = some child' →
    child.request.uuid = child'.request.uuid → pid = pid'
  queued : ∀ uuid ∈ v.pendingQueue, Stored v uuid ∧ Childless v uuid
  nodup : v.pendingQueue.Nodup
  running : ∀ key pid, (key, pid) ∈ v.runningPool →
    (∃ child, v.children pid = some child) ∧ (v.pipeFd = some pid ∨ v.pipeFd = none)
  sole : ∀ entry ∈ v.runningPool, ∀ other ∈ v.runningPool, entry = other

/-- The child at the pipe has written the whole reply of the task. -/
def Replied (v : Vars) (uuid : Text) : Prop :=
  ∃ pid child, v.pipeFd = some pid ∧ v.children pid = some child ∧
    child.request.uuid = uuid ∧ child.reply = .whole

/-- What the loop knows in a phase. -/
def PhaseFacts (v : Vars) : Phase → Prop
  | .idle => True
  | .storing request => request.status = some .pending
  | .pushing uuid => InHand v uuid
  | .finishing reply => Replied v reply.uuid
  | .erasing reply => Replied v reply.uuid
  | .closing => True
  | .chosen => v.runningPool = []
  | .spawning uuid => v.runningPool = [] ∧ InHand v uuid
  | .starting uuid => v.runningPool = [] ∧ InHand v uuid ∧ HasStatus v uuid .running
  | .forking uuid =>
    v.runningPool = [] ∧ InHand v uuid ∧ HasStatus v uuid .running ∧
      ∀ pid, v.pipeFd = some pid → v.children pid = none
  | .inserting uuid pid =>
    v.runningPool = [] ∧ HasStatus v uuid .running ∧ v.pipeFd = some pid ∧
      ∃ child, v.children pid = some child ∧ child.request.uuid = uuid

theorem Stored.exists_task {v : Vars} {uuid : Text} (hstored : Stored v uuid) :
    ∃ task, v.taskPool uuid = some task := by
  obtain ⟨task, htask, -⟩ := hstored
  exact ⟨task, htask⟩

theorem Ledger.not_pending {v : Vars} (ledger : Ledger v) {pid : ℕ} {child : Child}
    (hchild : v.children pid = some child) : ¬ HasStatus v child.request.uuid .pending := by
  obtain ⟨task, htask, hpending, -⟩ := ledger.known pid child hchild
  rintro ⟨task', htask', hstatus⟩
  rw [Option.some.inj (htask.symm.trans htask')] at hpending
  exact hpending hstatus

/-- Assumes: a task that keeps its uuid, if it is in the pool. -/
theorem Stored.setTask {v : Vars} {other : Text} (hstored : Stored v other) {uuid : Text}
    {task' : TaskInfo} (hsame : ∀ task, v.taskPool uuid = some task → task'.uuid = task.uuid) :
    Stored (v.setTask uuid task') other := by
  obtain ⟨task, htask, huuid⟩ := hstored
  by_cases hother : other = uuid
  · rw [hother] at htask huuid ⊢
    exact ⟨task', Function.update_self .., (hsame task htask).trans huuid⟩
  · exact ⟨task, (Function.update_of_ne hother ..).trans htask, huuid⟩

theorem InHand.setTask {v : Vars} {other : Text} (hhand : InHand v other) {uuid : Text}
    {task' : TaskInfo} (hsame : ∀ task, v.taskPool uuid = some task → task'.uuid = task.uuid) :
    InHand (v.setTask uuid task') other :=
  ⟨hhand.1, hhand.2.1.setTask hsame, hhand.2.2⟩

/-- Assumes: an entry that keeps its uuid and its file name and does not become pending, if it is in
the pool. -/
theorem Ledger.setTask {v : Vars} (ledger : Ledger v) {uuid : Text} {task' : TaskInfo}
    (hsame : ∀ task, v.taskPool uuid = some task → task'.uuid = task.uuid ∧
      task'.fileName = task.fileName ∧
        (task.status ≠ some .pending → task'.status ≠ some .pending)) :
    Ledger (v.setTask uuid task') where
  known := by
    intro pid child hchild
    obtain ⟨found, hfound, hstatus, hname⟩ := ledger.known pid child hchild
    by_cases hother : child.request.uuid = uuid
    · rw [hother] at hfound ⊢
      obtain ⟨-, hfile, hpending⟩ := hsame found hfound
      exact ⟨task', Function.update_self .., hpending hstatus, hfile.trans hname⟩
    · exact ⟨found, (Function.update_of_ne hother ..).trans hfound, hstatus, hname⟩
  numbered := ledger.numbered
  held := ledger.held
  single := ledger.single
  queued := by
    intro other hmem
    obtain ⟨hstored, hchildless⟩ := ledger.queued other hmem
    exact ⟨hstored.setTask fun task htask ↦ (hsame task htask).1, hchildless⟩
  nodup := ledger.nodup
  running := ledger.running
  sole := ledger.sole

theorem task_setStatus (v : Vars) (uuid : Text) (status : Status) (task : TaskInfo)
    (htask : v.taskPool uuid = some task) :
    { v.task uuid with status := some status } = { task with status := some status } := by
  rw [task_of_some htask]

/-- A task gets a status other than pending. -/
theorem Ledger.setStatus {v : Vars} (ledger : Ledger v) (uuid : Text) {status : Status}
    (hstatus : status ≠ .pending) : Ledger (v.setStatus uuid status) := by
  refine ledger.setTask fun task htask ↦ ?_
  rw [task_setStatus v uuid status task htask]
  exact ⟨rfl, rfl, fun _ heq ↦ hstatus (Option.some.inj heq)⟩

theorem InHand.setStatus {v : Vars} {other : Text} (hhand : InHand v other) (uuid : Text)
    (status : Status) : InHand (v.setStatus uuid status) other := by
  refine hhand.setTask fun task htask ↦ ?_
  rw [task_setStatus v uuid status task htask]

/-- A child that goes on: it keeps its task, and a whole reply stays whole. -/
def Continues (child next : Child) : Prop :=
  next.request.uuid = child.request.uuid ∧ next.request.fileName = child.request.fileName ∧
    (child.reply = .whole → next.reply = .whole)

theorem Continues.refl (child : Child) : Continues child child := ⟨rfl, rfl, id⟩

theorem Continues.trans {first second third : Child} (hfirst : Continues first second)
    (hsecond : Continues second third) : Continues first third :=
  ⟨hsecond.1.trans hfirst.1, hsecond.2.1.trans hfirst.2.1, fun hwhole ↦
    hsecond.2.2 (hfirst.2.2 hwhole)⟩

/-- Every child goes on, and there are no others. -/
structure ChildrenContinue (children children' : ℕ → Option Child) : Prop where
  back : ∀ pid next, children' pid = some next →
    ∃ child, children pid = some child ∧ Continues child next
  forth : ∀ pid child, children pid = some child →
    ∃ next, children' pid = some next ∧ Continues child next

theorem childrenContinue_setChild {v : Vars} {pid : ℕ} {child next : Child}
    (hchild : v.children pid = some child) (hnext : Continues child next) :
    ChildrenContinue v.children (v.setChild pid next).children where
  back := by
    intro other found hfound
    by_cases hother : other = pid
    · simp only [Vars.setChild, hother, Function.update_self, Option.some.injEq] at hfound
      rw [hother, ← hfound]
      exact ⟨child, hchild, hnext⟩
    · simp only [Vars.setChild, Function.update_of_ne hother] at hfound
      exact ⟨found, hfound, .refl found⟩
  forth := by
    intro other found hfound
    by_cases hother : other = pid
    · rw [hother, hchild, Option.some.injEq] at hfound
      refine ⟨next, by simp only [Vars.setChild, hother, Function.update_self], ?_⟩
      rw [← hfound]
      exact hnext
    · exact ⟨found, by simp only [Vars.setChild, Function.update_of_ne hother, hfound],
        .refl found⟩

theorem continues_unlink (removes : Text → Text → Bool) (child : Child) (path : Text) :
    Continues child (child.unlink removes path) := by
  unfold Child.unlink
  split_ifs
  · exact ⟨rfl, rfl, id⟩
  · exact .refl child

theorem childrenContinue_unlink (v : Vars) (removes : Text → Text → Bool) (path : Text) :
    ChildrenContinue v.children (v.unlink removes path).children where
  back := by
    intro pid next hnext
    obtain ⟨child, hchild, rfl⟩ := Option.map_eq_some_iff.mp hnext
    exact ⟨child, hchild, continues_unlink removes child path⟩
  forth := by
    intro pid child hchild
    exact ⟨child.unlink removes path, by simp only [Vars.unlink, hchild, Option.map_some],
      continues_unlink removes child path⟩

theorem Childless.continue {v : Vars} {uuid : Text} (hnone : Childless v uuid)
    {children : ℕ → Option Child} (hcontinue : ChildrenContinue v.children children) :
    Childless { v with children := children } uuid := by
  intro pid next hnext
  obtain ⟨child, hchild, huuid, -⟩ := hcontinue.back pid next hnext
  exact huuid ▸ hnone pid child hchild

/-- The ledger does not depend on what children do. -/
theorem Ledger.continue {v : Vars} (ledger : Ledger v) {children : ℕ → Option Child}
    (hcontinue : ChildrenContinue v.children children) :
    Ledger { v with children := children } where
  known := by
    intro pid next hnext
    obtain ⟨child, hchild, huuid, hfileName, -⟩ := hcontinue.back pid next hnext
    obtain ⟨task, htask, hpending, hname⟩ := ledger.known pid child hchild
    exact ⟨task, huuid ▸ htask, hpending, hname.trans hfileName.symm⟩
  numbered := by
    intro pid next hnext
    obtain ⟨child, hchild, -⟩ := hcontinue.back pid next hnext
    exact ledger.numbered pid child hchild
  held := ledger.held
  single := by
    intro pid pid' next next' hnext hnext' hsame
    obtain ⟨child, hchild, huuid, -⟩ := hcontinue.back pid next hnext
    obtain ⟨child', hchild', huuid', -⟩ := hcontinue.back pid' next' hnext'
    exact ledger.single pid pid' child child' hchild hchild'
      (huuid.symm.trans (hsame.trans huuid'))
  queued := by
    intro uuid hmem
    obtain ⟨hstored, hchildless⟩ := ledger.queued uuid hmem
    exact ⟨hstored, hchildless.continue hcontinue⟩
  nodup := ledger.nodup
  running := by
    intro key pid hmem
    obtain ⟨⟨child, hchild⟩, hpipe⟩ := ledger.running key pid hmem
    obtain ⟨next, hnext, -⟩ := hcontinue.forth pid child hchild
    exact ⟨⟨next, hnext⟩, hpipe⟩
  sole := ledger.sole

theorem Replied.continue {v : Vars} {uuid : Text} (hreplied : Replied v uuid)
    {children : ℕ → Option Child} (hcontinue : ChildrenContinue v.children children) :
    Replied { v with children := children } uuid := by
  obtain ⟨pid, child, hfd, hchild, huuid, hwhole⟩ := hreplied
  obtain ⟨next, hnext, hsame, -, hreply⟩ := hcontinue.forth pid child hchild
  exact ⟨pid, next, hfd, hnext, hsame.trans huuid, hreply hwhole⟩

/-- What the loop knows does not depend on what children do. -/
theorem PhaseFacts.continue {v : Vars} {p : Phase} (hfacts : PhaseFacts v p)
    {children : ℕ → Option Child} (hcontinue : ChildrenContinue v.children children) :
    PhaseFacts { v with children := children } p := by
  have hhand : ∀ uuid, InHand v uuid → InHand { v with children := children } uuid :=
    fun uuid hbefore ↦ ⟨hbefore.1, hbefore.2.1, hbefore.2.2.continue hcontinue⟩
  cases p with
  | idle => trivial
  | storing request => exact hfacts
  | pushing uuid => exact hhand uuid hfacts
  | finishing reply => exact Replied.continue hfacts hcontinue
  | erasing reply => exact Replied.continue hfacts hcontinue
  | closing => trivial
  | chosen => exact hfacts
  | spawning uuid => exact ⟨hfacts.1, hhand uuid hfacts.2⟩
  | starting uuid => exact ⟨hfacts.1, hhand uuid hfacts.2.1, hfacts.2.2⟩
  | forking uuid =>
    obtain ⟨hrunning, hbefore, hstatus, hempty⟩ := hfacts
    refine ⟨hrunning, hhand uuid hbefore, hstatus, fun pid hfd ↦ ?_⟩
    rcases hnext : children pid with _ | next
    · exact hnext
    · obtain ⟨child, hchild, -⟩ := hcontinue.back pid next hnext
      exact absurd (hchild.symm.trans (hempty pid hfd)) (Option.some_ne_none child)
  | inserting uuid pid =>
    obtain ⟨hrunning, hstatus, hfd, child, hchild, huuid⟩ := hfacts
    obtain ⟨next, hnext, hsame, -⟩ := hcontinue.forth pid child hchild
    exact ⟨hrunning, hstatus, hfd, next, hnext, hsame.trans huuid⟩

theorem continues_childAct {event : Event} {pid : ℕ} {act : Child → Option Child}
    {child next : Child} (hevent : childAct event = some (pid, act))
    (hact : act child = some next) : Continues child next := by
  cases childMove_of_childAct hevent hact with
  | opened => exact ⟨rfl, rfl, id⟩
  | write hopened hreply =>
    refine ⟨rfl, rfl, fun hwhole ↦ ?_⟩
    rw [hreply] at hwhole
    cases hwhole
  | reply fileSize hopened hreply => exact ⟨rfl, rfl, fun _ ↦ rfl⟩
  | terminated hterminated => exact ⟨rfl, rfl, id⟩
  | exit exitStatus => exact ⟨rfl, rfl, id⟩

/-! ### The handler -/

/-- The status that `subprocess_cleaness` gives the task of a child by its exit status. -/
def settledStatus (exitStatus : ℕ) : Option Status :=
  if exitStatus = sigtermErr then some .canceled
  else if exitStatus = sigsegvErr then some .failed
  else none

/-- The status that the handler is about to write, with the uuid it finds in `running_pool`. -/
def settling (v : Vars) (pid : ℕ) : Option (Text × Status) :=
  (v.runningUuid pid).bind fun uuid ↦
    (v.children pid).bind fun child ↦
      (child.exitStatus.bind settledStatus).map fun status ↦ (uuid, status)

theorem settle_eq (v : Vars) (removes : Text → Text → Bool) (uuid : Text) (exitStatus : ℕ) :
    v.settle removes uuid exitStatus =
      match settledStatus exitStatus with
      | none => v
      | some status => (v.unlink removes (v.task uuid).fileName).setStatus uuid status := by
  unfold Vars.settle settledStatus
  split_ifs <;> rfl

theorem settledStatus_terminal {exitStatus : ℕ} {status : Status}
    (hsettled : settledStatus exitStatus = some status) :
    status = .canceled ∨ status = .failed := by
  unfold settledStatus at hsettled
  split_ifs at hsettled
  · exact .inl (Option.some.inj hsettled).symm
  · exact .inr (Option.some.inj hsettled).symm

theorem settledStatus_ne {exitStatus : ℕ} {status : Status}
    (hsettled : settledStatus exitStatus = some status) :
    status ≠ .pending ∧ status ≠ .running ∧ status ≠ .finished := by
  rcases settledStatus_terminal hsettled with rfl | rfl
  · exact ⟨Status.noConfusion, Status.noConfusion, Status.noConfusion⟩
  · exact ⟨Status.noConfusion, Status.noConfusion, Status.noConfusion⟩

/-- The handler waits for a child that has ended, and settles the task of the entry that it finds. -/
theorem subprocessCleaness_found {v v' : Vars} {removes : Text → Text → Bool} {pid : ℕ}
    (hreap : v.subprocessCleaness removes pid = some v') :
    ∃ child exitStatus, v.children pid = some child ∧ child.exitStatus = some exitStatus ∧
      ((v.runningUuid pid = none ∧ v' = v.setChild pid { child with reaped := true }) ∨
        ∃ key, v.runningUuid pid = some key ∧
          v' = ((v.setChild pid { child with reaped := true }).settle removes key
            exitStatus).eraseRunning key) := by
  obtain ⟨child, hchild, hreap⟩ := Option.bind_eq_some_iff.mp hreap
  obtain ⟨exitStatus, hexit, hreap⟩ := Option.bind_eq_some_iff.mp hreap
  refine ⟨child, exitStatus, hchild, hexit, ?_⟩
  split_ifs at hreap
  split at hreap
  · next hnone => exact .inl ⟨hnone, (Option.some.inj hreap).symm⟩
  · next key hfound => exact .inr ⟨key, hfound, (Option.some.inj hreap).symm⟩

/-- Without an entry of the running pool for the child nothing else happens, and with one the task of
the entry is settled and the entry erased. -/
theorem subprocessCleaness_cases {v v' : Vars} {removes : Text → Text → Bool} {pid : ℕ}
    (hreap : v.subprocessCleaness removes pid = some v') :
    ∃ child exitStatus, v.children pid = some child ∧ child.exitStatus = some exitStatus ∧
      (((∀ key, (key, pid) ∉ v.runningPool) ∧
          v' = v.setChild pid { child with reaped := true }) ∨
        ∃ key, (key, pid) ∈ v.runningPool ∧
          v' = ((v.setChild pid { child with reaped := true }).settle removes key
            exitStatus).eraseRunning key) := by
  obtain ⟨child, exitStatus, hchild, hexit, hcases⟩ := subprocessCleaness_found hreap
  refine ⟨child, exitStatus, hchild, hexit, ?_⟩
  rcases hcases with ⟨hnone, hnext⟩ | ⟨key, hfound, hnext⟩
  · refine .inl ⟨fun key hmem ↦ ?_, hnext⟩
    have hfind := List.find?_eq_none.mp (Option.map_eq_none_iff.mp hnone) _ hmem
    exact hfind (decide_eq_true rfl)
  · obtain ⟨⟨key', pid'⟩, hfind, rfl⟩ := Option.map_eq_some_iff.mp hfound
    have hpid : pid' = pid := by simpa using List.find?_some hfind
    exact .inr ⟨key', hpid ▸ List.mem_of_find?_eq_some hfind, hnext⟩

theorem mem_eraseRunning {v : Vars} {uuid other : Text} {pid : ℕ} :
    (other, pid) ∈ (v.eraseRunning uuid).runningPool ↔
      (other, pid) ∈ v.runningPool ∧ other ≠ uuid := by
  simp only [Vars.eraseRunning, List.mem_filter, decide_eq_true_eq]

theorem Ledger.eraseRunning {v : Vars} (ledger : Ledger v) (key : Text) :
    Ledger (v.eraseRunning key) where
  known := ledger.known
  numbered := ledger.numbered
  held := ledger.held
  single := ledger.single
  queued := ledger.queued
  nodup := ledger.nodup
  running := fun other pid hmem ↦ ledger.running other pid (mem_eraseRunning.mp hmem).1
  sole := fun entry hmem other hother ↦
    ledger.sole entry (mem_eraseRunning.mp hmem).1 other (mem_eraseRunning.mp hother).1

theorem PhaseFacts.eraseRunning {v : Vars} {p : Phase} (hfacts : PhaseFacts v p) (key : Text) :
    PhaseFacts (v.eraseRunning key) p := by
  have hempty : v.runningPool = [] → (v.eraseRunning key).runningPool = [] := by
    intro hrunning
    rw [Vars.eraseRunning, hrunning, List.filter_nil]
  cases p with
  | idle => trivial
  | storing request => exact hfacts
  | pushing other => exact hfacts
  | finishing reply => exact hfacts
  | erasing reply => exact hfacts
  | closing => trivial
  | chosen => exact hempty hfacts
  | spawning other => exact ⟨hempty hfacts.1, hfacts.2⟩
  | starting other => exact ⟨hempty hfacts.1, hfacts.2⟩
  | forking other => exact ⟨hempty hfacts.1, hfacts.2⟩
  | inserting other pid => exact ⟨hempty hfacts.1, hfacts.2⟩

/-- Assumes: an entry in the running pool. A task can be given a status in every phase. -/
theorem PhaseFacts.setStatus {v : Vars} {p : Phase} (hfacts : PhaseFacts v p)
    (hnonempty : v.runningPool ≠ []) (uuid : Text) (status : Status) :
    PhaseFacts (v.setStatus uuid status) p := by
  cases p with
  | idle => trivial
  | storing request => exact hfacts
  | pushing other => exact InHand.setStatus hfacts uuid status
  | finishing reply => exact hfacts
  | erasing reply => exact hfacts
  | closing => trivial
  | chosen => exact absurd hfacts hnonempty
  | spawning other => exact absurd hfacts.1 hnonempty
  | starting other => exact absurd hfacts.1 hnonempty
  | forking other => exact absurd hfacts.1 hnonempty
  | inserting other pid => exact absurd hfacts.1 hnonempty

/-! ### The ledger in every run -/

/-- The ledger with what the loop knows. -/
def Sound (v : Vars) (p : Phase) : Prop := Ledger v ∧ PhaseFacts v p

/-- The handler keeps the ledger. -/
theorem Sound.subprocessCleaness {v v' : Vars} {p : Phase} (hsound : Sound v p)
    {removes : Text → Text → Bool} {pid : ℕ}
    (hreap : v.subprocessCleaness removes pid = some v') : Sound v' p := by
  obtain ⟨ledger, hfacts⟩ := hsound
  obtain ⟨child, exitStatus, hchild, -, hcases⟩ := subprocessCleaness_cases hreap
  have hreaped : ChildrenContinue v.children
      (v.setChild pid { child with reaped := true }).children :=
    childrenContinue_setChild hchild ⟨rfl, rfl, id⟩
  have ledger' : Ledger (v.setChild pid { child with reaped := true }) := ledger.continue hreaped
  have hfacts' : PhaseFacts (v.setChild pid { child with reaped := true }) p :=
    hfacts.continue hreaped
  rcases hcases with ⟨-, rfl⟩ | ⟨key, hmem, rfl⟩
  · exact ⟨ledger', hfacts'⟩
  · rw [settle_eq]
    rcases hsettled : settledStatus exitStatus with _ | status
    · exact ⟨ledger'.eraseRunning key, hfacts'.eraseRunning key⟩
    · have hunlink := childrenContinue_unlink (v.setChild pid { child with reaped := true }) removes
        ((v.setChild pid { child with reaped := true }).task key).fileName
      have ledger'' := ledger'.continue hunlink
      have hfacts'' := hfacts'.continue hunlink
      exact ⟨(ledger''.setStatus key (settledStatus_ne hsettled).1).eraseRunning key,
        (hfacts''.setStatus (List.ne_nil_of_mem hmem) key status).eraseRunning key⟩

/-- A task that has no entry in the pool has no child, and is not queued. -/
theorem Ledger.of_new {v : Vars} (ledger : Ledger v) {uuid : Text}
    (hnew : v.taskPool uuid = none) : Childless v uuid ∧ uuid ∉ v.pendingQueue := by
  constructor
  · rintro pid child hchild rfl
    obtain ⟨task, htask, -⟩ := ledger.known pid child hchild
    cases hnew.symm.trans htask
  · intro hmem
    obtain ⟨task, htask, -⟩ := (ledger.queued uuid hmem).1
    cases hnew.symm.trans htask

/-- A new task under its own uuid. -/
theorem Ledger.store {v : Vars} (ledger : Ledger v) {request : TaskInfo}
    (hnew : v.taskPool request.uuid = none) :
    Ledger (v.setTask request.uuid request) ∧
      InHand (v.setTask request.uuid request) request.uuid := by
  obtain ⟨hchildless, hqueue⟩ := ledger.of_new hnew
  refine ⟨ledger.setTask fun task htask ↦ ?_, hqueue, ⟨request, Function.update_self .., rfl⟩,
    hchildless⟩
  cases hnew.symm.trans htask

/-- A child for a task that has none, at the pipe that was opened for it. -/
theorem Ledger.fork {v : Vars} (ledger : Ledger v) {uuid : Text} {pid : ℕ}
    (hhand : InHand v uuid) (hstatus : HasStatus v uuid .running) (hrunning : v.runningPool = [])
    (hfd : v.pipeFd = some pid) : Ledger (v.setChild pid (newChild (v.task uuid))) := by
  obtain ⟨hqueue, ⟨task, htask, huuid⟩, hchildless⟩ := hhand
  have hrun : task.status = some .running := by
    obtain ⟨task', htask', hrun⟩ := hstatus
    rw [Option.some.inj (htask.symm.trans htask'), hrun]
  have hfound : ∀ other child, (v.setChild pid (newChild (v.task uuid))).children other =
      some child → (other = pid ∧ child = newChild task) ∨
        (other ≠ pid ∧ v.children other = some child) := by
    intro other child hchild
    by_cases hother : other = pid
    · simp only [Vars.setChild, hother, Function.update_self, Option.some.injEq] at hchild
      rw [task_of_some htask] at hchild
      exact .inl ⟨hother, hchild.symm⟩
    · simp only [Vars.setChild, Function.update_of_ne hother] at hchild
      exact .inr ⟨hother, hchild⟩
  refine ⟨?_, ?_, ledger.held, ?_, ?_, ledger.nodup, ?_, ledger.sole⟩
  · intro other child hchild
    rcases hfound other child hchild with ⟨-, rfl⟩ | ⟨-, hold⟩
    · refine ⟨task, by rw [← htask, ← huuid]; rfl, ?_, rfl⟩
      rw [hrun]
      exact fun heq ↦ Status.noConfusion (Option.some.inj heq)
    · exact ledger.known other child hold
  · intro other child hchild
    rcases hfound other child hchild with ⟨rfl, -⟩ | ⟨-, hold⟩
    · exact ledger.held other hfd
    · exact ledger.numbered other child hold
  · intro other other' child child' hchild hchild' hsame
    rcases hfound other child hchild with ⟨rfl, rfl⟩ | ⟨-, hold⟩
    · rcases hfound other' child' hchild' with ⟨rfl, rfl⟩ | ⟨-, hold'⟩
      · rfl
      · exact absurd (hsame.symm.trans huuid) (hchildless other' child' hold')
    · rcases hfound other' child' hchild' with ⟨rfl, rfl⟩ | ⟨-, hold'⟩
      · exact absurd (hsame.trans huuid) (hchildless other child hold)
      · exact ledger.single other other' child child' hold hold' hsame
  · intro other hmem
    obtain ⟨hstored, hnone⟩ := ledger.queued other hmem
    refine ⟨hstored, fun pid' child hchild ↦ ?_⟩
    rcases hfound pid' child hchild with ⟨-, rfl⟩ | ⟨-, hold⟩
    · intro hsame
      exact hqueue (huuid.symm.trans hsame ▸ hmem)
    · exact hnone pid' child hold
  · intro other pid' hmem
    have hnil : (other, pid') ∈ v.runningPool := hmem
    rw [hrunning] at hnil
    cases hnil

theorem insertRunning_of_nil {v : Vars} (hrunning : v.runningPool = []) (key : Text) (pid : ℕ) :
    v.insertRunning key pid = { v with runningPool := [(key, pid)] } := by
  simp only [Vars.insertRunning, Vars.eraseRunning, hrunning, List.filter_nil, List.nil_append]

/-- A task that is in the pool is left as it is when its entry is looked up. -/
theorem setTask_task {v : Vars} {uuid : Text} {task : TaskInfo}
    (htask : v.taskPool uuid = some task) : v.setTask uuid (v.task uuid) = v := by
  rw [Vars.setTask, task_of_some htask, ← htask, Function.update_eq_self]

/-- The first task of the queue is taken in hand. -/
theorem Ledger.take {v : Vars} (ledger : Ledger v) {uuid : Text} {pending : List Text}
    (hqueue : v.pendingQueue = uuid :: pending) :
    v.setTask uuid (v.task uuid) = v ∧ Ledger { v with pendingQueue := pending } ∧
      InHand { v with pendingQueue := pending } uuid := by
  obtain ⟨hstored, hchildless⟩ := ledger.queued uuid (hqueue ▸ List.mem_cons_self ..)
  obtain ⟨task, htask⟩ := hstored.exists_task
  have hnodup := ledger.nodup
  rw [hqueue] at hnodup
  refine ⟨setTask_task htask, ⟨ledger.known, ledger.numbered, ledger.held, ledger.single, ?_,
    hnodup.of_cons, ledger.running, ledger.sole⟩, (List.nodup_cons.mp hnodup).1, hstored,
    hchildless⟩
  intro other hother
  exact ledger.queued other (hqueue ▸ List.mem_cons_of_mem uuid hother)

/-- Every effect keeps the ledger and what the loop knows. -/
theorem Sound.effect {v v' : Vars} {p p' : Phase} {event : Event} (hsound : Sound v p)
    (heffect : Effect v p event v' p') : Sound v' p' := by
  obtain ⟨ledger, hfacts⟩ := hsound
  cases heffect with
  | quiet => exact ⟨ledger, hfacts⟩
  | receive event request hstatus => exact ⟨ledger, hstatus⟩
  | store request hnew => exact ledger.store hnew
  | push uuid =>
    obtain ⟨hqueue, hstored, hchildless⟩ := hfacts
    refine ⟨⟨ledger.known, ledger.numbered, ledger.held, ledger.single, ?_, ?_, ledger.running,
      ledger.sole⟩, trivial⟩
    · intro other hmem
      rcases List.mem_append.mp hmem with hold | hnew
      · exact ledger.queued other hold
      · rw [List.mem_singleton.mp hnew]
        exact ⟨hstored, hchildless⟩
    · exact List.nodup_append.mpr ⟨ledger.nodup, List.nodup_singleton uuid, fun other hold same
        hnew ↦ fun heq ↦ hqueue (List.mem_singleton.mp hnew ▸ heq ▸ hold)⟩
  | read pid child hfd hchild hwhole => exact ⟨ledger, pid, child, hfd, hchild, rfl, hwhole⟩
  | endOfFile => exact ⟨ledger, trivial⟩
  | fileSize reply =>
    refine ⟨ledger.setTask fun task htask ↦ ?_, hfacts⟩
    rw [task_of_some htask]
    exact ⟨rfl, rfl, id⟩
  | finish reply => exact ⟨ledger.setStatus _ Status.noConfusion, hfacts⟩
  | erase reply => exact ⟨ledger.eraseRunning _, trivial⟩
  | close =>
    refine ⟨⟨ledger.known, ledger.numbered, ?_, ledger.single, ledger.queued, ledger.nodup,
      fun key pid hmem ↦ ⟨(ledger.running key pid hmem).1, .inr rfl⟩, ledger.sole⟩, trivial⟩
    intro pid hfd
    cases hfd
  | choose hrunning => exact ⟨ledger, hrunning⟩
  | take uuid pending hqueue =>
    obtain ⟨hsame, hledger, hhand⟩ := ledger.take hqueue
    rw [hsame]
    exact ⟨hledger, hfacts, hhand⟩
  | skip => exact ⟨ledger, trivial⟩
  | run uuid =>
    refine ⟨ledger.setStatus _ Status.noConfusion, hfacts.1, hfacts.2.setStatus _ _, ?_⟩
    rw [hasStatus_setStatus, if_pos rfl]
  | fail uuid => exact ⟨ledger.setStatus _ Status.noConfusion, trivial⟩
  | pipe uuid =>
    obtain ⟨hrunning, hhand, hstatus⟩ := hfacts
    refine ⟨⟨ledger.known, ?_, ?_, ledger.single, ledger.queued, ledger.nodup, ?_, ledger.sole⟩,
      hrunning, hhand, hstatus, ?_⟩
    · intro pid child hchild
      exact Nat.lt_succ_of_lt (ledger.numbered pid child hchild)
    · intro pid hfd
      rw [← Option.some.inj hfd]
      exact Nat.lt_succ_self _
    · intro other pid hmem
      have hnil : (other, pid) ∈ v.runningPool := hmem
      rw [hrunning] at hnil
      cases hnil
    · intro pid hfd
      rcases hchild : v.children pid with _ | child
      · exact hchild
      · rw [← Option.some.inj hfd] at hchild
        exact absurd (ledger.numbered _ child hchild) (Nat.lt_irrefl _)
  | forkFailed uuid => exact ⟨ledger, hfacts.1, hfacts.2.1, hfacts.2.2.1⟩
  | fork uuid pid hfd =>
    obtain ⟨hrunning, hhand, hstatus, -⟩ := hfacts
    refine ⟨ledger.fork hhand hstatus hrunning hfd, hrunning, hstatus, hfd,
      newChild (v.task uuid), Function.update_self .., ?_⟩
    obtain ⟨-, ⟨task, htask, huuid⟩, -⟩ := hhand
    rw [task_of_some htask]
    exact huuid
  | insert key uuid pid =>
    obtain ⟨hrunning, -, hfd, child, hchild, -⟩ := hfacts
    rw [insertRunning_of_nil hrunning]
    refine ⟨⟨ledger.known, ledger.numbered, ledger.held, ledger.single, ledger.queued,
      ledger.nodup, ?_, ?_⟩, trivial⟩
    · intro other pid' hmem
      obtain ⟨rfl, rfl⟩ := Prod.mk.inj (List.mem_singleton.mp hmem)
      exact ⟨⟨child, hchild⟩, .inl hfd⟩
    · intro entry hmem other hother
      rw [List.mem_singleton.mp hmem, List.mem_singleton.mp hother]
  | watch =>
    exact ⟨⟨ledger.known, ledger.numbered, ledger.held, ledger.single, ledger.queued, ledger.nodup,
      ledger.running, ledger.sole⟩, trivial⟩
  | kill pid child hchild =>
    have hcontinue : ChildrenContinue v.children
        (v.setChild pid { child with terminated := true }).children :=
      childrenContinue_setChild hchild ⟨rfl, rfl, id⟩
    exact ⟨ledger.continue hcontinue, trivial⟩
  | child p event pid act child next hevent hchild hlive hact =>
    have hcontinue := childrenContinue_setChild hchild (continues_childAct hevent hact)
    exact ⟨ledger.continue hcontinue, hfacts.continue hcontinue⟩
  | sigchld p pid removes v' hreap => exact Sound.subprocessCleaness ⟨ledger, hfacts⟩ hreap

/-- The daemon is sound. -/
def Tracked (d : Daemon) : Prop := Sound d.vars (phase d.pc)

theorem tracked_start : Tracked .start := by
  refine ⟨⟨?_, ?_, ?_, ?_, ?_, List.nodup_nil, ?_, ?_⟩, trivial⟩
  · intro pid child hchild
    cases hchild
  · intro pid child hchild
    cases hchild
  · intro pid hfd
    cases hfd
  · intro pid pid' child child' hchild
    cases hchild
  · intro uuid hmem
    cases hmem
  · intro key pid hmem
    cases hmem
  · intro entry hmem
    cases hmem

theorem Tracked.of_run {allowed : Daemon → Event → Prop} {d later : Daemon} (htracked : Tracked d)
    (hrun : Run daemonStep allowed d later) : Tracked later :=
  hrun.invariant htracked fun _ _ _ hbefore _ htaken ↦
    Sound.effect hbefore (daemonStep_effect htaken)

/-- The ledger is kept in every run of the daemon, whatever its guard. -/
theorem tracked_of_run {allowed : Daemon → Event → Prop} {d : Daemon}
    (hrun : Run daemonStep allowed .start d) : Tracked d :=
  tracked_start.of_run hrun

end CppLearn.SearchEngine.TaskLedger
