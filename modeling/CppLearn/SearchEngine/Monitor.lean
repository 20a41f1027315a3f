import CppLearn.SearchEngine.TaskLedger
import CppLearn.SearchEngine.Utils

/-!
# The monitor

A thread of the daemon runs `cleaness` every minute and erases the tasks of the pool that have become
stale. It spares the tasks that run, whatever their age, but looks neither at the queue nor at the
task that the loop is about to start. `requestsKept_of_run` says that this is all that can part a
queued task from its request, but for a handler that settles it for the child of another task: in
every run in which no call of `cleaness` meets a pending task that is stale, and the handler settles no
pending task, each queued uuid has the request that a client submitted, and so has the task that is
forked.
-/

set_option autoImplicit false
set_option relaxedAutoImplicit false

namespace CppLearn.SearchEngine.Monitor

open Foundation.DecimalText Foundation.GuardedRun Foundation.LocalTime LoopMoves SearchDaemon
open TaskLedger TaskRequest Utils

/-! ### The thread -/

/-- The default format of `strftime_to_timestamp`. -/
def timeFormat : Text := "%Y-%m-%d %H:%M:%S".toList

/-- The age at which `cleaness` erases a task. -/
def stale (zone : TimeZone) (taskStaleInterval : BitVec 16) (now : ℤ) (task : TaskInfo) : Bool :=
  now - strftimeToTimestamp zone task.ctime timeFormat ≥ taskStaleInterval.toNat * 60

/-- One turn of the loop of `cleaness`, at the entry of a uuid. -/
def visit (zone : TimeZone) (taskStaleInterval : BitVec 16) (now : ℤ) (v : Vars)
    (removes : Text → Text → Bool) (uuid : Text) : Option Vars :=
  (v.taskPool uuid).map fun task ↦
    if task.status = some .running then v
    else if stale zone taskStaleInterval now task then
      { v.unlink removes task.fileName with taskPool := Function.update v.taskPool uuid none }
    else v

/-- The daemon with its monitor: `cleaness` is the time that a call of the function has taken, as
long as it goes on, and `submitted` records the search requests that clients have sent. -/
structure Monitored where
  daemon : Daemon
  taskStaleInterval : BitVec 16
  cleaness : Option ℤ
  submitted : List Arrival

/-- The daemon as it enters the loop, with the default interval. -/
def Monitored.start : Monitored :=
  { daemon := .start
    taskStaleInterval := 10
    cleaness := none
    submitted := [] }

/-- The events: those of the daemon; a new interval from the configuration file; a call of `cleaness`
at a time; its turn at an entry; and its return. -/
inductive MonitorEvent
  | daemon (event : Event)
  | reload (taskStaleInterval : BitVec 16)
  | cleaness (now : ℤ)
  | visit (uuid : Text) (removes : Text → Text → Bool)
  | rest

/-- The search request that the daemon accepts. -/
def searches : Event → Option Arrival
  | .accept (some arrival) => if arrival.request.mode = "search".toList then some arrival else none
  | _ => none

/-- `task_pool[uuid]` in the branch for `status` makes an entry where the monitor has erased the one
that the test found. -/
def touched (d : Daemon) : Event → Daemon
  | .next =>
    match d.pc with
    | .statusStatus request =>
      { d with vars := d.vars.setTask request.uuid (d.vars.task request.uuid) }
    | .statusFileSize request =>
      { d with vars := d.vars.setTask request.uuid (d.vars.task request.uuid) }
    | _ => d
  | _ => d

/-- One step of the daemon or of its monitor. `generate_uuid` gives no uuid twice. The order in which
`cleaness` comes to the entries of the pool is left open. -/
def monitorStep (zone : TimeZone) (m : Monitored) : MonitorEvent → Option Monitored
  | .daemon event =>
    match searches event with
    | some arrival =>
      if arrival.newUuid ∈ m.submitted.map Arrival.newUuid then none
      else
        (daemonStep m.daemon event).map fun daemon ↦
          { m with daemon := daemon, submitted := m.submitted ++ [arrival] }
    | none =>
      (daemonStep (touched m.daemon event) event).map fun daemon ↦ { m with daemon := daemon }
  | .reload taskStaleInterval => some { m with taskStaleInterval := taskStaleInterval }
  | .cleaness now => if m.cleaness.isSome then none else some { m with cleaness := some now }
  | .visit uuid removes =>
    m.cleaness.bind fun now ↦
      (visit zone m.taskStaleInterval now m.daemon.vars removes uuid).map fun vars ↦
        { m with daemon := { m.daemon with vars := vars } }
  | .rest => if m.cleaness.isSome then some { m with cleaness := none } else none

/-! ### The statement -/

/-- The request of a client as it stands in the pool, with a status. -/
def entry (arrival : Arrival) (status : Status) : TaskInfo :=
  { searchRequest arrival with status := some status }

/-- The entry of a uuid holds the request that a client submitted for it, with a status. -/
def Kept (submitted : List Arrival) (v : Vars) (uuid : Text) (status : Status) : Prop :=
  ∃ arrival ∈ submitted, arrival.newUuid = uuid ∧ v.taskPool uuid = some (entry arrival status)

/-- Every queued uuid has its request, pending, and the child that the loop is about to fork gets its
request, running. -/
def RequestsKept (m : Monitored) : Prop :=
  (∀ uuid ∈ m.daemon.vars.pendingQueue, Kept m.submitted m.daemon.vars uuid .pending) ∧
    ∀ uuid, m.daemon.pc = .callFork uuid → Kept m.submitted m.daemon.vars uuid .running

/-- A call of `cleaness` comes to no pending task that is stale, and the handler comes to no entry of
`running_pool` under the uuid of a pending task when it has a status to write. -/
def sparesPending (zone : TimeZone) (m : Monitored) : MonitorEvent → Bool
  | .visit uuid _ =>
    m.cleaness.all fun now ↦ (m.daemon.vars.taskPool uuid).all fun task ↦
      task.status ≠ some .pending || !stale zone m.taskStaleInterval now task
  | .daemon (.sigchld pid _) =>
    (settling m.daemon.vars pid).all fun entry ↦ !hasStatus m.daemon.vars entry.1 .pending
  | _ => true

/-- The event meets that condition. -/
def SparesPending (zone : TimeZone) (m : Monitored) (event : MonitorEvent) : Prop :=
  sparesPending zone m event = true

instance (zone : TimeZone) (m : Monitored) (event : MonitorEvent) :
    Decidable (SparesPending zone m event) :=
  inferInstanceAs (Decidable (sparesPending zone m event = true))

/-! ### The invariant -/

/-- The uuid of the task that the loop has in hand, before it is queued or after it has left the
queue, and without a child yet. -/
def HasInHand : Phase → Text → Prop
  | .storing request, uuid => request.uuid = uuid
  | .pushing other, uuid => other = uuid
  | .spawning other, uuid => other = uuid
  | .starting other, uuid => other = uuid
  | .forking other, uuid => other = uuid
  | _, _ => False

/-- What the loop knows of the task that it is about. -/
def HandFacts (submitted : List Arrival) (v : Vars) : Phase → Prop
  | .storing request => ∃ arrival ∈ submitted, request = searchRequest arrival
  | .pushing uuid => Kept submitted v uuid .pending
  | .spawning uuid => Kept submitted v uuid .pending
  | .starting uuid => Kept submitted v uuid .running
  | .forking uuid => Kept submitted v uuid .running
  | .finishing reply => ¬ Childless v reply.uuid
  | .erasing reply => ¬ Childless v reply.uuid
  | .inserting uuid _ => ¬ Childless v uuid
  | _ => True

/-- The loop has found `running_pool` empty and is starting a task. -/
def Spawns : Phase → Prop
  | .chosen => True
  | .spawning _ => True
  | .starting _ => True
  | .forking _ => True
  | _ => False

/-- A uuid is queued, in hand or that of a child, and never two of them at once; a queued one has its
request. -/
structure Accounted (submitted : List Arrival) (v : Vars) (p : Phase) : Prop where
  queued : ∀ uuid ∈ v.pendingQueue, Kept submitted v uuid .pending
  nodup : v.pendingQueue.Nodup
  inHand : ∀ uuid, HasInHand p uuid →
    uuid ∈ submitted.map Arrival.newUuid ∧ uuid ∉ v.pendingQueue ∧ Childless v uuid
  children : ∀ uuid, ¬ Childless v uuid →
    uuid ∈ submitted.map Arrival.newUuid ∧ uuid ∉ v.pendingQueue
  empty : Spawns p → v.runningPool = []
  facts : HandFacts submitted v p

theorem taskPool_setTask (v : Vars) (uuid : Text) (task : TaskInfo) :
    (v.setTask uuid task).taskPool = Function.update v.taskPool uuid (some task) := rfl

theorem Kept.setTask {submitted : List Arrival} {v : Vars} {uuid : Text} {status : Status}
    (kept : Kept submitted v uuid status) {other : Text} (hother : uuid ≠ other) (task : TaskInfo) :
    Kept submitted (v.setTask other task) uuid status := by
  obtain ⟨arrival, hmem, huuid, htask⟩ := kept
  refine ⟨arrival, hmem, huuid, ?_⟩
  rw [taskPool_setTask, Function.update_of_ne hother, htask]

theorem Kept.touch {submitted : List Arrival} {v : Vars} {uuid : Text} {status : Status}
    (kept : Kept submitted v uuid status) (other : Text) :
    Kept submitted (v.setTask other (v.task other)) uuid status := by
  by_cases hother : uuid = other
  · obtain ⟨arrival, hmem, huuid, htask⟩ := kept
    refine ⟨arrival, hmem, huuid, ?_⟩
    rw [← hother, taskPool_setTask, Function.update_self, task_of_some htask]
  · exact kept.setTask hother _

/-- The status of a task that is kept is replaced. -/
theorem Kept.setStatus {submitted : List Arrival} {v : Vars} {uuid : Text} {status : Status}
    (kept : Kept submitted v uuid status) (status' : Status) :
    Kept submitted (v.setStatus uuid status') uuid status' := by
  obtain ⟨arrival, hmem, huuid, htask⟩ := kept
  refine ⟨arrival, hmem, huuid, ?_⟩
  rw [Vars.setStatus, taskPool_setTask, Function.update_self, task_of_some htask]
  rfl

theorem Kept.mem {submitted : List Arrival} {v : Vars} {uuid : Text} {status : Status}
    (kept : Kept submitted v uuid status) : uuid ∈ submitted.map Arrival.newUuid := by
  obtain ⟨arrival, hmem, huuid, -⟩ := kept
  exact List.mem_map.mpr ⟨arrival, hmem, huuid⟩

theorem not_childless {v : Vars} {pid : ℕ} {child : Child}
    (hchild : v.children pid = some child) : ¬ Childless v child.request.uuid :=
  fun hchildless ↦ hchildless pid child hchild rfl

/-- Children that go on keep their tasks. -/
theorem childless_iff {v v' : Vars} (hcontinue : ChildrenContinue v.children v'.children)
    (uuid : Text) : Childless v' uuid ↔ Childless v uuid := by
  constructor
  · intro hchildless pid child hchild
    obtain ⟨next, hnext, hsame, -⟩ := hcontinue.forth pid child hchild
    exact hsame ▸ hchildless pid next hnext
  · intro hchildless pid next hnext
    obtain ⟨child, hchild, hsame, -⟩ := hcontinue.back pid next hnext
    exact hsame ▸ hchildless pid child hchild

theorem HandFacts.mono {submitted submitted' : List Arrival} {v v' : Vars} {p : Phase}
    (facts : HandFacts submitted v p)
    (hkept : ∀ uuid status, status = .pending ∨ status = .running → HasInHand p uuid →
      Kept submitted v uuid status → Kept submitted' v' uuid status)
    (hsub : ∀ arrival ∈ submitted, arrival ∈ submitted')
    (hchildless : ∀ uuid, Childless v' uuid → Childless v uuid) : HandFacts submitted' v' p := by
  cases p with
  | storing request =>
    obtain ⟨arrival, hmem, hrequest⟩ := facts
    exact ⟨arrival, hsub arrival hmem, hrequest⟩
  | pushing uuid => exact hkept uuid .pending (.inl rfl) rfl facts
  | spawning uuid => exact hkept uuid .pending (.inl rfl) rfl facts
  | starting uuid => exact hkept uuid .running (.inr rfl) rfl facts
  | forking uuid => exact hkept uuid .running (.inr rfl) rfl facts
  | finishing reply => exact fun hafter ↦ facts (hchildless _ hafter)
  | erasing reply => exact fun hafter ↦ facts (hchildless _ hafter)
  | inserting uuid pid => exact fun hafter ↦ facts (hchildless _ hafter)
  | _ => trivial

/-- Assumes: tasks that keep their requests as far as they are queued or in hand, the same queue, no
new entries of `running_pool`, and children that go on. -/
theorem Accounted.mono {submitted : List Arrival} {v v' : Vars} {p : Phase}
    (accounted : Accounted submitted v p)
    (hkept : ∀ uuid status, status = .pending ∨ status = .running →
      uuid ∈ v.pendingQueue ∨ HasInHand p uuid → Kept submitted v uuid status →
      Kept submitted v' uuid status)
    (hqueue : v'.pendingQueue = v.pendingQueue)
    (hpool : ∀ entry ∈ v'.runningPool, entry ∈ v.runningPool)
    (hcontinue : ChildrenContinue v.children v'.children) : Accounted submitted v' p where
  queued := by
    intro uuid hmem
    rw [hqueue] at hmem
    exact hkept uuid .pending (.inl rfl) (.inl hmem) (accounted.queued uuid hmem)
  nodup := hqueue ▸ accounted.nodup
  inHand := by
    intro uuid hhand
    rw [hqueue, childless_iff hcontinue]
    exact accounted.inHand uuid hhand
  children := by
    intro uuid
    rw [hqueue, childless_iff hcontinue]
    exact accounted.children uuid
  empty := by
    intro hspawns
    rw [accounted.empty hspawns] at hpool
    exact List.eq_nil_iff_forall_not_mem.mpr fun entry hmem ↦ List.not_mem_nil (hpool entry hmem)
  facts := accounted.facts.mono
    (fun uuid status hstatus hhand ↦ hkept uuid status hstatus (.inr hhand)) (fun _ hmem ↦ hmem) fun uuid ↦ (childless_iff hcontinue uuid).mp

theorem childrenContinue_refl (children : ℕ → Option Child) : ChildrenContinue children children where
  back := fun _ next hnext ↦ ⟨next, hnext, .refl next⟩
  forth := fun _ child hchild ↦ ⟨child, hchild, .refl child⟩

/-- Assumes: a task that has a child. Its entry can be replaced. -/
theorem Accounted.setTask {submitted : List Arrival} {v : Vars} {p : Phase}
    (accounted : Accounted submitted v p) {uuid : Text} (hchild : ¬ Childless v uuid)
    (task : TaskInfo) : Accounted submitted (v.setTask uuid task) p := by
  refine accounted.mono ?_ rfl (fun _ hmem ↦ hmem) (childrenContinue_refl _)
  intro other status _ hactive kept
  refine kept.setTask ?_ task
  rintro rfl
  rcases hactive with hmem | hhand
  · exact (accounted.children other hchild).2 hmem
  · exact hchild (accounted.inHand other hhand).2.2

theorem Accounted.eraseRunning {submitted : List Arrival} {v : Vars} {p : Phase}
    (accounted : Accounted submitted v p) (uuid : Text) :
    Accounted submitted (v.eraseRunning uuid) p :=
  accounted.mono (fun _ _ _ _ ↦ id) rfl (fun _ hmem ↦ (mem_eraseRunning.mp hmem).1)
    (childrenContinue_refl _)

theorem Kept.hasStatus {submitted : List Arrival} {v : Vars} {uuid : Text} {status : Status}
    (kept : Kept submitted v uuid status) : HasStatus v uuid status := by
  obtain ⟨arrival, -, -, htask⟩ := kept
  exact ⟨entry arrival status, htask, rfl⟩

/-- Assumes: an entry in `running_pool`, and a task that is not pending. It can be settled. -/
theorem Accounted.settle {submitted : List Arrival} {v : Vars} {p : Phase}
    (accounted : Accounted submitted v p) (hpool : v.runningPool ≠ []) {key : Text}
    (hspared : ¬ HasStatus v key .pending) (status : Status) :
    Accounted submitted (v.setStatus key status) p := by
  have hkept : ∀ uuid, Kept submitted v uuid .pending →
      Kept submitted (v.setStatus key status) uuid .pending := by
    intro uuid kept
    refine kept.setTask ?_ _
    rintro rfl
    exact hspared kept.hasStatus
  refine ⟨fun uuid hmem ↦ hkept uuid (accounted.queued uuid hmem), accounted.nodup,
    accounted.inHand, accounted.children, accounted.empty, ?_⟩
  have hfacts := accounted.facts
  have hempty := accounted.empty
  cases p with
  | storing request => exact hfacts
  | pushing uuid => exact hkept uuid hfacts
  | spawning uuid => exact absurd (hempty trivial) hpool
  | starting uuid => exact absurd (hempty trivial) hpool
  | forking uuid => exact absurd (hempty trivial) hpool
  | finishing reply => exact hfacts
  | erasing reply => exact hfacts
  | inserting uuid pid => exact hfacts
  | _ => trivial

/-- Assumes: a handler that settles no pending task. -/
theorem Accounted.subprocessCleaness {submitted : List Arrival} {v v' : Vars} {p : Phase}
    (accounted : Accounted submitted v p) {removes : Text → Text → Bool} {pid : ℕ}
    (hspares : ∀ key status, settling v pid = some (key, status) → ¬ HasStatus v key .pending)
    (hreap : v.subprocessCleaness removes pid = some v') : Accounted submitted v' p := by
  obtain ⟨child, exitStatus, hchild, hexit, hcases⟩ := subprocessCleaness_found hreap
  have hreaped : Accounted submitted (v.setChild pid { child with reaped := true }) p :=
    accounted.mono (fun _ _ _ _ ↦ id) rfl (fun _ hmem ↦ hmem)
      (childrenContinue_setChild hchild ⟨rfl, rfl, id⟩)
  rcases hcases with ⟨-, rfl⟩ | ⟨key, hfound, rfl⟩
  · exact hreaped
  · rw [settle_eq]
    rcases hsettled : settledStatus exitStatus with _ | status
    · exact hreaped.eraseRunning key
    · refine Accounted.eraseRunning ?_ key
      refine Accounted.settle ?_ ?_ ?_ status
      · exact hreaped.mono (fun _ _ _ _ ↦ id) rfl (fun _ hmem ↦ hmem)
          (childrenContinue_unlink _ _ _)
      · obtain ⟨entry, hentry, -⟩ := Option.map_eq_some_iff.mp hfound
        exact List.ne_nil_of_mem (List.mem_of_find?_eq_some hentry)
      · refine hspares key status ?_
        rw [settling, hfound, Option.bind_some, hchild, Option.bind_some, hexit, Option.bind_some,
          hsettled, Option.map_some]

/-- A phase that has no other task in hand than the one before it. -/
theorem Accounted.leave {submitted : List Arrival} {v : Vars} {p p' : Phase}
    (accounted : Accounted submitted v p) (hhand : ∀ uuid, HasInHand p' uuid → HasInHand p uuid)
    (hempty : Spawns p' → v.runningPool = []) (facts : HandFacts submitted v p') :
    Accounted submitted v p' :=
  { accounted with
    inHand := fun uuid hin ↦ accounted.inHand uuid (hhand uuid hin)
    empty := hempty
    facts := facts }

theorem Accounted.store {submitted : List Arrival} {v : Vars} {request : TaskInfo}
    (accounted : Accounted submitted v (.storing request)) :
    Accounted submitted (v.setTask request.uuid request) (.pushing request.uuid) := by
  obtain ⟨hmem, hqueue, hchildless⟩ := accounted.inHand request.uuid rfl
  refine ⟨?_, accounted.nodup, ?_, accounted.children, False.elim, ?_⟩
  · intro uuid hqueued
    refine (accounted.queued uuid hqueued).setTask ?_ request
    rintro rfl
    exact hqueue hqueued
  · rintro uuid rfl
    exact ⟨hmem, hqueue, hchildless⟩
  · obtain ⟨arrival, hsubmitted, rfl⟩ := accounted.facts
    exact ⟨arrival, hsubmitted, rfl, Function.update_self ..⟩

theorem Accounted.push {submitted : List Arrival} {v : Vars} {uuid : Text}
    (accounted : Accounted submitted v (.pushing uuid)) :
    Accounted submitted { v with pendingQueue := v.pendingQueue ++ [uuid] } .idle := by
  obtain ⟨hmem, hqueue, hchildless⟩ := accounted.inHand uuid rfl
  refine ⟨?_, ?_, fun other hin ↦ hin.elim, ?_, False.elim, trivial⟩
  · intro other hqueued
    rcases List.mem_append.mp hqueued with hold | hnew
    · exact accounted.queued other hold
    · rw [List.mem_singleton.mp hnew]
      exact accounted.facts
  · refine List.nodup_append.mpr ⟨accounted.nodup, List.nodup_singleton uuid, ?_⟩
    rintro other hold last hlast rfl
    exact hqueue (List.mem_singleton.mp hlast ▸ hold)
  · intro other hchild
    obtain ⟨hsubmitted, hnot⟩ := accounted.children other hchild
    refine ⟨hsubmitted, fun hqueued ↦ ?_⟩
    rcases List.mem_append.mp hqueued with hold | hnew
    · exact hnot hold
    · exact hchild (List.mem_singleton.mp hnew ▸ hchildless)

theorem Accounted.take {submitted : List Arrival} {v : Vars} {uuid : Text} {pending : List Text}
    (accounted : Accounted submitted v .chosen) (hqueue : v.pendingQueue = uuid :: pending) :
    Accounted submitted { v.setTask uuid (v.task uuid) with pendingQueue := pending }
      (.spawning uuid) := by
  have hfirst : uuid ∈ v.pendingQueue := hqueue ▸ List.mem_cons_self ..
  have hrest : ∀ other ∈ pending, other ∈ v.pendingQueue :=
    fun other hmem ↦ hqueue ▸ List.mem_cons_of_mem uuid hmem
  have hnodup : (uuid :: pending).Nodup := hqueue ▸ accounted.nodup
  have hkept := accounted.queued uuid hfirst
  refine ⟨?_, hnodup.of_cons, ?_, ?_, accounted.empty, hkept.touch uuid⟩
  · exact fun other hmem ↦ (accounted.queued other (hrest other hmem)).touch uuid
  · rintro other rfl
    refine ⟨hkept.mem, (List.nodup_cons.mp hnodup).1, ?_⟩
    by_contra hchild
    exact (accounted.children uuid hchild).2 hfirst
  · intro other hchild
    obtain ⟨hsubmitted, hnot⟩ := accounted.children other hchild
    exact ⟨hsubmitted, fun hmem ↦ hnot (hrest other hmem)⟩

/-- The status of the task in hand is replaced. -/
theorem Accounted.setStatus {submitted : List Arrival} {v : Vars} {p p' : Phase} {uuid : Text}
    (accounted : Accounted submitted v p) (hin : HasInHand p uuid) (status : Status)
    (hhand : ∀ other, HasInHand p' other → HasInHand p other) (hspawns : Spawns p' → Spawns p)
    (facts : HandFacts submitted (v.setStatus uuid status) p') :
    Accounted submitted (v.setStatus uuid status) p' := by
  have hqueue := (accounted.inHand uuid hin).2.1
  refine ⟨?_, accounted.nodup, fun other hother ↦ accounted.inHand other (hhand other hother),
    accounted.children, fun hafter ↦ accounted.empty (hspawns hafter), facts⟩
  intro other hmem
  refine (accounted.queued other hmem).setTask ?_ _
  rintro rfl
  exact hqueue hmem

theorem Accounted.fork {submitted : List Arrival} {v : Vars} {uuid : Text}
    (accounted : Accounted submitted v (.forking uuid)) (pid : ℕ) :
    Accounted submitted (v.setChild pid (newChild (v.task uuid))) (.inserting uuid pid) := by
  obtain ⟨hmem, hqueue, -⟩ := accounted.inHand uuid rfl
  obtain ⟨arrival, -, huuid, htask⟩ := accounted.facts
  have hself : (newChild (v.task uuid)).request.uuid = uuid := by
    rw [task_of_some htask]
    exact huuid
  have hother : ∀ other, ¬ Childless (v.setChild pid (newChild (v.task uuid))) other →
      other = uuid ∨ ¬ Childless v other := by
    intro other hchild
    by_contra hneither
    push Not at hneither
    refine hchild fun pid' child hafter ↦ ?_
    by_cases hpid : pid' = pid
    · simp only [Vars.setChild, hpid, Function.update_self, Option.some.injEq] at hafter
      rw [← hafter, hself]
      exact hneither.1.symm
    · simp only [Vars.setChild, Function.update_of_ne hpid] at hafter
      exact hneither.2 pid' child hafter
  refine ⟨accounted.queued, accounted.nodup, fun other hin ↦ hin.elim, ?_, False.elim, ?_⟩
  · intro other hchild
    rcases hother other hchild with rfl | hold
    · exact ⟨hmem, hqueue⟩
    · exact accounted.children other hold
  · exact fun hchildless ↦ hchildless pid _ (Function.update_self ..) hself

/-- Assumes: a step that takes in no request, and a handler that settles no pending task. -/
theorem Accounted.effect {submitted : List Arrival} {v v' : Vars} {p p' : Phase} {event : Event}
    (accounted : Accounted submitted v p) (heffect : Effect v p event v' p')
    (hreceive : ∀ request, p' = .storing request → p = .storing request)
    (hspares : ∀ pid removes, event = .sigchld pid removes → ∀ key status,
      settling v pid = some (key, status) → ¬ HasStatus v key .pending) :
    Accounted submitted v' p' := by
  cases heffect with
  | quiet => exact accounted
  | receive event request => cases hreceive request rfl
  | store request => exact accounted.store
  | push uuid => exact accounted.push
  | read pid child hfd hchild =>
    exact accounted.leave (fun _ ↦ False.elim) False.elim (not_childless hchild)
  | endOfFile => exact accounted.leave (fun _ ↦ False.elim) False.elim trivial
  | fileSize reply => exact accounted.setTask accounted.facts _
  | finish reply =>
    exact (accounted.setTask accounted.facts _).leave (fun _ ↦ False.elim) False.elim
      accounted.facts
  | erase reply =>
    exact (accounted.eraseRunning reply.uuid).leave (fun _ ↦ False.elim) False.elim trivial
  | close =>
    have hclosed : Accounted submitted { v with pipeFd := none, pipeWatched := false } .closing :=
      accounted.mono (fun _ _ _ _ ↦ id) rfl (fun _ ↦ id) (childrenContinue_refl _)
    exact hclosed.leave (fun _ ↦ False.elim) False.elim trivial
  | choose hrunning => exact accounted.leave (fun _ ↦ False.elim) (fun _ ↦ hrunning) trivial
  | take uuid pending hqueue => exact accounted.take hqueue
  | skip uuid => exact accounted.leave (fun _ ↦ False.elim) False.elim trivial
  | run uuid =>
    exact accounted.setStatus rfl .running (fun _ ↦ id) id
      (Kept.setStatus accounted.facts .running)
  | fail uuid => exact accounted.setStatus rfl .failed (fun _ ↦ False.elim) False.elim trivial
  | pipe uuid =>
    have hopened : Accounted submitted v.openPipe (.starting uuid) :=
      accounted.mono (fun _ _ _ _ ↦ id) rfl (fun _ ↦ id) (childrenContinue_refl _)
    exact hopened.leave (fun _ ↦ id) accounted.empty accounted.facts
  | forkFailed uuid => exact accounted.leave (fun _ ↦ id) accounted.empty accounted.facts
  | fork uuid pid => exact accounted.fork pid
  | insert key uuid pid =>
    exact Accounted.leave (p := .inserting uuid pid) ⟨accounted.queued, accounted.nodup,
      accounted.inHand, accounted.children, False.elim, accounted.facts⟩ (fun _ ↦ False.elim)
      False.elim trivial
  | watch => exact accounted.mono (fun _ _ _ _ ↦ id) rfl (fun _ ↦ id) (childrenContinue_refl _)
  | kill pid child hchild =>
    exact accounted.mono (fun _ _ _ _ ↦ id) rfl (fun _ ↦ id)
      (childrenContinue_setChild hchild ⟨rfl, rfl, id⟩)
  | child p event pid act child next hevent hchild hlive hact =>
    exact accounted.mono (fun _ _ _ _ ↦ id) rfl (fun _ ↦ id)
      (childrenContinue_setChild hchild (continues_childAct hevent hact))
  | sigchld p pid removes v' hreap =>
    exact accounted.subprocessCleaness (hspares pid removes rfl) hreap

/-- A new uuid that comes with a request is in hand. -/
theorem Accounted.submit {submitted : List Arrival} {v : Vars}
    (accounted : Accounted submitted v .idle) {arrival : Arrival}
    (hfresh : arrival.newUuid ∉ submitted.map Arrival.newUuid) :
    Accounted (submitted ++ [arrival]) v (.storing (searchRequest arrival)) := by
  have hsub : ∀ other ∈ submitted, other ∈ submitted ++ [arrival] :=
    fun _ hmem ↦ List.mem_append_left _ hmem
  have hmap : ∀ uuid ∈ submitted.map Arrival.newUuid,
      uuid ∈ (submitted ++ [arrival]).map Arrival.newUuid := fun uuid hmem ↦ by
    rw [List.map_append]
    exact List.mem_append_left _ hmem
  have hself : arrival ∈ submitted ++ [arrival] :=
    List.mem_append_right _ (List.mem_singleton_self _)
  refine ⟨?_, accounted.nodup, ?_, ?_, False.elim, ⟨arrival, hself, rfl⟩⟩
  · intro uuid hmem
    obtain ⟨other, hother, hrest⟩ := accounted.queued uuid hmem
    exact ⟨other, hsub other hother, hrest⟩
  · rintro uuid rfl
    refine ⟨List.mem_map.mpr ⟨arrival, hself, rfl⟩, fun hmem ↦ ?_, ?_⟩
    · exact hfresh (accounted.queued _ hmem).mem
    · by_contra hchild
      exact hfresh (accounted.children _ hchild).1
  · intro uuid hchild
    obtain ⟨hmem, hqueue⟩ := accounted.children uuid hchild
    exact ⟨hmap uuid hmem, hqueue⟩

/-- Assumes: a pending task only if it is not stale. A turn of `cleaness` erases no task that is
queued or in hand. -/
theorem Accounted.visit {zone : TimeZone} {interval : BitVec 16} {now : ℤ}
    {submitted : List Arrival} {v v' : Vars} {p : Phase} (accounted : Accounted submitted v p)
    {removes : Text → Text → Bool} {uuid : Text}
    (hspares : ∀ task, v.taskPool uuid = some task → task.status = some .pending →
      stale zone interval now task = false)
    (hvisit : visit zone interval now v removes uuid = some v') : Accounted submitted v' p := by
  obtain ⟨task, htask, rfl⟩ := Option.map_eq_some_iff.mp hvisit
  split_ifs with hrunning hstale
  · exact accounted
  · refine accounted.mono ?_ rfl (fun _ ↦ id) (childrenContinue_unlink v removes task.fileName)
    rintro other status hstatus - ⟨arrival, hmem, huuid, hentry⟩
    refine ⟨arrival, hmem, huuid, ?_⟩
    rw [← hentry]
    refine Function.update_of_ne ?_ ..
    rintro rfl
    obtain rfl : task = entry arrival status := Option.some.inj (htask.symm.trans hentry)
    rcases hstatus with rfl | rfl
    · exact Bool.false_ne_true ((hspares _ htask rfl).symm.trans hstale)
    · exact hrunning rfl
  · exact accounted

/-! ### Every run -/

theorem storing_loopStep {d next : Daemon} (htaken : loopStep d = some next) {request : TaskInfo}
    (hphase : phase next.pc = .storing request) : phase d.pc = .storing request := by
  cases loopMove_of_loopStep htaken with
  | answerSearch other hpc =>
    rw [hpc]
    exact hphase
  | _ => cases hphase

/-- Only a search request that is accepted comes to be stored. -/
theorem storing_daemonStep {d next : Daemon} {event : Event} (hnone : searches event = none)
    (htaken : daemonStep d event = some next) {request : TaskInfo}
    (hphase : phase next.pc = .storing request) : phase d.pc = .storing request := by
  cases daemonMove_of_daemonStep htaken with
  | interrupted hpc => exact hphase
  | accept arrival hpc =>
    have hmode : arrival.request.mode ≠ "search".toList := by
      intro hmode
      simp only [searches, hmode, if_true, reduceCtorEq] at hnone
    simp only [dispatch, hmode, if_false] at hphase
    split_ifs at hphase <;> cases hphase
  | loop next hpc hloop => exact storing_loopStep hloop hphase
  | sigchld pid removes vars hreap => exact hphase
  | child event pid act vars hevent hstep => exact hphase
  | _ => cases hphase

/-- An entry made by a test of the status is no task that is queued or in hand. -/
theorem Accounted.touch {submitted : List Arrival} {d : Daemon}
    (accounted : Accounted submitted d.vars (phase d.pc)) (event : Event) :
    Accounted submitted (touched d event).vars (phase (touched d event).pc) := by
  have htouch : ∀ uuid, Accounted submitted (d.vars.setTask uuid (d.vars.task uuid)) (phase d.pc) :=
    fun uuid ↦ accounted.mono (fun _ _ _ _ kept ↦ kept.touch uuid) rfl (fun _ ↦ id)
      (childrenContinue_refl _)
  unfold touched
  split
  · split
    · exact htouch _
    · exact htouch _
    · exact accounted
  · exact accounted

/-- What the invariant says of the daemon with its monitor. -/
def Monitored.Accounted (m : Monitored) : Prop :=
  Monitor.Accounted m.submitted m.daemon.vars (phase m.daemon.pc)

/-- Assumes: an event that the guard permits. The handler settles no pending task. -/
theorem SparesPending.settling {zone : TimeZone} {m : Monitored} {pid : ℕ}
    {removes : Text → Text → Bool} (hspares : SparesPending zone m (.daemon (.sigchld pid removes)))
    {key : Text} {status : Status} (hsettling : settling m.daemon.vars pid = some (key, status)) :
    ¬ HasStatus m.daemon.vars key .pending := by
  rw [← hasStatus_iff]
  simpa only [SparesPending, sparesPending, hsettling, Option.all_some, Bool.not_eq_true',
    Bool.not_eq_true] using hspares

theorem Monitored.Accounted.daemonStep {zone : TimeZone} {m next : Monitored} {event : Event}
    (accounted : m.Accounted) (hallowed : SparesPending zone m (.daemon event))
    (htaken : monitorStep zone m (.daemon event) = some next) :
    next.Accounted := by
  simp only [monitorStep] at htaken
  split at htaken
  · next arrival hsearches =>
    split_ifs at htaken with hfresh
    obtain ⟨daemon, hstep, rfl⟩ := Option.map_eq_some_iff.mp htaken
    obtain ⟨rfl, hmode⟩ : event = .accept (some arrival) ∧
        arrival.request.mode = "search".toList := by
      unfold searches at hsearches
      split at hsearches
      · split_ifs at hsearches with hmode
        cases hsearches
        exact ⟨rfl, hmode⟩
      · cases hsearches
    obtain ⟨hlisten, rfl⟩ := dispatches_of_accept hstep
    have hdispatch : dispatch arrival = .answerSearch (searchRequest arrival) := by
      simp only [dispatch, hmode]
      rfl
    have hidle : phase m.daemon.pc = .idle := by rw [hlisten]; rfl
    rw [Monitored.Accounted, hidle] at accounted
    rw [Monitored.Accounted, hdispatch]
    exact accounted.submit hfresh
  · next hsearches =>
    obtain ⟨daemon, hstep, rfl⟩ := Option.map_eq_some_iff.mp htaken
    refine (accounted.touch event).effect (daemonStep_effect hstep)
      (fun request ↦ storing_daemonStep hsearches hstep) ?_
    rintro pid removes rfl key status
    exact hallowed.settling

theorem accounted_of_run {zone : TimeZone} {m : Monitored}
    (hrun : Run (monitorStep zone) (SparesPending zone) .start m) : m.Accounted := by
  induction hrun with
  | refl =>
    refine ⟨?_, List.nodup_nil, fun _ ↦ False.elim, ?_, False.elim, trivial⟩
    · intro uuid hmem
      cases hmem
    · intro uuid hchild
      refine absurd ?_ hchild
      intro pid child hnone
      cases hnone
  | @tail m next event run permitted taken ih =>
    cases event with
    | daemon event => exact ih.daemonStep permitted taken
    | reload interval =>
      cases taken
      exact ih
    | cleaness now =>
      simp only [monitorStep] at taken
      split_ifs at taken
      cases taken
      exact ih
    | visit uuid removes =>
      obtain ⟨now, hnow, hvisit⟩ := Option.bind_eq_some_iff.mp taken
      obtain ⟨vars, hvars, rfl⟩ := Option.map_eq_some_iff.mp hvisit
      refine Accounted.visit ih ?_ hvars
      intro task htask hpending
      simpa only [SparesPending, sparesPending, hnow, htask, Option.all_some, hpending, ne_eq,
        not_true, decide_false, Bool.false_or, Bool.not_eq_true'] using permitted
    | rest =>
      simp only [monitorStep] at taken
      split_ifs at taken
      cases taken
      exact ih

/-- Assumes: a run in which no call of `cleaness` comes to a pending task that is stale, and the handler
settles no pending task. Every queued task has the request that a client submitted for it, and so has
the task that is forked. -/
theorem requestsKept_of_run {zone : TimeZone} {m : Monitored}
    (hrun : Run (monitorStep zone) (SparesPending zone) .start m) : RequestsKept m := by
  have accounted := accounted_of_run hrun
  refine ⟨accounted.queued, fun uuid hpc ↦ ?_⟩
  have facts := accounted.facts
  rw [hpc] at facts
  exact facts

/-! ### Samples -/

/-- A search request that arrives at the midnight that begins 1 September 2017. -/
def datedArrival (letter : Char) : Arrival :=
  { searchArrival letter with ctime := "2017-09-01 00:00:00".toList }

/-- It arrives and is queued. -/
def arriveDated (letter : Char) : List MonitorEvent :=
  [Event.select true, .accept (some (datedArrival letter)), .next, .next, .next].map .daemon

/-- The task `a` runs and the task `b` is queued behind it. -/
def runAndQueue : List MonitorEvent :=
  arriveDated 'a' ++ (spawn 'a').map .daemon ++ arriveDated 'b'

/-- A minute later `cleaness` comes to both tasks and leaves them. -/
theorem requestsKept_of_run_fresh : ∃ m, execute (monitorStep utc) (SparesPending utc) .start
      (runAndQueue ++ [.cleaness 1504224060, .visit ['a'] sameName, .visit ['b'] sameName, .rest]) = some m ∧
    m.daemon.vars.pendingQueue = [['b']] ∧ RequestsKept m := by
  obtain ⟨m, hexecute, hqueue⟩ : ∃ m, execute (monitorStep utc) (SparesPending utc) .start
        (runAndQueue ++ [.cleaness 1504224060, .visit ['a'] sameName, .visit ['b'] sameName, .rest]) = some m ∧
      m.daemon.vars.pendingQueue = [['b']] := ⟨_, rfl, rfl⟩
  exact ⟨m, hexecute, hqueue, requestsKept_of_run (run_of_execute hexecute)⟩

/-- Ten minutes later `cleaness` spares `a`, which still runs, and erases `b`. When `a` has ended, the
daemon is about to fork a child with a task that no client has submitted. -/
theorem not_requestsKept :
    ¬ ∀ m, Reachable (monitorStep utc) .start m → RequestsKept m := by
  intro hclaim
  obtain ⟨m, hexecute, hpc, htask⟩ : ∃ m, execute (monitorStep utc) anyEvent .start
        (runAndQueue ++ [.cleaness 1504224600, .visit ['a'] sameName, .visit ['b'] sameName, .rest] ++
          [Event.childExit 1 0, reap 1, .next, .next, .next, .next, .next, .next,
            .pipe true].map .daemon) = some m ∧
      m.daemon.pc = .callFork ['b'] ∧
      m.daemon.vars.taskPool ['b'] = some { taskInfo with status := some .running } :=
    ⟨_, rfl, rfl, rfl⟩
  obtain ⟨arrival, -, huuid, hentry⟩ := (hclaim m (run_of_execute hexecute)).2 ['b'] hpc
  have hsame := congrArg TaskInfo.uuid (Option.some.inj (htask.symm.trans hentry))
  exact List.cons_ne_nil _ _ (huuid.symm.trans hsame.symm)

end CppLearn.SearchEngine.Monitor
