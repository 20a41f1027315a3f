import Mathlib.Logic.Function.Basic
import CppLearn.Foundation.TextSearch
import CppLearn.SearchEngine.TaskRequest

/-!
# The search daemon

`daemon_loop` takes requests from clients, keeps them in a pool and a queue, and runs them one at a
time in child processes that send their results back through a pipe. `daemonStep` interleaves its
statements with the steps of the children and with the handler of `SIGCHLD`, which may run between
any two statements. `Pc` is the statement of the loop that comes next.

A pipe and the child forked for it share a number, which stands for the process id as well. Numbers
are not used again. The handler waits for one child at a time here, so that a call that waits for
several is several of its steps.

Two things are left to the events. The loop keeps a pointer into the string that it pops from
`pending_queue`, and reads the key for `running_pool` from that memory when it has been freed:
`Event.insert` has the text that is found there. And `unlink` acts on files, not on names: the events
of the handler have the relation `removes`, by which the file that a task has opened under one name is
removed under another.
-/

set_option autoImplicit false
set_option relaxedAutoImplicit false

namespace CppLearn.SearchEngine.SearchDaemon

open Foundation.DecimalText Foundation.TextSearch TaskRequest

/-! ### The variables of the daemon and its children -/

/-- What a child has written to its pipe: nothing, the front of its reply, or all of it. -/
inductive Reply
  | nothing
  | front
  | whole
  deriving DecidableEq

/-- A child process with its copy of the request. `terminated` is a `SIGTERM` that has been sent to
it, `exitStatus` what `WEXITSTATUS` gives once it has ended, and `fileUnlinked` records that the
pcap file it has opened was removed by the daemon. -/
structure Child where
  request : TaskInfo
  opened : Bool
  reply : Reply
  terminated : Bool
  exitStatus : Option ℕ
  reaped : Bool
  fileUnlinked : Bool
  deriving DecidableEq

/-- The pools and the queue of `GlobalVars`, the read end `pipe_fd[0]` with its membership in
`all_set`, and the children forked so far. -/
structure Vars where
  taskPool : Text → Option TaskInfo
  runningPool : List (Text × ℕ)
  pendingQueue : List Text
  pipeFd : Option ℕ
  pipeWatched : Bool
  children : ℕ → Option Child
  nextPipe : ℕ

/-- `task_pool[uuid]`, with a default entry where there is none. -/
def Vars.task (v : Vars) (uuid : Text) : TaskInfo := (v.taskPool uuid).getD taskInfo

/-- The entry of a task replaced. -/
def Vars.setTask (v : Vars) (uuid : Text) (task : TaskInfo) : Vars :=
  { v with taskPool := Function.update v.taskPool uuid (some task) }

/-- `task_pool[uuid].set_str_val_by_key("status", ..)`. -/
def Vars.setStatus (v : Vars) (uuid : Text) (status : Status) : Vars :=
  v.setTask uuid { v.task uuid with status := some status }

/-- `task_pool[uuid].set_int_val_by_key("file_size", ..)`. -/
def Vars.setFileSize (v : Vars) (uuid : Text) (fileSize : BitVec 64) : Vars :=
  v.setTask uuid { v.task uuid with fileSize := fileSize }

/-- `running_pool.erase(uuid)`. -/
def Vars.eraseRunning (v : Vars) (uuid : Text) : Vars :=
  { v with runningPool := v.runningPool.filter fun entry ↦ entry.1 ≠ uuid }

/-- `running_pool[uuid] = pid`. -/
def Vars.insertRunning (v : Vars) (uuid : Text) (pid : ℕ) : Vars :=
  { v with runningPool := (v.eraseRunning uuid).runningPool ++ [(uuid, pid)] }

/-- A child replaced. -/
def Vars.setChild (v : Vars) (pid : ℕ) (child : Child) : Vars :=
  { v with children := Function.update v.children pid (some child) }

/-- A child whose file is removed under the path notes that it is gone. -/
def Child.unlink (removes : Text → Text → Bool) (child : Child) (path : Text) : Child :=
  if child.opened ∧ removes path child.request.fileName then { child with fileUnlinked := true }
  else child

/-- `unlink`. -/
def Vars.unlink (v : Vars) (removes : Text → Text → Bool) (path : Text) : Vars :=
  { v with children := fun pid ↦ (v.children pid).map fun child ↦ child.unlink removes path }

/-! ### The handler of SIGCHLD -/

/-- What `subprocess_cleaness` does about the task of a child that it has waited for. -/
def Vars.settle (v : Vars) (removes : Text → Text → Bool) (uuid : Text) (exitStatus : ℕ) : Vars :=
  if exitStatus = sigtermErr then
    (v.unlink removes (v.task uuid).fileName).setStatus uuid .canceled
  else if exitStatus = sigsegvErr then
    (v.unlink removes (v.task uuid).fileName).setStatus uuid .failed
  else v

/-- The first entry of `running_pool` with a process id. -/
def Vars.runningUuid (v : Vars) (pid : ℕ) : Option Text :=
  (v.runningPool.find? fun entry ↦ entry.2 = pid).map Prod.fst

/-- One turn of the loop of `subprocess_cleaness`: `waitpid` returns a child that has ended. -/
def Vars.subprocessCleaness (v : Vars) (removes : Text → Text → Bool) (pid : ℕ) : Option Vars :=
  (v.children pid).bind fun child ↦
    child.exitStatus.bind fun exitStatus ↦
      if child.reaped then none
      else
        let reaped := v.setChild pid { child with reaped := true }
        match v.runningUuid pid with
        | none => some reaped
        | some uuid => some ((reaped.settle removes uuid exitStatus).eraseRunning uuid)

/-! ### The statements of the loop -/

/-- The next statement of `daemon_loop`. -/
inductive Pc
  | top
  | listenTest
  | statusTest (request : TaskInfo)
  | statusStatus (request : TaskInfo)
  | statusFileSize (request : TaskInfo)
  | cancelTest (request : TaskInfo)
  | cancelKill (request : TaskInfo)
  | answer (request : TaskInfo)
  | answerSearch (request : TaskInfo)
  | storeTask (request : TaskInfo)
  | pushPending (uuid : Text)
  | pipeTest
  | readReply
  | setFileSize (reply : TaskInfo)
  | setFinished (reply : TaskInfo)
  | eraseRunning (reply : TaskInfo)
  | closePipe
  | pendingTest
  | runningTest
  | takePending
  | canceledTest (uuid : Text)
  | setRunning (uuid : Text)
  | callPipe (uuid : Text)
  | callFork (uuid : Text)
  | setFailed (uuid : Text)
  | insertRunning (uuid : Text) (pid : ℕ)
  | watchPipe
  | exited
  | returned
  deriving DecidableEq

/-- The daemon: its variables, its next statement, the two bits of `read_set` and the answers that
clients have been sent. -/
structure Daemon where
  vars : Vars
  pc : Pc
  listenReady : Bool
  pipeReady : Bool
  answers : List TaskInfo

/-- The daemon as it enters the loop. -/
def Daemon.start : Daemon :=
  { vars :=
      { taskPool := fun _ ↦ none
        runningPool := []
        pendingQueue := []
        pipeFd := none
        pipeWatched := false
        children := fun _ ↦ none
        nextPipe := 1 }
    pc := .top
    listenReady := false
    pipeReady := false
    answers := [] }

/-- A request that could be read, with the uuid and the time that a search request is given. -/
structure Arrival where
  request : TaskInfo
  newUuid : Text
  ctime : Text

/-- The events: `select` with the state of the listening socket, interrupted or failing; a
connection with its request, if one can be read; the next statement where it needs no answer;
`pipe` and `fork`, each successful or not; the insertion into `running_pool` under the text that is
left of the uuid; the handler of `SIGCHLD` on a child; and the steps of a child, which opens its file,
writes part of its reply or all of it, ends on `SIGTERM`, or ends otherwise. -/
inductive Event
  | select (listenReady : Bool)
  | interrupted
  | selectFails
  | accept (arrival : Option Arrival)
  | next
  | pipe (success : Bool)
  | fork (success : Bool)
  | insert (key : Text)
  | sigchld (pid : ℕ) (removes : Text → Text → Bool)
  | childOpen (pid : ℕ)
  | childWrite (pid : ℕ)
  | childReply (pid : ℕ) (fileSize : BitVec 64)
  | childTerminated (pid : ℕ)
  | childExit (pid : ℕ) (exitStatus : ℕ)

/-- The reply that waits on `pipe_fd[0]`, or the end of file. -/
def Vars.pipeReadable (v : Vars) : Bool :=
  match v.pipeFd.bind v.children with
  | none => false
  | some child => v.pipeWatched && (child.reply != .nothing || child.exitStatus.isSome)

/-- `g_pcap_dir`. -/
def pcapDir : Text := "/tmp/pcap".toList

/-- A search request as the daemon completes it. -/
def searchRequest (arrival : Arrival) : TaskInfo :=
  { arrival.request with
    status := some .pending
    uuid := arrival.newUuid
    fileName :=
      if arrival.request.fileName = [] then
        snprintf bufSize (pcapDir ++ '/' :: (arrival.newUuid ++ ".pcap".toList))
      else arrival.request.fileName
    ctime := arrival.ctime }

/-- The branch of a request by its mode. -/
def dispatch (arrival : Arrival) : Pc :=
  if arrival.request.mode = "status".toList then .statusTest arrival.request
  else if arrival.request.mode = "cancel".toList then .cancelTest arrival.request
  else if arrival.request.mode = "search".toList then .answerSearch (searchRequest arrival)
  else .answer { arrival.request with status := some .invalid }

/-- The statements that depend on the variables alone. -/
def loopStep (d : Daemon) : Option Daemon :=
  match d.pc with
  | .statusTest request =>
    if (d.vars.taskPool request.uuid).isSome then some { d with pc := .statusStatus request }
    else some { d with pc := .answer { request with status := some .invalid } }
  | .statusStatus request =>
    some { d with
      pc := .statusFileSize { request with status := (d.vars.task request.uuid).status } }
  | .statusFileSize request =>
    some { d with
      pc := .answer { request with fileSize := (d.vars.task request.uuid).fileSize } }
  | .cancelTest request =>
    if d.vars.runningPool.any fun entry ↦ entry.1 = request.uuid then
      some { d with pc := .cancelKill request }
    else some { d with pc := .answer { request with status := some .invalid } }
  | .cancelKill request =>
    match d.vars.runningPool.find? fun entry ↦ entry.1 = request.uuid with
    | none => some { d with pc := .exited } -- `kill(0, SIGTERM)` reaches the daemon itself
    | some (_, pid) =>
      some { d with
        vars :=
          match d.vars.children pid with
          | none => d.vars
          | some child => d.vars.setChild pid { child with terminated := true }
        pc := .answer { request with status := some .canceled } }
  | .answer request => some { d with pc := .pipeTest, answers := d.answers ++ [request] }
  | .answerSearch request =>
    some { d with pc := .storeTask request, answers := d.answers ++ [request] }
  | .storeTask request =>
    if (d.vars.taskPool request.uuid).isSome then none -- a new uuid has no entry yet
    else some { d with vars := d.vars.setTask request.uuid request, pc := .pushPending request.uuid }
  | .pushPending uuid =>
    some { d with
      vars := { d.vars with pendingQueue := d.vars.pendingQueue ++ [uuid] }
      pc := .pipeTest }
  | .pipeTest =>
    if d.vars.pipeFd.isSome && d.pipeReady then some { d with pc := .readReply }
    else some { d with pc := .pendingTest }
  | .readReply =>
    (d.vars.pipeFd.bind d.vars.children).bind fun child ↦
      if child.reply = .whole then some { d with pc := .setFileSize child.request }
      else if child.exitStatus.isSome then some { d with pc := .closePipe }
      else none
  | .setFileSize reply =>
    some { d with
      vars := d.vars.setFileSize reply.uuid reply.fileSize
      pc := .setFinished reply }
  | .setFinished reply =>
    some { d with vars := d.vars.setStatus reply.uuid .finished, pc := .eraseRunning reply }
  | .eraseRunning reply =>
    some { d with vars := d.vars.eraseRunning reply.uuid, pc := .closePipe }
  | .closePipe =>
    some { d with vars := { d.vars with pipeFd := none, pipeWatched := false }, pc := .pendingTest }
  | .pendingTest =>
    if d.vars.pendingQueue = [] then some { d with pc := .top }
    else some { d with pc := .runningTest }
  | .runningTest =>
    if d.vars.runningPool = [] then some { d with pc := .takePending }
    else some { d with pc := .top }
  | .takePending =>
    match d.vars.pendingQueue with
    | [] => none
    | uuid :: pending =>
      some { d with
        vars := { d.vars.setTask uuid (d.vars.task uuid) with pendingQueue := pending }
        pc := .canceledTest uuid }
  | .canceledTest uuid =>
    if (d.vars.task uuid).status = some .canceled then some { d with pc := .top }
    else some { d with pc := .setRunning uuid }
  | .setRunning uuid =>
    some { d with vars := d.vars.setStatus uuid .running, pc := .callPipe uuid }
  | .setFailed uuid => some { d with vars := d.vars.setStatus uuid .failed, pc := .top }
  | .watchPipe => some { d with vars := { d.vars with pipeWatched := true }, pc := .top }
  | _ => none

/-- `pipe(pipe_fd)`, whatever `pipe_fd` held before. -/
def Vars.openPipe (v : Vars) : Vars :=
  { v with pipeFd := some v.nextPipe, pipeWatched := false, nextPipe := v.nextPipe + 1 }

/-- A child that has not ended takes a step. -/
def Vars.childStep (v : Vars) (pid : ℕ) (act : Child → Option Child) : Option Vars :=
  (v.children pid).bind fun child ↦
    if child.exitStatus.isSome then none else (act child).map fun child ↦ v.setChild pid child

/-- The child forked for a task: a copy of its request, and nothing done yet. -/
def newChild (request : TaskInfo) : Child :=
  { request := request
    opened := false
    reply := .nothing
    terminated := false
    exitStatus := none
    reaped := false
    fileUnlinked := false }

/-- The steps of a child by itself. -/
def childAct : Event → Option (ℕ × (Child → Option Child))
  | .childOpen pid => some (pid, fun child ↦ some { child with opened := true })
  | .childWrite pid =>
    some (pid, fun child ↦
      if child.opened ∧ child.reply = .nothing then some { child with reply := .front } else none)
  | .childReply pid fileSize =>
    some (pid, fun child ↦
      if child.opened ∧ child.reply ≠ .whole then
        some { child with
          reply := .whole
          request := { child.request with fileSize := fileSize } }
      else none)
  | .childTerminated pid =>
    some (pid, fun child ↦
      if child.terminated then some { child with exitStatus := some sigtermErr } else none)
  | .childExit pid exitStatus =>
    some (pid, fun child ↦ some { child with exitStatus := some exitStatus })
  | _ => none

/-- The daemon process is still there to run its handler. -/
def Daemon.alive (d : Daemon) : Bool := d.pc != .exited && d.pc != .returned

/-- One step of the daemon, of its handler or of a child. -/
def daemonStep (d : Daemon) (event : Event) : Option Daemon :=
  match event with
  | .select listenReady =>
    if d.pc = .top then
      some { d with
        pc := .listenTest
        listenReady := listenReady
        pipeReady := d.vars.pipeReadable }
    else none
  | .interrupted => if d.pc = .top then some d else none
  | .selectFails => if d.pc = .top then some { d with pc := .returned } else none
  | .accept arrival =>
    if d.pc = .listenTest ∧ d.listenReady then
      match arrival with
      | none => some { d with pc := .top }
      | some arrival => some { d with pc := dispatch arrival }
    else none
  | .next =>
    if d.pc = .listenTest then
      if d.listenReady then none else some { d with pc := .pipeTest }
    else loopStep d
  | .pipe success =>
    match d.pc with
    | .callPipe uuid =>
      if success then
        some { d with
          vars := d.vars.openPipe
          pc := .callFork uuid }
      else some { d with pc := .setFailed uuid }
    | _ => none
  | .fork success =>
    match d.pc, d.vars.pipeFd with
    | .callFork uuid, some pipe =>
      if success then
        some { d with
          vars := d.vars.setChild pipe (newChild (d.vars.task uuid))
          pc := .insertRunning uuid pipe }
      else some { d with pc := .setFailed uuid }
    | _, _ => none
  | .insert key =>
    match d.pc with
    | .insertRunning _ pid =>
      some { d with vars := d.vars.insertRunning key pid, pc := .watchPipe }
    | _ => none
  | .sigchld pid removes =>
    if d.alive then
      (d.vars.subprocessCleaness removes pid).map fun vars ↦ { d with vars := vars }
    else none
  | event =>
    (childAct event).bind fun (pid, act) ↦
      (d.vars.childStep pid act).map fun vars ↦ { d with vars := vars }

/-- The text that is left of the uuid is still the uuid. -/
def intact (d : Daemon) : Event → Bool
  | .insert key =>
    match d.pc with
    | .insertRunning uuid _ => key = uuid
    | _ => true
  | _ => true

/-- The event meets that condition. -/
def Intact (d : Daemon) (event : Event) : Prop := intact d event = true

instance (d : Daemon) (event : Event) : Decidable (Intact d event) :=
  inferInstanceAs (Decidable (intact d event = true))

/-! ### Sequences of events for one task -/

/-- A search request under a uuid of one letter. -/
def searchArrival (letter : Char) : Arrival :=
  { request := { taskInfo with mode := "search".toList }
    newUuid := [letter]
    ctime := [] }

/-- A request to cancel the task of a uuid of one letter. -/
def cancelArrival (letter : Char) : Arrival :=
  { request := { taskInfo with mode := "cancel".toList, uuid := [letter] }
    newUuid := []
    ctime := [] }

/-- A search request arrives and is queued. -/
def arrive (letter : Char) : List Event :=
  [.select true, .accept (some (searchArrival letter)), .next, .next, .next]

/-- The loop finds no reply and takes the next pending task. -/
def takeNext : List Event := [.next, .next, .next, .next, .next, .next, .pipe true]

/-- The loop takes the next pending task and forks its child, which it enters under a uuid of one
letter. -/
def spawn (letter : Char) : List Event := takeNext ++ [.fork true, .insert [letter], .next]

/-- The files have one name each. -/
def sameName (path other : Text) : Bool := path = other

/-- The handler waits for a child. -/
def reap (pid : ℕ) : Event := .sigchld pid sameName

end CppLearn.SearchEngine.SearchDaemon
