import CppLearn.SearchEngine.TaskChanges

/-!
# Replies and the pipe that holds them

The loop has one place for a pipe, `pipe_fd[0]`, and opens the pipe of the next child there as soon
as `running_pool` is empty. A child that has replied and ended leaves `running_pool` by the handler,
with its reply still in the pipe. `noneLost_of_run` says that no running task is lost as long as
`pipe` is not called while `pipe_fd[0]` holds a whole reply that nobody has read, and every child is
entered into `running_pool` under the uuid of its task. `not_noneLost` is a run of well-behaved
children in which a task is lost.
-/

set_option autoImplicit false
set_option relaxedAutoImplicit false

namespace CppLearn.SearchEngine.ReplyPipe

open Foundation.DecimalText Foundation.GuardedRun LoopMoves SearchDaemon TaskChanges TaskLedger
open TaskRequest

/-! ### The statement -/

/-- What is expected of a child: it writes its whole reply and ends with status zero, or it ends
with one of the two error codes and without a reply. -/
def childContract (d : Daemon) : Event → Bool
  | .childTerminated pid => (d.vars.children pid).all fun child ↦ child.reply ≠ .whole
  | .childExit pid exitStatus =>
    (d.vars.children pid).all fun child ↦
      if child.reply = .whole then exitStatus = 0
      else exitStatus = sigtermErr ∨ exitStatus = sigsegvErr
  | _ => true

/-- `pipe_fd[0]` holds a whole reply. -/
def replyHeld (v : Vars) : Bool := (v.pipeFd.bind v.children).any fun child ↦ child.reply = .whole

/-- The children keep their contract. -/
def WellBehaved (d : Daemon) (event : Event) : Prop := childContract d event = true

/-- The event opens a pipe. -/
def opensPipe : Event → Bool
  | .pipe success => success
  | _ => false

/-- The children keep their contract, no pipe is opened over a whole reply, and the text that the loop
reads after `pop` is the uuid. -/
def RepliesKept (d : Daemon) (event : Event) : Prop :=
  WellBehaved d event ∧ (opensPipe event = true → replyHeld d.vars = false) ∧ Intact d event

instance (d : Daemon) (event : Event) : Decidable (WellBehaved d event) :=
  inferInstanceAs (Decidable (_ = true))

instance (d : Daemon) (event : Event) : Decidable (RepliesKept d event) :=
  inferInstanceAs (Decidable (_ ∧ (_ = true → _ = false) ∧ _))

/-- At the top of the loop a running task is in `running_pool` or has its child's pipe at
`pipe_fd[0]`. -/
def NoneLost (d : Daemon) : Prop :=
  d.pc = .top → ∀ uuid, HasStatus d.vars uuid .running →
    (∃ pid, (uuid, pid) ∈ d.vars.runningPool) ∨
      ∃ pid child, d.vars.pipeFd = some pid ∧ d.vars.children pid = some child ∧
        child.request.uuid = uuid

/-! ### The invariant -/

/-- The phase is about a task that runs and is not yet in `running_pool`. -/
def Starts : Phase → Text → Prop
  | .starting uuid, other => uuid = other
  | .forking uuid, other => uuid = other
  | .inserting uuid _, other => uuid = other
  | _, _ => False

/-- The child has ended without a whole reply. -/
def Silent (child : Child) : Prop := child.exitStatus ≠ none ∧ child.reply ≠ .whole

/-- Nothing is to be expected from the pipe of the child. -/
def Answerless (v : Vars) (child : Child) : Prop :=
  Silent child ∨ ¬ HasStatus v child.request.uuid .running

/-- A child that has ended has kept its contract. -/
def Contracted (child : Child) : Prop :=
  ∀ exitStatus, child.exitStatus = some exitStatus →
    (child.reply = .whole ∧ exitStatus = 0) ∨
      (child.reply ≠ .whole ∧ (exitStatus = sigtermErr ∨ exitStatus = sigsegvErr))

/-- Before the pipe is closed there is nothing more in it that is needed. -/
def ClosingFacts (v : Vars) : Phase → Prop
  | .erasing reply => ¬ HasStatus v reply.uuid .running
  | .closing => ∀ pid child, v.pipeFd = some pid → v.children pid = some child → Answerless v child
  | _ => True

/-- Where a running task is: in `running_pool`, at the pipe with its whole reply, or being started.
An entry of `running_pool` whose pipe has been closed has nothing more to say. -/
structure Kept (v : Vars) (p : Phase) : Prop where
  located : ∀ uuid, HasStatus v uuid .running →
    (∃ pid, (uuid, pid) ∈ v.runningPool) ∨ Replied v uuid ∨ Starts p uuid
  unanswered : ∀ uuid pid, (uuid, pid) ∈ v.runningPool → v.pipeFd = none →
    ∀ child, v.children pid = some child → Answerless v child
  contracted : ∀ pid child, v.children pid = some child → Contracted child
  beforeClose : ClosingFacts v p

/-- Assumes: children that go on, with those that were silent silent. -/
theorem Kept.continue {v : Vars} {p : Phase} (kept : Kept v p) {children : ℕ → Option Child}
    (hcontinue : ChildrenContinue v.children children)
    (hsilent : ∀ pid child next, v.children pid = some child → children pid = some next →
      Silent child → Silent next)
    (hcontracted : ∀ pid next, children pid = some next → Contracted next) :
    Kept { v with children := children } p := by
  have hanswerless : ∀ pid child next, v.children pid = some child → children pid = some next →
      next.request.uuid = child.request.uuid → Answerless v child →
      Answerless { v with children := children } next := by
    intro pid child next hchild hnext huuid hanswer
    rcases hanswer with hquiet | hover
    · exact .inl (hsilent pid child next hchild hnext hquiet)
    · exact .inr (huuid ▸ hover)
  refine ⟨?_, ?_, hcontracted, ?_⟩
  · intro uuid hrunning
    rcases kept.located uuid hrunning with hpool | hreplied | hstarts
    · exact .inl hpool
    · exact .inr (.inl (hreplied.continue hcontinue))
    · exact .inr (.inr hstarts)
  · intro uuid pid hmem hfd next hnext
    obtain ⟨child, hchild, huuid, -⟩ := hcontinue.back pid next hnext
    exact hanswerless pid child next hchild hnext huuid
      (kept.unanswered uuid pid hmem hfd child hchild)
  · have hphase := kept.beforeClose
    cases p with
    | erasing reply => exact hphase
    | closing =>
      intro pid next hfd hnext
      obtain ⟨child, hchild, huuid, -⟩ := hcontinue.back pid next hnext
      exact hanswerless pid child next hchild hnext huuid (hphase pid child hfd hchild)
    | _ => trivial

/-- One child replaced by what it goes on as. -/
theorem Kept.setChild {v : Vars} {p : Phase} (kept : Kept v p) {pid : ℕ} {child next : Child}
    (hchild : v.children pid = some child) (hcontinue : Continues child next)
    (hsilent : Silent child → Silent next) (hcontracted : Contracted next) :
    Kept (v.setChild pid next) p := by
  have hfound : ∀ other found, (v.setChild pid next).children other = some found →
      (other = pid ∧ found = next) ∨ (other ≠ pid ∧ v.children other = some found) := by
    intro other found hfound
    by_cases hother : other = pid
    · simp only [Vars.setChild, hother, Function.update_self, Option.some.injEq] at hfound
      exact .inl ⟨hother, hfound.symm⟩
    · simp only [Vars.setChild, Function.update_of_ne hother] at hfound
      exact .inr ⟨hother, hfound⟩
  refine kept.continue (childrenContinue_setChild hchild hcontinue) ?_ ?_
  · intro other before after hbefore hafter hquiet
    rcases hfound other after hafter with ⟨rfl, rfl⟩ | ⟨-, hold⟩
    · rw [hchild, Option.some.injEq] at hbefore
      exact hsilent (hbefore ▸ hquiet)
    · rw [hbefore, Option.some.injEq] at hold
      exact hold ▸ hquiet
  · intro other found hafter
    rcases hfound other found hafter with ⟨-, rfl⟩ | ⟨-, hold⟩
    · exact hcontracted
    · exact kept.contracted other found hold

/-- A file that is removed does not matter to the replies. -/
theorem Kept.unlink {v : Vars} {p : Phase} (kept : Kept v p) (removes : Text → Text → Bool)
    (path : Text) : Kept (v.unlink removes path) p := by
  refine kept.continue (childrenContinue_unlink v removes path) ?_ ?_
  · intro pid child next hchild hnext hquiet
    obtain ⟨hexit, hreply, -⟩ := unlink_frame removes child path
    rw [hchild, Option.map_some, Option.some.injEq] at hnext
    rw [Silent, ← hnext, hexit, hreply]
    exact hquiet
  · intro pid next hnext
    obtain ⟨child, hchild, rfl⟩ := Option.map_eq_some_iff.mp hnext
    obtain ⟨hexit, hreply, -⟩ := unlink_frame removes child path
    rw [Contracted, hexit, hreply]
    exact kept.contracted pid child hchild

/-- Assumes: a task whose new entry is not running. Only its own place is given up. -/
theorem Kept.setTask {v : Vars} {p p' : Phase} (kept : Kept v p) {uuid : Text} {task : TaskInfo}
    (hstatus : task.status ≠ some .running)
    (hstarts : ∀ other, other ≠ uuid → Starts p other → Starts p' other)
    (hphase : ClosingFacts (v.setTask uuid task) p') : Kept (v.setTask uuid task) p' := by
  have hfewer : ∀ other, HasStatus (v.setTask uuid task) other .running →
      other ≠ uuid ∧ HasStatus v other .running := by
    intro other hrunning
    rw [hasStatus_setTask] at hrunning
    split_ifs at hrunning with hother
    · exact absurd hrunning hstatus
    · exact ⟨hother, hrunning⟩
  refine ⟨?_, ?_, kept.contracted, hphase⟩
  · intro other hrunning
    obtain ⟨hother, hold⟩ := hfewer other hrunning
    rcases kept.located other hold with hpool | hreplied | hstart
    · exact .inl hpool
    · exact .inr (.inl hreplied)
    · exact .inr (.inr (hstarts other hother hstart))
  · intro other pid hmem hfd child hchild
    rcases kept.unanswered other pid hmem hfd child hchild with hquiet | hover
    · exact .inl hquiet
    · exact .inr fun hrunning ↦ hover (hfewer _ hrunning).2

/-- The facts before closing hold as well where a task stops running. -/
theorem ClosingFacts.setTask {v : Vars} {p : Phase} (hphase : ClosingFacts v p) {uuid : Text}
    {task : TaskInfo} (hstatus : task.status ≠ some .running) :
    ClosingFacts (v.setTask uuid task) p := by
  have hfewer : ∀ other, HasStatus (v.setTask uuid task) other .running →
      HasStatus v other .running := by
    intro other hrunning
    rw [hasStatus_setTask] at hrunning
    split_ifs at hrunning
    · exact absurd hrunning hstatus
    · exact hrunning
  cases p with
  | erasing reply => exact fun hrunning ↦ hphase (hfewer _ hrunning)
  | closing =>
    intro pid child hfd hchild
    rcases hphase pid child hfd hchild with hquiet | hover
    · exact .inl hquiet
    · exact .inr fun hrunning ↦ hover (hfewer _ hrunning)
  | _ => trivial

/-- Assumes: a task that is not running, or whose whole reply is at the pipe. Its entry of
`running_pool` can be erased. -/
theorem Kept.eraseRunning {v : Vars} {p p' : Phase} (kept : Kept v p) {uuid : Text}
    (hplace : HasStatus v uuid .running → Replied v uuid)
    (hstarts : ∀ other, Starts p other → Starts p' other) (hphase : ClosingFacts v p') :
    Kept (v.eraseRunning uuid) p' := by
  refine ⟨?_, ?_, kept.contracted, ?_⟩
  · intro other hrunning
    by_cases hother : other = uuid
    · exact .inr (.inl (hother ▸ hplace (hother ▸ hrunning)))
    · rcases kept.located other hrunning with ⟨pid, hmem⟩ | hreplied | hstart
      · exact .inl ⟨pid, mem_eraseRunning.mpr ⟨hmem, hother⟩⟩
      · exact .inr (.inl hreplied)
      · exact .inr (.inr (hstarts other hstart))
  · intro other pid hmem
    exact kept.unanswered other pid (mem_eraseRunning.mp hmem).1
  · cases p' <;> exact hphase

/-! ### What the handler and the loop preserve -/

/-- Where the exit status settles no task the child has replied. -/
theorem Contracted.of_not_settled {child : Child} (hcontract : Contracted child) {exitStatus : ℕ}
    (hexit : child.exitStatus = some exitStatus) (hsettled : settledStatus exitStatus = none) :
    child.reply = .whole := by
  rcases hcontract exitStatus hexit with ⟨hwhole, -⟩ | ⟨-, rfl | rfl⟩
  · exact hwhole
  · cases hsettled
  · cases hsettled

/-- Assumes: entries under the uuids of their children. The handler settles a task or leaves its reply
in the pipe. -/
theorem Kept.subprocessCleaness {v v' : Vars} {p : Phase} (kept : Kept v p) (ledger : Ledger v)
    (matched : Matched v) {removes : Text → Text → Bool} {pid : ℕ}
    (hreap : v.subprocessCleaness removes pid = some v') : Kept v' p := by
  obtain ⟨child, exitStatus, hchild, hexit, hcases⟩ := subprocessCleaness_cases hreap
  have hcontract := kept.contracted pid child hchild
  have hreaped : Kept (v.setChild pid { child with reaped := true }) p :=
    kept.setChild hchild ⟨rfl, rfl, id⟩ id hcontract
  rcases hcases with ⟨-, rfl⟩ | ⟨key, hmem, rfl⟩
  · exact hreaped
  · rw [settle_eq]
    rcases hsettled : settledStatus exitStatus with _ | status
    · refine hreaped.eraseRunning (fun hrunning ↦ ?_) (fun _ ↦ id) hreaped.beforeClose
      have hwhole := hcontract.of_not_settled hexit hsettled
      have huuid := matched key pid child hmem hchild
      rcases (ledger.running key pid hmem).2 with hfd | hfd
      · exact ⟨pid, { child with reaped := true }, hfd, Function.update_self .., huuid, hwhole⟩
      · rcases kept.unanswered key pid hmem hfd child hchild with hquiet | hover
        · exact absurd hwhole hquiet.2
        · exact absurd (huuid ▸ hrunning) hover
    · have hstatus : some status ≠ some .running :=
        fun heq ↦ (settledStatus_ne hsettled).2.1 (Option.some.inj heq)
      have hunlinked := hreaped.unlink removes
        ((v.setChild pid { child with reaped := true }).task key).fileName
      have hset : Kept (((v.setChild pid { child with reaped := true }).unlink removes
          ((v.setChild pid { child with reaped := true }).task key).fileName).setStatus key
            status) p := by
        refine hunlinked.setTask ?_ (fun _ _ ↦ id) (hunlinked.beforeClose.setTask ?_)
        · exact hstatus
        · exact hstatus
      refine hset.eraseRunning (fun hrunning ↦ ?_) (fun _ ↦ id) hset.beforeClose
      rw [hasStatus_setStatus, if_pos rfl] at hrunning
      exact absurd (congrArg some hrunning.symm) hstatus

/-- A child that moves keeps its contract, where the guard asks it to. -/
theorem contracted_childAct {d : Daemon} {event : Event} (hallowed : WellBehaved d event)
    {pid : ℕ} {act : Child → Option Child} {child next : Child}
    (hevent : childAct event = some (pid, act)) (hchild : d.vars.children pid = some child)
    (hlive : child.exitStatus = none) (hact : act child = some next) : Contracted next := by
  intro exitStatus hexit
  cases childMove_of_childAct hevent hact with
  | terminated hterminated =>
    simp only [WellBehaved, childContract, hchild, Option.all_some, decide_eq_true_eq] at hallowed
    exact .inr ⟨hallowed, .inl (Option.some.inj hexit).symm⟩
  | exit exitStatus =>
    simp only [WellBehaved, childContract, hchild, Option.all_some] at hallowed
    obtain rfl := Option.some.inj hexit
    by_cases hwhole : child.reply = .whole
    · rw [if_pos hwhole] at hallowed
      exact .inl ⟨hwhole, of_decide_eq_true hallowed⟩
    · rw [if_neg hwhole] at hallowed
      exact .inr ⟨hwhole, of_decide_eq_true hallowed⟩
  | _ => cases hlive.symm.trans hexit

theorem not_replied_of_not_replyHeld {v : Vars} (hheld : replyHeld v = false) (uuid : Text) :
    ¬ Replied v uuid := by
  rintro ⟨pid, child, hfd, hchild, -, hwhole⟩
  simp only [replyHeld, hfd, Option.bind_some, hchild, Option.any_some, hwhole, decide_true,
    Bool.true_eq_false] at hheld

/-- The pipe is closed when there is nothing more in it that is needed. -/
theorem Kept.close {v : Vars} (kept : Kept v .closing) (ledger : Ledger v) :
    Kept { v with pipeFd := none, pipeWatched := false } .idle := by
  refine ⟨?_, ?_, kept.contracted, trivial⟩
  · intro uuid hrunning
    rcases kept.located uuid hrunning with hpool | hreplied | hstarts
    · exact .inl hpool
    · obtain ⟨pid, child, hfd, hchild, rfl, hwhole⟩ := hreplied
      rcases kept.beforeClose pid child hfd hchild with hquiet | hover
      · exact absurd hwhole hquiet.2
      · exact absurd hrunning hover
    · exact .inr (.inr hstarts)
  · intro uuid pid hmem _ child hchild
    rcases (ledger.running uuid pid hmem).2 with hfd | hfd
    · exact kept.beforeClose pid child hfd hchild
    · exact kept.unanswered uuid pid hmem hfd child hchild

/-- A task is started while no other one runs. -/
theorem Kept.run {v : Vars} {uuid : Text} (kept : Kept v (.spawning uuid))
    (hpool : v.runningPool = []) : Kept (v.setStatus uuid .running) (.starting uuid) := by
  refine ⟨?_, ?_, kept.contracted, trivial⟩
  · intro other hrunning
    rw [hasStatus_setStatus] at hrunning
    split_ifs at hrunning with hother
    · exact .inr (.inr hother.symm)
    · rcases kept.located other hrunning with hpool | hreplied | hstarts
      · exact .inl hpool
      · exact .inr (.inl hreplied)
      · exact hstarts.elim
  · intro other pid hmem
    have hnil : (other, pid) ∈ v.runningPool := hmem
    rw [hpool] at hnil
    cases hnil

/-- A child is forked for the new pipe. -/
theorem Kept.fork {v : Vars} {uuid : Text} {pid : ℕ} (kept : Kept v (.forking uuid))
    (hfd : v.pipeFd = some pid) (hnew : v.children pid = none) :
    Kept (v.setChild pid (newChild (v.task uuid))) (.inserting uuid pid) := by
  refine ⟨?_, ?_, ?_, trivial⟩
  · intro other hrunning
    rcases kept.located other hrunning with hpool | hreplied | hstarts
    · exact .inl hpool
    · obtain ⟨pid', child, hfd', hchild, -⟩ := hreplied
      rw [← Option.some.inj (hfd.symm.trans hfd'), hnew] at hchild
      cases hchild
    · exact .inr (.inr hstarts)
  · intro other pid' _ hnone
    exact absurd (hfd.symm.trans hnone) (Option.some_ne_none pid)
  · intro other child hchild exitStatus hexit
    by_cases hother : other = pid
    · simp only [Vars.setChild, hother, Function.update_self, Option.some.injEq] at hchild
      rw [← hchild] at hexit
      cases hexit
    · simp only [Vars.setChild, Function.update_of_ne hother] at hchild
      exact kept.contracted other child hchild exitStatus hexit

/-- The child is entered under the uuid of its task. -/
theorem Kept.insert {v : Vars} {uuid : Text} {pid : ℕ} (kept : Kept v (.inserting uuid pid))
    (hpool : v.runningPool = []) (hfd : v.pipeFd = some pid) :
    Kept (v.insertRunning uuid pid) .idle := by
  rw [insertRunning_of_nil hpool]
  refine ⟨?_, ?_, kept.contracted, trivial⟩
  · intro other hother
    rcases kept.located other hother with ⟨pid', hmem⟩ | hreplied | hstarts
    · rw [hpool] at hmem
      cases hmem
    · exact .inr (.inl hreplied)
    · have huuid : uuid = other := hstarts
      exact .inl ⟨pid, List.mem_singleton.mpr (by rw [huuid])⟩
  · intro other pid' _ hnone
    exact absurd (hfd.symm.trans hnone) (Option.some_ne_none pid)

/-- Assumes: an event that the guard permits. Every effect keeps the running tasks in place. -/
theorem Kept.effect {d : Daemon} {v' : Vars} {p' : Phase} {event : Event}
    (kept : Kept d.vars (phase d.pc)) (hsound : Tracked d) (matched : Matched d.vars)
    (hallowed : RepliesKept d event) (heffect : Effect d.vars (phase d.pc) event v' p') :
    Kept v' p' := by
  have hentered : ∀ key uuid pid, event = .insert key → phase d.pc = .inserting uuid pid →
      key = uuid := by
    rintro key uuid pid rfl hphase
    have hintact := hallowed.2.2
    rw [Intact, intact, pc_of_inserting hphase] at hintact
    exact of_decide_eq_true hintact
  obtain ⟨ledger, hfacts⟩ := hsound
  generalize hp : phase d.pc = p at kept hfacts heffect hentered
  cases heffect with
  | quiet => exact kept
  | receive event request hstatus =>
    exact ⟨kept.located, kept.unanswered, kept.contracted, trivial⟩
  | store request hnew =>
    have hpending : request.status = some .pending := hfacts
    refine kept.setTask ?_ (fun _ _ ↦ id) trivial
    rw [hpending]
    exact fun heq ↦ Status.noConfusion (Option.some.inj heq)
  | push uuid => exact ⟨kept.located, kept.unanswered, kept.contracted, trivial⟩
  | read pid child hfd hchild hwhole =>
    exact ⟨kept.located, kept.unanswered, kept.contracted, trivial⟩
  | endOfFile pid child hfd hchild hreply hexit =>
    refine ⟨kept.located, kept.unanswered, kept.contracted, fun pid' child' hfd' hchild' ↦ ?_⟩
    obtain rfl : pid = pid' := Option.some.inj (hfd.symm.trans hfd')
    obtain rfl : child = child' := Option.some.inj (hchild.symm.trans hchild')
    exact .inl ⟨hexit, hreply⟩
  | fileSize reply =>
    have hsame := hasStatus_setFileSize d.vars reply.uuid reply.fileSize
    refine ⟨fun uuid hrunning ↦ kept.located uuid ((hsame uuid _).mp hrunning), ?_,
      kept.contracted, trivial⟩
    intro uuid pid hmem hfd child hchild
    rcases kept.unanswered uuid pid hmem hfd child hchild with hquiet | hover
    · exact .inl hquiet
    · exact .inr fun hrunning ↦ hover ((hsame _ _).mp hrunning)
  | finish reply =>
    refine kept.setTask (fun heq ↦ Status.noConfusion (Option.some.inj heq)) (fun _ _ ↦ id) ?_
    intro hrunning
    rw [hasStatus_setTask, if_pos rfl] at hrunning
    exact Status.noConfusion (Option.some.inj hrunning)
  | erase reply =>
    refine kept.eraseRunning (fun hrunning ↦ absurd hrunning kept.beforeClose) (fun _ ↦ id) ?_
    obtain ⟨pid, child, hfd, hchild, huuid, -⟩ := hfacts
    intro pid' child' hfd' hchild'
    obtain rfl : pid = pid' := Option.some.inj (hfd.symm.trans hfd')
    obtain rfl : child = child' := Option.some.inj (hchild.symm.trans hchild')
    exact .inr (huuid ▸ kept.beforeClose)
  | close => exact kept.close ledger
  | choose hrunning => exact ⟨kept.located, kept.unanswered, kept.contracted, trivial⟩
  | take uuid pending hqueue =>
    rw [(ledger.take hqueue).1]
    exact ⟨kept.located, kept.unanswered, kept.contracted, trivial⟩
  | skip uuid hstatus => exact ⟨kept.located, kept.unanswered, kept.contracted, trivial⟩
  | run uuid => exact kept.run hfacts.1
  | fail uuid =>
    refine kept.setTask (fun heq ↦ Status.noConfusion (Option.some.inj heq)) ?_ trivial
    intro other hother hstarts
    exact absurd (Eq.symm hstarts) hother
  | pipe uuid =>
    refine ⟨?_, ?_, kept.contracted, trivial⟩
    · intro other hrunning
      rcases kept.located other hrunning with hpool | hreplied | hstarts
      · exact .inl hpool
      · exact absurd hreplied (not_replied_of_not_replyHeld (hallowed.2.1 rfl) other)
      · exact .inr (.inr hstarts)
    · intro other pid _ hfd
      cases hfd
  | forkFailed uuid => exact ⟨kept.located, kept.unanswered, kept.contracted, trivial⟩
  | fork uuid pid hfd => exact kept.fork hfd (hfacts.2.2.2 pid hfd)
  | insert key uuid pid =>
    obtain rfl := hentered key uuid pid rfl rfl
    exact kept.insert hfacts.1 hfacts.2.2.1
  | watch => exact ⟨kept.located, kept.unanswered, kept.contracted, trivial⟩
  | kill pid child hchild =>
    exact kept.setChild hchild ⟨rfl, rfl, id⟩ id (kept.contracted pid child hchild)
  | child p event pid act child next hevent hchild hlive hact =>
    exact kept.setChild hchild (continues_childAct hevent hact)
      (fun hquiet ↦ absurd hlive hquiet.1)
      (contracted_childAct hallowed.1 hevent hchild hlive hact)
  | sigchld p pid removes v' hreap => exact kept.subprocessCleaness ledger matched hreap

/-- The running tasks of the daemon are in place. -/
def Placed (d : Daemon) : Prop := Kept d.vars (phase d.pc)

theorem placed_start : Placed .start := by
  refine ⟨?_, ?_, ?_, trivial⟩
  · rintro uuid ⟨task, htask, -⟩
    cases htask
  · intro uuid pid hmem
    cases hmem
  · intro pid child hchild
    cases hchild

/-- The running tasks stay in place in every run that the guard permits. -/
theorem placed_of_run {d : Daemon} (hrun : Run daemonStep RepliesKept .start d) : Placed d := by
  induction hrun with
  | refl => exact placed_start
  | tail event run permitted taken ih =>
    have hmatched := matched_of_run (fun _ _ hallowed ↦ hallowed.2.2) run
    exact Kept.effect ih (tracked_of_run run) hmatched permitted (daemonStep_effect taken)

/-- Assumes: a run in which the children keep their contract, `pipe` is never called while
`pipe_fd[0]` holds a whole reply, and every child is entered under the uuid of its task. At the top
of the loop no running task is lost. -/
theorem noneLost_of_run {d : Daemon} (hrun : Run daemonStep RepliesKept .start d) : NoneLost d := by
  intro hpc uuid hrunning
  have kept : Kept d.vars (phase d.pc) := placed_of_run hrun
  rcases kept.located uuid hrunning with hpool | hreplied | hstarts
  · exact .inl hpool
  · obtain ⟨pid, child, hfd, hchild, huuid, -⟩ := hreplied
    exact .inr ⟨pid, child, hfd, hchild, huuid⟩
  · rw [hpc] at hstarts
    exact hstarts.elim

/-- One task has been queued and started. -/
theorem noneLost_of_run_spawn : ∃ d, Run daemonStep RepliesKept .start d ∧
    HasStatus d.vars ['a'] .running ∧ NoneLost d := by
  have hrun : (execute daemonStep RepliesKept .start (arrive 'a' ++ spawn 'a')).any (fun d ↦
      (d.vars.taskPool ['a']).any fun task ↦ task.status = some .running) = true := by decide
  obtain ⟨d, hexecute, hstatus⟩ := Option.any_eq_true _ _ |>.mp hrun
  obtain ⟨task, htask, hrunning⟩ := Option.any_eq_true _ _ |>.mp hstatus
  exact ⟨d, run_of_execute hexecute, ⟨task, htask, of_decide_eq_true hrunning⟩,
    noneLost_of_run (run_of_execute hexecute)⟩

/-- The first child replies and ends after `select` has returned for the second request. It is
waited for before the loop looks at the queue, and the second spawn takes the pipe. The texts of both
uuids are still there. -/
theorem not_noneLost : ¬ ∀ d, Run daemonStep WellBehaved .start d → NoneLost d := by
  intro hall
  have hrun : (execute daemonStep WellBehaved .start (arrive 'a' ++ spawn 'a' ++ arrive 'b' ++
      [.childOpen 1, .childReply 1 24, .childExit 1 0, reap 1] ++ spawn 'b')).any (fun d ↦
        d.pc = .top && ((d.vars.taskPool ['a']).any fun task ↦ task.status = some .running) &&
          d.vars.runningPool = [(['b'], 2)] && d.vars.pipeFd = some 2 &&
            (d.vars.children 2).all fun child ↦ child.request.uuid = ['b']) = true := by decide
  obtain ⟨d, hexecute, hcheck⟩ := Option.any_eq_true _ _ |>.mp hrun
  simp only [Bool.and_eq_true, decide_eq_true_eq] at hcheck
  obtain ⟨⟨⟨⟨hpc, hstatus⟩, hpool⟩, hfd⟩, hchild⟩ := hcheck
  obtain ⟨task, htask, hrunning⟩ := Option.any_eq_true _ _ |>.mp hstatus
  rcases hall d (run_of_execute hexecute) hpc ['a'] ⟨task, htask, of_decide_eq_true hrunning⟩ with
    ⟨pid, hmem⟩ | ⟨pid, child, hfd', hchild', huuid⟩
  · rw [hpool] at hmem
    have hletters : (['a'] : Text) = ['b'] := congrArg Prod.fst (List.mem_singleton.mp hmem)
    exact absurd hletters (by decide)
  · rw [← Option.some.inj (hfd.symm.trans hfd')] at hchild'
    rw [hchild', Option.all_some, decide_eq_true_eq, huuid] at hchild
    exact absurd hchild (by decide)

end CppLearn.SearchEngine.ReplyPipe
