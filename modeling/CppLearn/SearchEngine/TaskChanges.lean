import CppLearn.SearchEngine.TaskLedger

/-!
# What one step changes

`Effect` lists what a step of the daemon does to its variables. The invariants of the scheduler ask
for less: what becomes of one child (`Evolves`), of the status of one task (`StatusChange`) and of the
running pool (`runningPool_of_effect`). Only the handler reaps a child, a child that has ended keeps
what it wrote, a status is replaced in four places, and the running pool gets an entry in one.
-/

set_option autoImplicit false
set_option relaxedAutoImplicit false

namespace CppLearn.SearchEngine.TaskChanges

open Foundation.DecimalText Foundation.GuardedRun LoopMoves SearchDaemon TaskLedger TaskRequest

/-! ### One child -/

/-- How a step leaves the child with a process id. -/
structure Evolves (event : Event) (pid : ℕ) (child next : Child) : Prop where
  continues : Continues child next
  ended : child.exitStatus ≠ none →
    next.exitStatus = child.exitStatus ∧ next.reply = child.reply
  reaped : child.reaped = true → next.reaped = true
  unreaped : child.reaped = false → next.reaped = true →
    (∃ removes, event = .sigchld pid removes) ∧ child.exitStatus ≠ none

theorem Evolves.refl (event : Event) (pid : ℕ) (child : Child) : Evolves event pid child child where
  continues := .refl child
  ended := fun _ ↦ ⟨rfl, rfl⟩
  reaped := id
  unreaped := fun hbefore hafter ↦ Bool.noConfusion (hbefore.symm.trans hafter)

/-- A file that is removed is all that `unlink` changes of a child. -/
theorem unlink_frame (removes : Text → Text → Bool) (child : Child) (path : Text) :
    (child.unlink removes path).exitStatus = child.exitStatus ∧
      (child.unlink removes path).reply = child.reply ∧
        (child.unlink removes path).reaped = child.reaped := by
  unfold Child.unlink
  split_ifs
  · exact ⟨rfl, rfl, rfl⟩
  · exact ⟨rfl, rfl, rfl⟩

theorem Evolves.unlink {event : Event} {pid : ℕ} {child next : Child}
    (hevolves : Evolves event pid child next) (removes : Text → Text → Bool) (path : Text) :
    Evolves event pid child (next.unlink removes path) := by
  obtain ⟨hexit, hreply, hreaped⟩ := unlink_frame removes next path
  refine ⟨hevolves.continues.trans (continues_unlink removes next path), ?_, ?_, ?_⟩
  · rw [hexit, hreply]
    exact hevolves.ended
  · rw [hreaped]
    exact hevolves.reaped
  · rw [hreaped]
    exact hevolves.unreaped

/-- A child that moves by itself has not ended, and does not reap itself. -/
theorem evolves_childAct {event : Event} {pid : ℕ} {act : Child → Option Child}
    {child next : Child} (hevent : childAct event = some (pid, act))
    (hlive : child.exitStatus = none) (hact : act child = some next) :
    Evolves event pid child next := by
  have hreaped : next.reaped = child.reaped := by
    cases childMove_of_childAct hevent hact with
    | _ => rfl
  refine ⟨continues_childAct hevent hact, fun hended ↦ absurd hlive hended, ?_, ?_⟩
  · rw [hreaped]
    exact id
  · rw [hreaped]
    exact fun hbefore hafter ↦ Bool.noConfusion (hbefore.symm.trans hafter)

theorem evolves_setChild {v : Vars} {event : Event} {pid : ℕ} {child replaced : Child}
    (hchild : v.children pid = some child) (hevolves : Evolves event pid child replaced)
    {other : ℕ} {next : Child} (hnext : (v.setChild pid replaced).children other = some next) :
    ∃ before, v.children other = some before ∧ Evolves event other before next := by
  by_cases hother : other = pid
  · simp only [Vars.setChild, hother, Function.update_self, Option.some.injEq] at hnext
    rw [hother, ← hnext]
    exact ⟨child, hchild, hevolves⟩
  · simp only [Vars.setChild, Function.update_of_ne hother] at hnext
    exact ⟨next, hnext, .refl event other next⟩

theorem exists_setChild {v : Vars} {pid : ℕ} {child : Child} (other : ℕ) (replaced : Child)
    (hchild : v.children pid = some child) :
    ∃ next, (v.setChild other replaced).children pid = some next := by
  by_cases hother : pid = other
  · exact ⟨replaced, by rw [hother]; exact Function.update_self ..⟩
  · exact ⟨child, (Function.update_of_ne hother ..).trans hchild⟩

/-- What the handler has done: it has reaped a child that had ended, and settled the task of the
entry that `running_pool` had for it, if any. -/
theorem subprocessCleaness_reaps {v v' : Vars} {removes : Text → Text → Bool} {pid : ℕ}
    (hreap : v.subprocessCleaness removes pid = some v') :
    ∃ child exitStatus, v.children pid = some child ∧ child.exitStatus = some exitStatus ∧
      child.reaped = false ∧
      (∀ other next, v'.children other = some next → ∃ before, v.children other = some before ∧
        Evolves (.sigchld pid removes) other before next) ∧
      (∃ next, v'.children pid = some next ∧ next.reaped = true) ∧
      ∀ uuid status, HasStatus v uuid status → HasStatus v' uuid status ∨
        (uuid, pid) ∈ v.runningPool ∧ ∃ status', settledStatus exitStatus = some status' ∧
          HasStatus v' uuid status' := by
  have hfresh : ∀ child, v.children pid = some child → child.reaped = false := by
    intro child hchild
    simp only [Vars.subprocessCleaness, hchild, Option.bind_some] at hreap
    obtain ⟨exitStatus, -, hreap⟩ := Option.bind_eq_some_iff.mp hreap
    split_ifs at hreap with hreaped
    exact Bool.eq_false_iff.mpr hreaped
  obtain ⟨child, exitStatus, hchild, hexit, hcases⟩ := subprocessCleaness_cases hreap
  have hevolves : Evolves (.sigchld pid removes) pid child { child with reaped := true } :=
    ⟨⟨rfl, rfl, id⟩, fun _ ↦ ⟨rfl, rfl⟩, fun _ ↦ rfl,
      fun _ _ ↦ ⟨⟨removes, rfl⟩, hexit ▸ Option.some_ne_none exitStatus⟩⟩
  have hself : (v.setChild pid { child with reaped := true }).children pid =
      some { child with reaped := true } := Function.update_self ..
  refine ⟨child, exitStatus, hchild, hexit, hfresh child hchild, ?_, ?_, ?_⟩
  · intro other next hnext
    rcases hcases with ⟨-, rfl⟩ | ⟨key, -, rfl⟩
    · exact evolves_setChild hchild hevolves hnext
    · rw [settle_eq] at hnext
      split at hnext
      · exact evolves_setChild hchild hevolves hnext
      · obtain ⟨unmarked, hunmarked, rfl⟩ := Option.map_eq_some_iff.mp hnext
        obtain ⟨before, hbefore, hchange⟩ := evolves_setChild hchild hevolves hunmarked
        exact ⟨before, hbefore, hchange.unlink removes _⟩
  · rcases hcases with ⟨-, rfl⟩ | ⟨key, -, rfl⟩
    · exact ⟨_, hself, rfl⟩
    · rw [settle_eq]
      rcases settledStatus exitStatus with _ | status
      · exact ⟨_, hself, rfl⟩
      · exact ⟨_, Option.map_eq_some_iff.mpr ⟨_, hself, rfl⟩, (unlink_frame ..).2.2⟩
  · intro other before hbefore
    rcases hcases with ⟨-, rfl⟩ | ⟨key, hmem, rfl⟩
    · exact .inl hbefore
    · rw [settle_eq]
      rcases hsettled : settledStatus exitStatus with _ | status
      · exact .inl hbefore
      · have hset := hasStatus_setStatus ((v.setChild pid { child with reaped := true }).unlink
          removes ((v.setChild pid { child with reaped := true }).task key).fileName) key status other
        by_cases hother : other = key
        · simp only [hother, if_true] at hset ⊢
          exact .inr ⟨hmem, status, rfl, (hset status).mpr rfl⟩
        · simp only [hother, if_false] at hset
          exact .inl ((hset before).mpr hbefore)

/-- The children after a step are those before it, each with what has become of it, and perhaps the
one that has been forked. -/
theorem grown_of_effect {v v' : Vars} {p p' : Phase} {event : Event}
    (heffect : Effect v p event v' p') {pid : ℕ} {next : Child}
    (hnext : v'.children pid = some next) :
    (∃ child, v.children pid = some child ∧ Evolves event pid child next) ∨
      ∃ uuid, p = .forking uuid ∧ p' = .inserting uuid pid ∧ v.pipeFd = some pid ∧
        next = newChild (v.task uuid) := by
  cases heffect with
  | fork uuid pid' hfd =>
    by_cases hother : pid = pid'
    · simp only [Vars.setChild, hother, Function.update_self, Option.some.injEq] at hnext
      exact .inr ⟨uuid, rfl, by rw [hother], by rw [hother, hfd], hnext.symm⟩
    · simp only [Vars.setChild, Function.update_of_ne hother] at hnext
      exact .inl ⟨next, hnext, .refl _ pid next⟩
  | kill pid' child hchild =>
    have hevolves : Evolves .next pid' child { child with terminated := true } :=
      ⟨⟨rfl, rfl, id⟩, fun _ ↦ ⟨rfl, rfl⟩, id, (Evolves.refl .next pid' child).unreaped⟩
    exact .inl (evolves_setChild hchild hevolves hnext)
  | child p event pid' act child replaced hevent hchild hlive hact =>
    exact .inl (evolves_setChild hchild (evolves_childAct hevent hlive hact) hnext)
  | sigchld p pid' removes v' hreap =>
    obtain ⟨-, -, -, -, -, hback, -⟩ := subprocessCleaness_reaps hreap
    exact .inl (hback pid next hnext)
  | _ => exact .inl ⟨next, hnext, .refl _ pid next⟩

/-- Assumes: the daemon is sound. A child is still there after a step. -/
theorem exists_evolves {v v' : Vars} {p p' : Phase} {event : Event} (hsound : Sound v p)
    (heffect : Effect v p event v' p') {pid : ℕ} {child : Child}
    (hchild : v.children pid = some child) :
    ∃ next, v'.children pid = some next ∧ Evolves event pid child next := by
  have hstays : ∃ next, v'.children pid = some next := by
    cases heffect with
    | fork uuid pid' hfd => exact exists_setChild _ _ hchild
    | kill pid' child' hchild' => exact exists_setChild _ _ hchild
    | child p event pid' act child' replaced hevent hchild' hlive hact =>
      exact exists_setChild _ _ hchild
    | sigchld p pid' removes v' hreap =>
      obtain ⟨reaped, exitStatus, -, -, hcases⟩ := subprocessCleaness_cases hreap
      have hset := exists_setChild pid' { reaped with reaped := true } hchild
      rcases hcases with ⟨-, rfl⟩ | ⟨key, -, rfl⟩
      · exact hset
      · rw [settle_eq]
        rcases settledStatus exitStatus with _ | status
        · exact hset
        · obtain ⟨next, hnext⟩ := hset
          exact ⟨_, Option.map_eq_some_iff.mpr ⟨next, hnext, rfl⟩⟩
    | _ => exact ⟨child, hchild⟩
  obtain ⟨next, hnext⟩ := hstays
  rcases grown_of_effect heffect hnext with ⟨before, hbefore, hevolves⟩ | ⟨uuid, rfl, -, hfd, -⟩
  · rw [hchild, Option.some.injEq] at hbefore
    exact ⟨next, hnext, hbefore ▸ hevolves⟩
  · rw [hsound.2.2.2.2 pid hfd] at hchild
    cases hchild

/-! ### The status of one task -/

/-- What replaces the status of a task: it is started, its start fails, its reply is recorded, or
the handler settles it. -/
inductive StatusChange (v v' : Vars) : Phase → Event → Text → Status → Prop
  | run (uuid : Text) : StatusChange v v' (.spawning uuid) .next uuid .running
  | fail (uuid : Text) : StatusChange v v' (.starting uuid) .next uuid .failed
  | finish (reply : TaskInfo) : StatusChange v v' (.finishing reply) .next reply.uuid .finished
  | settle (p : Phase) (pid exitStatus : ℕ) (removes : Text → Text → Bool) (child : Child)
      (uuid : Text) (status : Status)
      (hmem : (uuid, pid) ∈ v.runningPool) (hchild : v.children pid = some child)
      (hexit : child.exitStatus = some exitStatus) (hreaped : child.reaped = false)
      (hsettled : settledStatus exitStatus = some status)
      (hafter : ∃ next, v'.children pid = some next ∧ next.reaped = true) :
      StatusChange v v' p (.sigchld pid removes) uuid status

/-- After a step a task has the status it had, or the one that has replaced it. -/
theorem hasStatus_of_effect {v v' : Vars} {p p' : Phase} {event : Event}
    (heffect : Effect v p event v' p') {uuid : Text} {status : Status}
    (hstatus : HasStatus v uuid status) :
    HasStatus v' uuid status ∨
      ∃ status', StatusChange v v' p event uuid status' ∧ HasStatus v' uuid status' := by
  have hset : ∀ other status', StatusChange v (v.setStatus other status') p event other status' →
      HasStatus (v.setStatus other status') uuid status ∨
        ∃ status'', StatusChange v (v.setStatus other status') p event uuid status'' ∧
          HasStatus (v.setStatus other status') uuid status'' := by
    intro other status' hchange
    by_cases hother : uuid = other
    · refine .inr ⟨status', hother ▸ hchange, ?_⟩
      rw [hasStatus_setStatus, if_pos hother]
    · rw [hasStatus_setStatus, if_neg hother]
      exact .inl hstatus
  cases heffect with
  | store request hnew =>
    have hother : uuid ≠ request.uuid := by
      rintro rfl
      obtain ⟨task, htask⟩ := hstatus.exists_task
      rw [hnew] at htask
      cases htask
    rw [hasStatus_setTask, if_neg hother]
    exact .inl hstatus
  | fileSize reply => exact .inl ((hasStatus_setFileSize ..).mpr hstatus)
  | take other pending hqueue =>
    refine .inl ((hasStatus_setTask v other (v.task other) uuid status).mpr ?_)
    split_ifs with hother
    · obtain ⟨task, htask, heq⟩ := hstatus
      rw [← hother, task_of_some htask, heq]
    · exact hstatus
  | run other => exact hset other .running (.run other)
  | fail other => exact hset other .failed (.fail other)
  | finish reply => exact hset reply.uuid .finished (.finish reply)
  | sigchld p pid removes v' hreap =>
    obtain ⟨child, exitStatus, hchild, hexit, hreaped, -, hgone, hstatuses⟩ :=
      subprocessCleaness_reaps hreap
    rcases hstatuses uuid status hstatus with hsame | ⟨hmem, status', hsettled, hafter⟩
    · exact .inl hsame
    · exact .inr ⟨status', .settle p pid exitStatus removes child uuid status' hmem hchild hexit
        hreaped hsettled hgone, hafter⟩
  | _ => exact .inl hstatus

/-! ### The running pool -/

/-- The handler erases the entry of the child that it reaps, and no other. -/
theorem runningPool_subprocessCleaness {v v' : Vars} (ledger : Ledger v)
    {removes : Text → Text → Bool} {pid : ℕ}
    (hreap : v.subprocessCleaness removes pid = some v') :
    v'.pipeFd = v.pipeFd ∧ v'.pendingQueue = v.pendingQueue ∧
      ∀ key other, (key, other) ∈ v'.runningPool ↔ (key, other) ∈ v.runningPool ∧ other ≠ pid := by
  obtain ⟨child, exitStatus, hchild, hexit, hcases⟩ := subprocessCleaness_cases hreap
  rcases hcases with ⟨hnone, rfl⟩ | ⟨entered, hentered, rfl⟩
  · refine ⟨rfl, rfl, fun key other ↦ ⟨fun hmem ↦ ⟨hmem, ?_⟩, And.left⟩⟩
    rintro rfl
    exact hnone key hmem
  · have hframe : ∀ vars : Vars, (vars.settle removes entered exitStatus).runningPool =
        vars.runningPool ∧ (vars.settle removes entered exitStatus).pipeFd = vars.pipeFd ∧
          (vars.settle removes entered exitStatus).pendingQueue = vars.pendingQueue := by
      intro vars
      rw [settle_eq]
      rcases settledStatus exitStatus with _ | status
      · exact ⟨rfl, rfl, rfl⟩
      · exact ⟨rfl, rfl, rfl⟩
    obtain ⟨hpool, hpipe, hqueue⟩ := hframe (v.setChild pid { child with reaped := true })
    refine ⟨hpipe, hqueue, fun key other ↦ ?_⟩
    rw [mem_eraseRunning, hpool]
    refine and_congr_right fun hmem ↦ ?_
    -- there is no entry but the one of the child
    obtain ⟨rfl, rfl⟩ := Prod.mk.inj (ledger.sole _ hmem _ hentered)
    exact iff_of_false (not_not_intro rfl) (not_not_intro rfl)

/-- An entry of `running_pool` was there before, or it is the one that the loop enters into the empty
pool. -/
theorem runningPool_of_effect {v v' : Vars} {p p' : Phase} {event : Event} (hsound : Sound v p)
    (heffect : Effect v p event v' p') :
    (∀ entry ∈ v'.runningPool, entry ∈ v.runningPool) ∨
      ∃ key uuid pid, p = .inserting uuid pid ∧ event = .insert key ∧
        v'.children = v.children ∧ v'.runningPool = [(key, pid)] := by
  cases heffect with
  | erase reply => exact .inl fun entry hmem ↦ (mem_eraseRunning.mp hmem).1
  | insert key uuid pid =>
    rw [insertRunning_of_nil hsound.2.1]
    exact .inr ⟨key, uuid, pid, rfl, rfl, rfl, rfl⟩
  | sigchld p pid removes v' hreap =>
    exact .inl fun entry hmem ↦
      ((runningPool_subprocessCleaness hsound.1 hreap).2.2 entry.1 entry.2).mp hmem |>.1
  | _ => exact .inl fun _ hmem ↦ hmem

/-- An entry of `running_pool` is left, but for the handler of its child and the statement that erases
the entry of a reply. -/
theorem mem_runningPool_of_effect {v v' : Vars} {p p' : Phase} {event : Event} (hsound : Sound v p)
    (heffect : Effect v p event v' p') {key : Text} {pid : ℕ} (hmem : (key, pid) ∈ v.runningPool) :
    (key, pid) ∈ v'.runningPool ∨ (∃ removes, v.subprocessCleaness removes pid = some v') ∨
      ∃ reply, p = .erasing reply ∧ key = reply.uuid := by
  cases heffect with
  | erase reply =>
    by_cases hkey : key = reply.uuid
    · exact .inr (.inr ⟨reply, rfl, hkey⟩)
    · exact .inl (mem_eraseRunning.mpr ⟨hmem, hkey⟩)
  | insert entered uuid pid' =>
    rw [hsound.2.1] at hmem
    cases hmem
  | sigchld p pid' removes v' hreap =>
    by_cases hpid : pid = pid'
    · exact .inr (.inl ⟨removes, hpid ▸ hreap⟩)
    · exact .inl (((runningPool_subprocessCleaness hsound.1 hreap).2.2 key pid).mpr ⟨hmem, hpid⟩)
  | _ => exact .inl hmem

/-- Assumes: an entry of `running_pool` for a child, which ended with an exit code that is known. The
handler gives the task of the entry its status. -/
theorem hasStatus_settled {v v' : Vars} (ledger : Ledger v) {key : Text} {pid : ℕ}
    (hmem : (key, pid) ∈ v.runningPool) {child : Child} {exitStatus : ℕ}
    (hchild : v.children pid = some child) (hexit : child.exitStatus = some exitStatus)
    {status : Status} (hsettled : settledStatus exitStatus = some status)
    {removes : Text → Text → Bool} (hreap : v.subprocessCleaness removes pid = some v') :
    HasStatus v' key status := by
  obtain ⟨found, exitStatus', hfound, hexit', hcases⟩ := subprocessCleaness_cases hreap
  obtain rfl : child = found := Option.some.inj (hchild.symm.trans hfound)
  obtain rfl : exitStatus = exitStatus' := Option.some.inj (hexit.symm.trans hexit')
  rcases hcases with ⟨hnone, -⟩ | ⟨other, hother, rfl⟩
  · exact absurd hmem (hnone key)
  · obtain ⟨rfl, -⟩ := Prod.mk.inj (ledger.sole _ hmem _ hother)
    rw [settle_eq, hsettled]
    refine (hasStatus_setStatus _ key status key status).mpr ?_
    rw [if_pos rfl]

theorem pc_of_inserting {pc : Pc} {uuid : Text} {pid : ℕ}
    (hphase : phase pc = .inserting uuid pid) : pc = .insertRunning uuid pid := by
  cases pc with
  | insertRunning uuid' pid' =>
    cases hphase
    rfl
  | _ => cases hphase

/-- Every entry of `running_pool` is under the uuid of its child. -/
def Matched (v : Vars) : Prop :=
  ∀ key pid child, (key, pid) ∈ v.runningPool → v.children pid = some child →
    child.request.uuid = key

/-- Assumes: an event that enters a child under its own uuid, if it enters one. -/
theorem Matched.daemonStep {d next : Daemon} {event : Event} (matched : Matched d.vars)
    (htracked : Tracked d) (hintact : Intact d event) (htaken : daemonStep d event = some next) :
    Matched next.vars := by
  intro key pid child hmem hchild
  have heffect := daemonStep_effect htaken
  rcases runningPool_of_effect htracked heffect with
    hold | ⟨entered, uuid, pid', hphase, rfl, hchildren, hpool⟩
  · have hbefore := hold _ hmem
    rcases grown_of_effect heffect hchild with ⟨before, hfound, hevolves⟩ | ⟨uuid, hphase, -⟩
    · rw [hevolves.continues.1]
      exact matched key pid before hbefore hfound
    · have hfacts := htracked.2
      rw [hphase] at hfacts
      rw [hfacts.1] at hbefore
      cases hbefore
  · rw [hpool] at hmem
    obtain ⟨rfl, rfl⟩ := Prod.mk.inj (List.mem_singleton.mp hmem)
    have hpc := pc_of_inserting hphase
    have hkey : key = uuid := by
      simpa only [Intact, intact, hpc, decide_eq_true_eq] using hintact
    have hfacts := htracked.2
    rw [hphase] at hfacts
    obtain ⟨-, -, -, owner, howner, huuid⟩ := hfacts
    rw [hchildren] at hchild
    rw [hkey, ← huuid, Option.some.inj (hchild.symm.trans howner)]

/-- The entries match in every run in which the text of the uuid is still there when it is read. -/
theorem matched_of_run {allowed : Daemon → Event → Prop}
    (hintact : ∀ d event, allowed d event → Intact d event) {d : Daemon}
    (hrun : Run daemonStep allowed .start d) : Matched d.vars := by
  induction hrun with
  | refl =>
    intro key pid child hmem
    cases hmem
  | tail event run permitted taken ih =>
    exact ih.daemonStep (tracked_of_run run) (hintact _ event permitted) taken

end CppLearn.SearchEngine.TaskChanges
