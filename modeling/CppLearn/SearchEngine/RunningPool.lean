import CppLearn.SearchEngine.LoopProgress
import CppLearn.SearchEngine.ReplyPipe

/-!
# The running pool

The loop enters a child into `running_pool` after `fork` has returned, and the handler of `SIGCHLD`
looks for it there when it ends. A child that ends in between leaves an entry that nobody erases,
unless its reply is still to be read and the entry stands under the uuid in it, and the loop starts no
other task. `waitsForLiving_of_run` says that this is the only way: in every run in which the loop
enters no child that has been reaped, or one that has written its whole reply under its own uuid, an
entry without an unread reply is that of a child that has not been reaped.
-/

set_option autoImplicit false
set_option relaxedAutoImplicit false

namespace CppLearn.SearchEngine.RunningPool

open Foundation.DecimalText Foundation.GuardedRun SearchDaemon LoopProgress TaskChanges TaskLedger
open TaskRequest

/-! ### The statement -/

/-- At the top of the loop an entry of `running_pool` without an unread reply is that of a child that
has not been reaped. So when all children have ended and been reaped and no reply is unread, the
pool is empty, and the first task of the queue that is not canceled can start. -/
def WaitsForLiving (d : Daemon) : Prop :=
  d.pc = .top → ReplyPipe.replyHeld d.vars = false →
    (∀ key pid child, (key, pid) ∈ d.vars.runningPool → d.vars.children pid = some child →
      child.reaped = false) ∧
    ((∀ pid child, d.vars.children pid = some child →
        child.exitStatus ≠ none ∧ child.reaped = true) →
      d.vars.runningPool = [] ∧ ∀ front uuid rest, d.vars.pendingQueue = front ++ uuid :: rest →
        (∀ other ∈ front, HasStatus d.vars other .canceled) → ¬ HasStatus d.vars uuid .canceled →
          ∃ later, Reachable daemonStep d later ∧ later.pc = .setRunning uuid)

/-- When the loop enters a child that the handler has waited for into `running_pool`, that child has
written its whole reply, and the text that is left of the uuid is the uuid. -/
def entersLiving (d : Daemon) : Event → Bool
  | .insert key =>
    match d.pc with
    | .insertRunning uuid pid =>
      (d.vars.children pid).all fun child ↦ !child.reaped || (child.reply = .whole && key = uuid)
    | _ => true
  | _ => true

/-- The event meets that condition. -/
def EntersLiving (d : Daemon) (event : Event) : Prop := entersLiving d event = true

instance (d : Daemon) (event : Event) : Decidable (EntersLiving d event) :=
  inferInstanceAs (Decidable (entersLiving d event = true))

theorem EntersLiving.whole {d : Daemon} {key uuid : Text} {pid : ℕ}
    (hallowed : EntersLiving d (.insert key)) (hpc : d.pc = .insertRunning uuid pid)
    {child : Child} (hchild : d.vars.children pid = some child) (hreaped : child.reaped = true) :
    child.reply = .whole ∧ key = uuid := by
  simpa only [EntersLiving, entersLiving, hpc, hchild, Option.all_some, hreaped, Bool.not_true,
    Bool.false_or, Bool.and_eq_true, decide_eq_true_eq] using hallowed

/-! ### The pipe of an entry -/

/-- The child may still send its whole reply, or has sent it. -/
def Answers (child : Child) : Prop := child.exitStatus = none ∨ child.reply = .whole

/-- An entry of `running_pool` under the uuid of its child, which may still answer, is the one whose
pipe the loop holds, and the pipe is not about to be closed. -/
def AtPipe (v : Vars) (p : Phase) : Prop :=
  ∀ pid child, (child.request.uuid, pid) ∈ v.runningPool → v.children pid = some child →
    Answers child → v.pipeFd = some pid ∧ p ≠ .closing

theorem AtPipe.effect {v v' : Vars} {p p' : Phase} {event : Event} (atPipe : AtPipe v p)
    (hsound : Sound v p) (heffect : Effect v p event v' p') : AtPipe v' p' := by
  intro pid next hmem hnext hanswers
  have hgrown := grown_of_effect heffect hnext
  obtain ⟨ledger, hfacts⟩ := hsound
  -- an entry that was there before had a child that might answer
  have hbefore : (next.request.uuid, pid) ∈ v.runningPool → ∃ child, v.children pid = some child ∧
      Answers child ∧ child.request.uuid = next.request.uuid ∧ v.pipeFd = some pid ∧
        p ≠ .closing := by
    intro hold
    rcases hgrown with ⟨child, hchild, hevolves⟩ | ⟨other, rfl, -, -, -⟩
    · have hanswered : Answers child := by
        by_cases hexit : child.exitStatus = none
        · exact .inl hexit
        · obtain ⟨hexitAfter, hreplyAfter⟩ := hevolves.ended hexit
          rw [Answers, hexitAfter, hreplyAfter] at hanswers
          exact hanswers
      have huuid := hevolves.continues.1
      exact ⟨child, hchild, hanswered, huuid.symm, atPipe pid child (huuid ▸ hold) hchild hanswered⟩
    · rw [hfacts.1] at hold
      cases hold
  cases heffect with
  | quiet => exact (hbefore hmem).elim fun _ h ↦ h.2.2.2
  | endOfFile pid' child hfd hchild hreply hexit =>
    obtain ⟨found, hfound, hanswered, -, hpipe, -⟩ := hbefore hmem
    obtain rfl : pid' = pid := Option.some.inj (hfd.symm.trans hpipe)
    rw [Option.some.inj (hfound.symm.trans hchild)] at hanswered
    exact (hanswered.elim hexit hreply).elim
  | erase reply =>
    obtain ⟨hold, hne⟩ := mem_eraseRunning.mp hmem
    obtain ⟨found, hfound, -, huuid, hpipe, -⟩ := hbefore hold
    obtain ⟨pid', child, hfd, hchild, hsame, -⟩ := hfacts
    obtain rfl : pid' = pid := Option.some.inj (hfd.symm.trans hpipe)
    rw [← huuid, Option.some.inj (hfound.symm.trans hchild)] at hne
    exact absurd hsame hne
  | close =>
    obtain ⟨-, -, -, -, -, hclosing⟩ := hbefore hmem
    exact absurd rfl hclosing
  | pipe other =>
    obtain ⟨hnil, -⟩ := hfacts
    have hold : (next.request.uuid, pid) ∈ v.runningPool := hmem
    rw [hnil] at hold
    cases hold
  | insert key other pid' =>
    rw [insertRunning_of_nil hfacts.1] at hmem ⊢
    obtain ⟨-, rfl⟩ := Prod.mk.inj (List.mem_singleton.mp hmem)
    exact ⟨hfacts.2.2.1, Phase.noConfusion⟩
  | child p event pid' act child after hevent hchild hlive hact =>
    exact (hbefore hmem).elim fun _ h ↦ h.2.2.2
  | sigchld p pid' removes v' hreap =>
    obtain ⟨hpipe, -, hpool⟩ := runningPool_subprocessCleaness ledger hreap
    obtain ⟨-, -, -, -, hfd, hclosing⟩ := hbefore ((hpool _ _).mp hmem).1
    exact ⟨hpipe.trans hfd, hclosing⟩
  | _ => exact (hbefore hmem).elim fun _ h ↦ ⟨h.2.2.2.1, Phase.noConfusion⟩

theorem atPipe_of_run {allowed : Daemon → Event → Prop} {d : Daemon}
    (hrun : Run daemonStep allowed .start d) : AtPipe d.vars (phase d.pc) := by
  induction hrun with
  | refl =>
    intro pid child hmem
    cases hmem
  | tail event run _ taken ih => exact ih.effect (tracked_of_run run) (daemonStep_effect taken)

/-! ### Children that are reaped early -/

/-- A reaped child that has an entry in `running_pool` has written its reply, and the entry stands
under its uuid. -/
def Entered (v : Vars) : Prop :=
  ∀ key pid child, (key, pid) ∈ v.runningPool → v.children pid = some child →
    child.reaped = true → child.reply = .whole ∧ key = child.request.uuid

/-- A step that the handler does not take reaps no child. -/
theorem reaped_of_effect {v v' : Vars} {p p' : Phase} {event : Event}
    (heffect : Effect v p event v' p') {pid : ℕ} {next : Child}
    (hnext : v'.children pid = some next) (hreaped : next.reaped = true)
    (hevent : ∀ removes, event ≠ .sigchld pid removes) :
    ∃ child, v.children pid = some child ∧ child.reaped = true ∧ Continues child next := by
  rcases grown_of_effect heffect hnext with ⟨child, hchild, hevolves⟩ | ⟨uuid, -, -, -, rfl⟩
  · refine ⟨child, hchild, ?_, hevolves.continues⟩
    by_contra hbefore
    obtain ⟨⟨removes, heq⟩, -⟩ := hevolves.unreaped (Bool.eq_false_iff.mpr hbefore) hreaped
    exact hevent removes heq
  · cases hreaped

/-- Assumes: an event that the guard permits. -/
theorem Entered.daemonStep {d next : Daemon} {event : Event} (entered : Entered d.vars)
    (htracked : Tracked d) (hallowed : EntersLiving d event)
    (htaken : daemonStep d event = some next) : Entered next.vars := by
  intro key pid child hmem hchild hreaped
  have heffect := daemonStep_effect htaken
  rcases runningPool_of_effect htracked heffect with
    hold | ⟨entered', uuid, pid', hphase, rfl, hchildren, hpool⟩
  · have hevent : ∀ removes, event ≠ .sigchld pid removes := by
      rintro removes rfl
      obtain ⟨vars, hreap, rfl⟩ := LoopMoves.reaps_of_sigchld htaken
      exact ((runningPool_subprocessCleaness htracked.1 hreap).2.2 key pid).mp hmem |>.2 rfl
    obtain ⟨before, hbefore, hdone, hcontinues⟩ := reaped_of_effect heffect hchild hreaped hevent
    obtain ⟨hwhole, hkey⟩ := entered key pid before (hold _ hmem) hbefore hdone
    exact ⟨hcontinues.2.2 hwhole, hkey.trans hcontinues.1.symm⟩
  · rw [hpool] at hmem
    rw [hchildren] at hchild
    obtain ⟨rfl, rfl⟩ := Prod.mk.inj (List.mem_singleton.mp hmem)
    obtain ⟨hwhole, hkey⟩ := hallowed.whole (pc_of_inserting hphase) hchild hreaped
    have hfacts := htracked.2
    rw [hphase] at hfacts
    obtain ⟨-, -, -, owner, howner, huuid⟩ := hfacts
    rw [Option.some.inj (hchild.symm.trans howner), huuid]
    exact ⟨Option.some.inj (hchild.symm.trans howner) ▸ hwhole, hkey⟩

theorem entered_of_run {d : Daemon} (hrun : Run daemonStep EntersLiving .start d) :
    Entered d.vars := by
  induction hrun with
  | refl =>
    intro key pid child hmem
    cases hmem
  | tail event run permitted taken ih => exact ih.daemonStep (tracked_of_run run) permitted taken

/-! ### The loop goes on -/

/-- Assumes: a run in which the loop enters no child that has been reaped, or one that has replied
under its own uuid. The loop waits for no child that has been reaped. -/
theorem waitsForLiving_of_run {d : Daemon} (hrun : Run daemonStep EntersLiving .start d) :
    WaitsForLiving d := by
  intro hpc hheld
  have htracked := tracked_of_run hrun
  have hliving : ∀ key pid child, (key, pid) ∈ d.vars.runningPool →
      d.vars.children pid = some child → child.reaped = false := by
    intro key pid child hmem hchild
    by_contra hreaped
    obtain ⟨hwhole, rfl⟩ := entered_of_run hrun key pid child hmem hchild
      (Bool.eq_true_of_not_eq_false hreaped)
    obtain ⟨hfd, -⟩ := atPipe_of_run hrun pid child hmem hchild (.inr hwhole)
    rw [ReplyPipe.replyHeld, hfd, Option.bind_some, hchild, Option.any_some,
      decide_eq_false_iff_not] at hheld
    exact hheld hwhole
  refine ⟨hliving, fun hdead ↦ ?_⟩
  have hpool : d.vars.runningPool = [] := by
    refine List.eq_nil_iff_forall_not_mem.mpr ?_
    rintro ⟨key, pid⟩ hmem
    obtain ⟨⟨child, hchild⟩, -⟩ := htracked.1.running key pid hmem
    have hfresh := hliving key pid child hmem hchild
    exact Bool.false_ne_true (hfresh.symm.trans (hdead pid child hchild).2)
  refine ⟨hpool, fun front uuid rest hqueue _ hnot ↦ ?_⟩
  obtain ⟨later, hpast, past⟩ := exists_pastPipe_of_top hpc hpool
  have hmem : uuid ∈ d.vars.pendingQueue := by
    rw [hqueue]
    exact List.mem_append_right _ (List.mem_cons_self ..)
  obtain ⟨started, hstarted, hset, -⟩ := exists_setRunning (htracked.of_run hpast) past.pc
    past.runningPool (past.pendingQueue.trans hqueue)
    fun hcanceled ↦ hnot ((past.hasStatus_iff htracked.1 hmem .canceled).mp hcanceled)
  exact ⟨started, hpast.trans hstarted, hset⟩

/-! ### Samples -/

/-- A child is entered under another text than its uuid and ends without a reply. The handler finds
its entry. -/
theorem waitsForLiving_of_run_reaped : ∃ d,
    execute daemonStep EntersLiving .start (arrive 'a' ++ spawn 'x' ++ [.childExit 1 50, reap 1]) =
      some d ∧ WaitsForLiving d := by
  obtain ⟨d, hexecute⟩ := Option.isSome_iff_exists.mp (show (execute daemonStep EntersLiving .start
    (arrive 'a' ++ spawn 'x' ++ [.childExit 1 50, reap 1])).isSome by rfl)
  exact ⟨d, hexecute, waitsForLiving_of_run (run_of_execute hexecute)⟩

/-- The child ends and is reaped before the loop has entered it into `running_pool`: the entry is
left, and the loop waits for ever. -/
theorem not_waitsForLiving : ¬ ∀ d, Reachable daemonStep .start d → WaitsForLiving d := by
  intro hclaim
  obtain ⟨d, child, hexecute, hpc, hheld, hmem, hchild, hreaped⟩ :
      ∃ d child, execute daemonStep anyEvent .start (arrive 'a' ++ takeNext ++
          [.fork true, .childExit 1 50, reap 1, .insert ['a'], .next]) = some d ∧
        d.pc = .top ∧ ReplyPipe.replyHeld d.vars = false ∧ (['a'], 1) ∈ d.vars.runningPool ∧
        d.vars.children 1 = some child ∧ child.reaped = true :=
    ⟨_, _, rfl, rfl, rfl, List.mem_singleton_self _, rfl, rfl⟩
  have hfresh := (hclaim d (run_of_execute hexecute) hpc hheld).1 ['a'] 1 child hmem hchild
  exact Bool.false_ne_true (hfresh.symm.trans hreaped)

end CppLearn.SearchEngine.RunningPool
