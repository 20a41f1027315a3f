import Mathlib.Data.Finset.Option
import CppLearn.Foundation.HeldHandles
import CppLearn.SearchEngine.LoopPipe

/-!
# The descriptors of the loop

`daemon_loop` opens a descriptor for each client and two for each child. `fdStep` follows them, and
the set that `select` waits for, through the statements of the loop. Three of its paths lose a
descriptor for good: a request that cannot be read leaves its connection open, a failing `fork` leaves
the write end of its pipe, and a call of `pipe` while `pipe_fd[0]` is in use overwrites the read end
of the pipe before it. `descriptorsKept_iff` says that there are no others.
-/

set_option autoImplicit false
set_option relaxedAutoImplicit false

namespace CppLearn.SearchEngine.DescriptorTable

open Foundation.GuardedRun Foundation.HeldHandles SearchDaemon LoopMoves LoopPipe

/-! ### The table -/

/-- The loop with the descriptors that it has opened and not closed, the set `all_set`, and its
variables `cli_fd`, `pipe_fd[0]` and `pipe_fd[1]`, where none is `-1`. -/
structure Descriptors where
  daemon : Daemon
  listenFd : ℕ
  openFds : Finset ℕ
  allSet : Finset ℕ
  cliFd : Option ℕ
  readFd : Option ℕ
  writeFd : Option ℕ

/-- The loop as it is entered. -/
def Descriptors.start (listenFd : ℕ) : Descriptors :=
  { daemon := .start
    listenFd := listenFd
    openFds := {listenFd}
    allSet := {listenFd}
    cliFd := none
    readFd := none
    writeFd := none }

/-- `close`, which does nothing to `-1`. -/
def close (openFds : Finset ℕ) : Option ℕ → Finset ℕ
  | none => openFds
  | some fd => openFds.erase fd

/-- The events: a connection that is not accepted; one that is accepted but whose request cannot be
read; a request; `pipe` with the two descriptors it returns; and the other events of the daemon. -/
inductive FdEvent
  | acceptFails
  | unreadable (fd : ℕ)
  | accept (fd : ℕ) (arrival : Arrival)
  | pipe (readFd writeFd : ℕ)
  | daemon (event : Event)

/-- What the statements that need no answer do to the descriptors. The last statement of each branch
for a request is followed by `close(cli_fd)`. -/
def Descriptors.next (t : Descriptors) : Descriptors :=
  match t.daemon.pc with
  | .answer _ => { t with openFds := close t.openFds t.cliFd }
  | .pushPending _ => { t with openFds := close t.openFds t.cliFd }
  | .closePipe =>
    { t with
      openFds := close t.openFds t.readFd
      allSet := close t.allSet t.readFd
      readFd := none }
  | .watchPipe =>
    { t with
      openFds := close t.openFds t.writeFd
      allSet := t.allSet ∪ t.readFd.toFinset }
  | _ => t

/-- One step of the loop, of its handler or of a child. The kernel returns descriptors that are not
in use. -/
def fdStep (t : Descriptors) : FdEvent → Option Descriptors
  | .acceptFails => (daemonStep t.daemon (.accept none)).map fun daemon ↦ { t with daemon := daemon }
  | .unreadable fd =>
    if fd ∈ t.openFds then none
    else
      (daemonStep t.daemon (.accept none)).map fun daemon ↦
        { t with daemon := daemon, cliFd := some fd, openFds := insert fd t.openFds }
  | .accept fd arrival =>
    if fd ∈ t.openFds then none
    else
      (daemonStep t.daemon (.accept (some arrival))).map fun daemon ↦
        { t with daemon := daemon, cliFd := some fd, openFds := insert fd t.openFds }
  | .pipe readFd writeFd =>
    if readFd ∈ t.openFds ∨ writeFd ∈ t.openFds ∨ readFd = writeFd then none
    else
      (daemonStep t.daemon (.pipe true)).map fun daemon ↦
        { t with
          daemon := daemon
          readFd := some readFd
          writeFd := some writeFd
          openFds := insert readFd (insert writeFd t.openFds) }
  | .daemon (.accept _) => none
  | .daemon (.pipe true) => none
  | .daemon .next => (daemonStep t.daemon .next).map fun daemon ↦ { t.next with daemon := daemon }
  | .daemon event => (daemonStep t.daemon event).map fun daemon ↦ { t with daemon := daemon }

/-! ### The statement -/

/-- `listen_fd`, and `pipe_fd[0]` when it is not `-1`. -/
def Descriptors.expected (t : Descriptors) : Finset ℕ := insert t.listenFd t.readFd.toFinset

/-- These are the descriptors that are open, and the ones in `all_set`. -/
def DescriptorsKept (t : Descriptors) : Prop :=
  t.openFds = t.expected ∧ t.allSet = t.expected

/-- None of the three paths that lose a descriptor. -/
def losesNone (t : Descriptors) : FdEvent → Bool
  | .unreadable _ => false
  | .daemon (.fork false) => false
  | .pipe _ _ => t.readFd = none
  | _ => true

/-- The event meets that condition. -/
def LosesNone (t : Descriptors) (event : FdEvent) : Prop := losesNone t event = true

instance (t : Descriptors) (event : FdEvent) : Decidable (LosesNone t event) :=
  inferInstanceAs (Decidable (losesNone t event = true))

/-! ### What a step can be -/

/-- A step with the step of the daemon in it. -/
inductive FdMove (t : Descriptors) : FdEvent → Descriptors → Prop
  | acceptFails (daemon : Daemon) (hstep : daemonStep t.daemon (.accept none) = some daemon) :
      FdMove t .acceptFails { t with daemon := daemon }
  | unreadable (fd : ℕ) (daemon : Daemon) (hnew : fd ∉ t.openFds)
      (hstep : daemonStep t.daemon (.accept none) = some daemon) :
      FdMove t (.unreadable fd)
        { t with daemon := daemon, cliFd := some fd, openFds := insert fd t.openFds }
  | accept (fd : ℕ) (arrival : Arrival) (daemon : Daemon) (hnew : fd ∉ t.openFds)
      (hstep : daemonStep t.daemon (.accept (some arrival)) = some daemon) :
      FdMove t (.accept fd arrival)
        { t with daemon := daemon, cliFd := some fd, openFds := insert fd t.openFds }
  | pipe (readFd writeFd : ℕ) (daemon : Daemon) (hread : readFd ∉ t.openFds)
      (hwrite : writeFd ∉ t.openFds) (hne : readFd ≠ writeFd)
      (hstep : daemonStep t.daemon (.pipe true) = some daemon) :
      FdMove t (.pipe readFd writeFd) { t with
        daemon := daemon
        readFd := some readFd
        writeFd := some writeFd
        openFds := insert readFd (insert writeFd t.openFds) }
  | next (daemon : Daemon) (hstep : daemonStep t.daemon .next = some daemon) :
      FdMove t (.daemon .next) { t.next with daemon := daemon }
  | other (event : Event) (daemon : Daemon) (hnext : event ≠ .next)
      (haccept : ∀ arrival, event ≠ .accept arrival) (hpipe : event ≠ .pipe true)
      (hstep : daemonStep t.daemon event = some daemon) :
      FdMove t (.daemon event) { t with daemon := daemon }

theorem fdMove_of_fdStep {t next : Descriptors} {event : FdEvent}
    (htaken : fdStep t event = some next) : FdMove t event next := by
  cases event with
  | acceptFails =>
    obtain ⟨daemon, hstep, rfl⟩ := Option.map_eq_some_iff.mp htaken
    exact .acceptFails daemon hstep
  | unreadable fd =>
    simp only [fdStep] at htaken
    split_ifs at htaken with hnew
    obtain ⟨daemon, hstep, rfl⟩ := Option.map_eq_some_iff.mp htaken
    exact .unreadable fd daemon hnew hstep
  | accept fd arrival =>
    simp only [fdStep] at htaken
    split_ifs at htaken with hnew
    obtain ⟨daemon, hstep, rfl⟩ := Option.map_eq_some_iff.mp htaken
    exact .accept fd arrival daemon hnew hstep
  | pipe readFd writeFd =>
    simp only [fdStep] at htaken
    split_ifs at htaken with hused
    push Not at hused
    obtain ⟨hread, hwrite, hne⟩ := hused
    obtain ⟨daemon, hstep, rfl⟩ := Option.map_eq_some_iff.mp htaken
    exact .pipe readFd writeFd daemon hread hwrite hne hstep
  | daemon event =>
    have hother : event ≠ .next → (∀ arrival, event ≠ .accept arrival) → event ≠ .pipe true →
        fdStep t (.daemon event) =
          (daemonStep t.daemon event).map (fun daemon ↦ { t with daemon := daemon }) →
            FdMove t (.daemon event) next := by
      intro hnext haccept hpipe heq
      rw [heq] at htaken
      obtain ⟨daemon, hstep, rfl⟩ := Option.map_eq_some_iff.mp htaken
      exact .other event daemon hnext haccept hpipe hstep
    cases event with
    | next =>
      obtain ⟨daemon, hstep, rfl⟩ := Option.map_eq_some_iff.mp htaken
      exact .next daemon hstep
    | accept arrival => cases htaken
    | pipe success =>
      cases success with
      | true => cases htaken
      | false =>
        exact hother Event.noConfusion (fun _ ↦ Event.noConfusion)
          (fun heq ↦ Bool.noConfusion (Event.pipe.inj heq)) rfl
    | _ => exact hother Event.noConfusion (fun _ ↦ Event.noConfusion) Event.noConfusion rfl

theorem losesNone_daemon (t : Descriptors) {event : Event} (hfork : event ≠ .fork false) :
    LosesNone t (.daemon event) := by
  cases event with
  | fork success =>
    cases success with
    | true => rfl
    | false => exact absurd rfl hfork
  | _ => rfl

/-! ### The descriptors that a variable holds -/

/-- What the loop holds beside `listen_fd` and `pipe_fd[0]`: the connection of a client, or the write
end of a pipe. -/
inductive Holding
  | nothing
  | client
  | writeEnd
  deriving DecidableEq

/-- What it holds at a statement. -/
def holding : Pc → Holding
  | .callFork _ => .writeEnd
  | .insertRunning _ _ => .writeEnd
  | .watchPipe => .writeEnd
  | .exited => .client
  | pc => if serving pc then .client else .nothing

/-- The descriptor that this stands for. -/
def Descriptors.extra (t : Descriptors) : Option ℕ :=
  match holding t.daemon.pc with
  | .nothing => none
  | .client => t.cliFd
  | .writeEnd => t.writeFd

/-- The descriptors that the loop will still use or close. -/
def Descriptors.held (t : Descriptors) : List ℕ :=
  t.listenFd :: (t.extra.toList ++ t.readFd.toList)

/-- The loop holds every descriptor that it has open. -/
def AllHeld (t : Descriptors) : Prop := NoneLost t.held t.openFds

/-- The descriptors held are open, and the write end is there while the loop holds it. -/
structure Tabled (t : Descriptors) : Prop where
  holds : Holds t.held t.openFds
  writeEnd : holding t.daemon.pc = .writeEnd → t.writeFd ≠ none

/-- `all_set` has `listen_fd` and the read end, once the write end is closed. -/
def Watching (t : Descriptors) : Prop :=
  t.allSet = insert t.listenFd (if holding t.daemon.pc = .writeEnd then ∅ else t.readFd.toFinset)

/-- What a step comes to: the table is in order; it has lost nothing exactly if nothing was lost
before and this step loses nothing; and then `all_set` is in order. -/
structure Kept (t next : Descriptors) (event : FdEvent) : Prop where
  tabled : Tabled next
  lost : NoneLost next.held next.openFds ↔ NoneLost t.held t.openFds ∧ LosesNone t event
  watching : LosesNone t event → Watching t → Watching next

/-! ### The statements that keep what is held -/

/-- The statements that close what the loop holds. -/
def releases : Pc → Bool
  | .answer _ => true
  | .pushPending _ => true
  | .watchPipe => true
  | _ => false

/-- A statement of the loop that needs no answer keeps what the loop holds, or closes it. -/
theorem holding_loopStep {d next : Daemon} (htaken : loopStep d = some next) :
    holding next.pc = if releases d.pc then .nothing else holding d.pc := by
  cases loopMove_of_loopStep htaken with
  | _ =>
    rw [‹d.pc = _›]
    rfl

theorem holding_dispatch (arrival : Arrival) : holding (dispatch arrival) = .client := by
  unfold dispatch
  split_ifs
  · rfl
  · rfl
  · rfl
  · rfl

/-- The other events of the daemon keep it, but for `fork`. -/
theorem holding_daemonStep {d next : Daemon} {event : Event} (hnext : event ≠ .next)
    (haccept : ∀ arrival, event ≠ .accept arrival) (hpipe : event ≠ .pipe true)
    (hfork : event ≠ .fork false) (htaken : daemonStep d event = some next) :
    holding next.pc = holding d.pc := by
  have haside : aside event = true → holding next.pc = holding d.pc := by
    intro haside
    obtain ⟨heq, -⟩ := daemonStep_aside haside htaken
    rw [heq]
  cases daemonMove_of_daemonStep htaken with
  | interrupted hpc => rfl
  | reject hpc => exact absurd rfl (haccept none)
  | accept arrival hpc => exact absurd rfl (haccept arrival)
  | noRequest hpc => exact absurd rfl hnext
  | loop next hpc hloop => exact absurd rfl hnext
  | pipe uuid hpc => exact absurd rfl hpipe
  | forkFails uuid pid hpc hfd => exact absurd rfl hfork
  | sigchld pid removes vars hreap => exact haside rfl
  | child event pid act vars hevent hstep => exact haside (aside_of_childAct hevent)
  | _ =>
    rw [‹d.pc = _›]
    rfl

/-! ### One step -/

theorem held_of_nothing {t : Descriptors} (hholding : holding t.daemon.pc = .nothing) :
    t.held = t.listenFd :: t.readFd.toList := by
  simp only [Descriptors.held, Descriptors.extra, hholding, Option.toList_none, List.nil_append]

theorem held_of_client {t : Descriptors} (hholding : holding t.daemon.pc = .client) :
    t.held = t.listenFd :: (t.cliFd.toList ++ t.readFd.toList) := by
  simp only [Descriptors.held, Descriptors.extra, hholding]

theorem held_of_writeEnd {t : Descriptors} (hholding : holding t.daemon.pc = .writeEnd) :
    t.held = t.listenFd :: (t.writeFd.toList ++ t.readFd.toList) := by
  simp only [Descriptors.held, Descriptors.extra, hholding]

/-- Where the loop holds no write end, before and after. -/
theorem Watching.keep {t next : Descriptors} (watching : Watching t)
    (hbefore : holding t.daemon.pc ≠ .writeEnd) (hafter : holding next.daemon.pc ≠ .writeEnd)
    (hset : next.allSet = t.allSet) (hlisten : next.listenFd = t.listenFd)
    (hread : next.readFd = t.readFd) : Watching next := by
  unfold Watching at watching ⊢
  rw [if_neg hbefore] at watching
  rw [if_neg hafter, hset, hlisten, hread, watching]

theorem ne_writeEnd_of_nothing {pc : Pc} (hpc : holding pc = .nothing) : holding pc ≠ .writeEnd :=
  fun heq ↦ Holding.noConfusion (hpc.symm.trans heq)

theorem ne_writeEnd_of_client {pc : Pc} (hpc : holding pc = .client) : holding pc ≠ .writeEnd :=
  fun heq ↦ Holding.noConfusion (hpc.symm.trans heq)

/-- A step that changes no descriptor. -/
theorem Tabled.same {t : Descriptors} {daemon : Daemon} {event : FdEvent} (tabled : Tabled t)
    (hholding : holding daemon.pc = holding t.daemon.pc) (hevent : LosesNone t event) :
    Kept t { t with daemon := daemon } event := by
  have hheld : ({ t with daemon := daemon } : Descriptors).held = t.held := by
    simp only [Descriptors.held, Descriptors.extra, hholding]
  refine ⟨⟨hheld ▸ tabled.holds, fun hwrite ↦ tabled.writeEnd (hholding ▸ hwrite)⟩, ?_, ?_⟩
  · rw [hheld]
    exact (and_iff_left hevent).symm
  · intro _ watching
    unfold Watching
    simp only [hholding]
    exact watching

/-- A connection that the loop goes on with. -/
theorem Tabled.accept {t : Descriptors} {daemon : Daemon} {fd : ℕ} {event : FdEvent}
    (tabled : Tabled t) (hnew : fd ∉ t.openFds) (hbefore : holding t.daemon.pc = .nothing)
    (hafter : holding daemon.pc = .client) (hevent : LosesNone t event) :
    Kept t { t with daemon := daemon, cliFd := some fd, openFds := insert fd t.openFds } event := by
  obtain ⟨holds, hlost⟩ := tabled.holds.open hnew
  rw [held_of_nothing hbefore] at holds hlost
  have hheld : ({ t with
      daemon := daemon, cliFd := some fd, openFds := insert fd t.openFds } : Descriptors).held =
        t.listenFd :: fd :: t.readFd.toList := held_of_client hafter
  have hperm := List.Perm.swap t.listenFd fd t.readFd.toList
  refine ⟨⟨hheld ▸ holds.perm hperm, fun hwrite ↦ ?_⟩, ?_, fun _ watching ↦ ?_⟩
  · cases hafter.symm.trans hwrite
  · rw [hheld, ← noneLost_perm hperm, hlost, held_of_nothing hbefore]
    exact (and_iff_left hevent).symm
  · exact watching.keep (ne_writeEnd_of_nothing hbefore) (ne_writeEnd_of_client hafter) rfl rfl rfl

/-- A connection that the loop leaves. -/
theorem Tabled.leave {t : Descriptors} {daemon : Daemon} {fd : ℕ} {event : FdEvent}
    (tabled : Tabled t) (hnew : fd ∉ t.openFds) (hbefore : holding t.daemon.pc = .nothing)
    (hafter : holding daemon.pc = .nothing) (hevent : ¬ LosesNone t event) :
    Kept t { t with daemon := daemon, cliFd := some fd, openFds := insert fd t.openFds } event := by
  obtain ⟨holds, hlost⟩ := (tabled.holds.open hnew).1.lose
  rw [held_of_nothing hbefore] at holds hlost
  have hheld : ({ t with
      daemon := daemon, cliFd := some fd, openFds := insert fd t.openFds } : Descriptors).held =
        t.listenFd :: t.readFd.toList := held_of_nothing hafter
  refine ⟨⟨hheld ▸ holds, fun hwrite ↦ ?_⟩, ?_, fun hloses ↦ absurd hloses hevent⟩
  · cases hafter.symm.trans hwrite
  · rw [hheld]
    exact iff_of_false hlost fun h ↦ hevent h.2

/-- `pipe` overwrites `pipe_fd[0]`. -/
theorem Tabled.pipe {t : Descriptors} {daemon : Daemon} {readFd writeFd : ℕ} (tabled : Tabled t)
    (hread : readFd ∉ t.openFds) (hwrite : writeFd ∉ t.openFds) (hne : readFd ≠ writeFd)
    (hbefore : holding t.daemon.pc = .nothing) (hafter : holding daemon.pc = .writeEnd) :
    Kept t { t with
      daemon := daemon
      readFd := some readFd
      writeFd := some writeFd
      openFds := insert readFd (insert writeFd t.openFds) } (.pipe readFd writeFd) := by
  obtain ⟨holds, hlost⟩ := tabled.holds.open hwrite
  have hnew : readFd ∉ insert writeFd t.openFds :=
    fun hmem ↦ (Finset.mem_insert.mp hmem).elim hne hread
  obtain ⟨holds, hlost'⟩ := holds.open hnew
  rw [hlost] at hlost'
  rw [held_of_nothing hbefore] at holds hlost'
  have hheld : ({ t with
      daemon := daemon
      readFd := some readFd
      writeFd := some writeFd
      openFds := insert readFd (insert writeFd t.openFds) } : Descriptors).held =
        [t.listenFd, writeFd, readFd] := held_of_writeEnd hafter
  have hwriteEnd : holding daemon.pc = .writeEnd → some writeFd ≠ none :=
    fun _ ↦ Option.some_ne_none writeFd
  rcases hfd : t.readFd with _ | fd
  · rw [hfd] at holds hlost'
    have hperm := List.reverse_perm [t.listenFd, writeFd, readFd]
    refine ⟨⟨hheld ▸ holds.perm hperm, hwriteEnd⟩, ?_, fun _ watching ↦ ?_⟩
    · rw [hheld, ← noneLost_perm hperm, held_of_nothing hbefore, hfd]
      exact hlost'.trans (and_iff_left (by simp only [LosesNone, losesNone, hfd, decide_true])).symm
    · unfold Watching at watching ⊢
      rw [if_neg (ne_writeEnd_of_nothing hbefore), hfd] at watching
      rw [if_pos hafter]
      exact watching
  · -- the read end of the pipe before is lost
    rw [hfd] at holds hlost'
    obtain ⟨holds, hlost⟩ := (holds.perm (List.reverse_perm [fd, t.listenFd, writeFd, readFd])).lose
    have hloses : ¬ LosesNone t (.pipe readFd writeFd) := by
      simp only [LosesNone, losesNone, hfd, reduceCtorEq, decide_false, Bool.false_eq_true,
        not_false_eq_true]
    refine ⟨⟨hheld ▸ holds, hwriteEnd⟩, ?_, fun h ↦ absurd h hloses⟩
    rw [hheld]
    exact iff_of_false hlost fun h ↦ hloses h.2

/-- A failing `fork` leaves the write end. -/
theorem Tabled.forkFailed {t : Descriptors} {daemon : Daemon} (tabled : Tabled t)
    (hbefore : holding t.daemon.pc = .writeEnd) (hafter : holding daemon.pc = .nothing) :
    Kept t { t with daemon := daemon } (.daemon (.fork false)) := by
  obtain ⟨fd, hfd⟩ := Option.ne_none_iff_exists'.mp (tabled.writeEnd hbefore)
  have holds := tabled.holds
  rw [held_of_writeEnd hbefore, hfd] at holds
  obtain ⟨holds, hlost⟩ := (holds.perm (List.Perm.swap fd t.listenFd t.readFd.toList)).lose
  have hheld : ({ t with daemon := daemon } : Descriptors).held = t.listenFd :: t.readFd.toList :=
    held_of_nothing hafter
  refine ⟨⟨hheld ▸ holds, fun hwrite ↦ ?_⟩, ?_, fun h ↦ absurd h Bool.false_ne_true⟩
  · cases hafter.symm.trans hwrite
  · rw [hheld]
    exact iff_of_false hlost fun h ↦ Bool.false_ne_true h.2

/-- The loop closes what it holds beside `pipe_fd[0]`. -/
theorem Tabled.release {t next : Descriptors} {extra : Option ℕ} {event : FdEvent} (tabled : Tabled t)
    (hbefore : t.held = t.listenFd :: (extra.toList ++ t.readFd.toList))
    (hopen : next.openFds = close t.openFds extra) (hlisten : next.listenFd = t.listenFd)
    (hread : next.readFd = t.readFd) (hafter : holding next.daemon.pc = .nothing)
    (hevent : LosesNone t event) (hwatching : Watching t → Watching next) :
    Kept t next event := by
  have hheld : next.held = t.listenFd :: t.readFd.toList := by
    rw [held_of_nothing hafter, hlisten, hread]
  have holds := tabled.holds
  have hwriteEnd : holding next.daemon.pc = .writeEnd → next.writeFd ≠ none :=
    fun hwrite ↦ absurd (hafter.symm.trans hwrite) Holding.noConfusion
  rw [hbefore] at holds
  cases extra with
  | none =>
    refine ⟨⟨?_, hwriteEnd⟩, ?_, fun _ ↦ hwatching⟩
    · rw [hheld, hopen]
      exact holds
    · rw [hheld, hopen, hbefore]
      exact (and_iff_left hevent).symm
  | some fd =>
    have hperm := List.Perm.swap fd t.listenFd t.readFd.toList
    obtain ⟨holds, hlost⟩ := (holds.perm hperm).close
    refine ⟨⟨?_, hwriteEnd⟩, ?_, fun _ ↦ hwatching⟩
    · rw [hheld, hopen]
      exact holds
    · rw [hheld, hopen, hbefore]
      exact (hlost.trans (noneLost_perm hperm _).symm).trans (and_iff_left hevent).symm

/-- The loop closes `pipe_fd[0]`. -/
theorem Tabled.closePipe {t next : Descriptors} {event : FdEvent} (tabled : Tabled t)
    (hbefore : holding t.daemon.pc = .nothing) (hopen : next.openFds = close t.openFds t.readFd)
    (hset : next.allSet = close t.allSet t.readFd) (hlisten : next.listenFd = t.listenFd)
    (hread : next.readFd = none) (hafter : holding next.daemon.pc = .nothing)
    (hevent : LosesNone t event) : Kept t next event := by
  have hheld : next.held = [t.listenFd] := by
    rw [held_of_nothing hafter, hlisten, hread]
    rfl
  have holds := tabled.holds
  have hwriteEnd : holding next.daemon.pc = .writeEnd → next.writeFd ≠ none :=
    fun hwrite ↦ absurd hwrite (ne_writeEnd_of_nothing hafter)
  have hwatching : Watching t → close (insert t.listenFd t.readFd.toFinset) t.readFd =
      {t.listenFd} → Watching next := by
    intro watching hclosed
    unfold Watching at watching ⊢
    rw [if_neg (ne_writeEnd_of_nothing hbefore)] at watching
    rw [if_neg (ne_writeEnd_of_nothing hafter), hset, watching, hlisten, hread, hclosed]
    rfl
  rw [held_of_nothing hbefore] at holds
  rcases hfd : t.readFd with _ | fd
  · rw [hfd] at holds hopen hwatching
    refine ⟨⟨?_, hwriteEnd⟩, ?_, fun _ watching ↦ hwatching watching rfl⟩
    · rw [hheld, hopen]
      exact holds
    · rw [hheld, hopen, held_of_nothing hbefore, hfd]
      exact (and_iff_left hevent).symm
  · rw [hfd] at holds hopen hwatching
    have hperm := List.Perm.swap fd t.listenFd []
    have hne : t.listenFd ≠ fd := fun heq ↦
      (List.nodup_cons.mp holds.nodup).1 (List.mem_singleton.mpr heq)
    obtain ⟨holds, hlost⟩ := (holds.perm hperm).close
    refine ⟨⟨?_, hwriteEnd⟩, ?_, fun _ watching ↦ hwatching watching ?_⟩
    · rw [hheld, hopen]
      exact holds
    · rw [hheld, hopen, held_of_nothing hbefore, hfd]
      exact (hlost.trans (noneLost_perm hperm _).symm).trans (and_iff_left hevent).symm
    · rw [close, Option.toFinset_some, Finset.erase_insert_of_ne hne, Finset.erase_singleton]
      rfl

theorem Tabled.next {t : Descriptors} {daemon : Daemon} (tabled : Tabled t)
    (hstep : daemonStep t.daemon .next = some daemon) :
    Kept t { t.next with daemon := daemon } (.daemon .next) := by
  cases daemonMove_of_daemonStep hstep with
  | child event pid act vars hevent hstep => cases hevent
  | noRequest hlisten =>
    have hsame : t.next = t := by simp only [Descriptors.next, hlisten]
    rw [hsame]
    exact tabled.same (by rw [hlisten]; rfl) rfl
  | loop daemon hlisten hloop =>
    have hholding := holding_loopStep hloop
    unfold Descriptors.next
    split
    · next request hpc =>
      rw [hpc] at hholding
      have hclient : holding t.daemon.pc = .client := by rw [hpc]; rfl
      exact tabled.release (held_of_client hclient) rfl rfl rfl hholding rfl fun watching ↦
        watching.keep (ne_writeEnd_of_client hclient) (ne_writeEnd_of_nothing hholding) rfl rfl rfl
    · next uuid hpc =>
      rw [hpc] at hholding
      have hclient : holding t.daemon.pc = .client := by rw [hpc]; rfl
      exact tabled.release (held_of_client hclient) rfl rfl rfl hholding rfl fun watching ↦
        watching.keep (ne_writeEnd_of_client hclient) (ne_writeEnd_of_nothing hholding) rfl rfl rfl
    · next hpc =>
      rw [hpc] at hholding
      exact tabled.closePipe (by rw [hpc]; rfl) rfl rfl rfl rfl hholding rfl
    · next hpc =>
      rw [hpc] at hholding
      have hwriteEnd : holding t.daemon.pc = .writeEnd := by rw [hpc]; rfl
      refine tabled.release (held_of_writeEnd hwriteEnd) rfl rfl rfl hholding rfl fun watching ↦ ?_
      -- `FD_SET(pipe_fd[0], &all_set)`
      unfold Watching at watching ⊢
      rw [if_pos hwriteEnd] at watching
      simp only [if_neg (ne_writeEnd_of_nothing hholding), watching]
      rw [Finset.insert_union, Finset.empty_union]
    · next hanswer hpush hclose hwatch =>
      refine tabled.same ?_ rfl
      rw [hholding, if_neg]
      unfold releases
      split
      · next request hpc => exact absurd hpc (hanswer request)
      · next uuid hpc => exact absurd hpc (hpush uuid)
      · next hpc => exact absurd hpc hwatch
      · exact Bool.false_ne_true

/-- The step lemma. -/
theorem Tabled.step {t next : Descriptors} {event : FdEvent} (tabled : Tabled t)
    (htaken : fdStep t event = some next) : Kept t next event := by
  cases fdMove_of_fdStep htaken with
  | acceptFails daemon hstep =>
    cases daemonMove_of_daemonStep hstep with
    | reject hpc => exact tabled.same (by rw [hpc]; rfl) rfl
    | child event pid act vars hevent hstep => cases hevent
  | unreadable fd daemon hnew hstep =>
    cases daemonMove_of_daemonStep hstep with
    | reject hpc => exact tabled.leave hnew (by rw [hpc]; rfl) rfl Bool.false_ne_true
    | child event pid act vars hevent hstep => cases hevent
  | accept fd arrival daemon hnew hstep =>
    obtain ⟨hpc, rfl⟩ := dispatches_of_accept hstep
    exact tabled.accept hnew (by rw [hpc]; rfl) (holding_dispatch arrival) rfl
  | pipe readFd writeFd daemon hread hwrite hne hstep =>
    cases daemonMove_of_daemonStep hstep with
    | pipe uuid hpc => exact tabled.pipe hread hwrite hne (by rw [hpc]; rfl) rfl
    | child event pid act vars hevent hstep => cases hevent
  | next daemon hstep => exact tabled.next hstep
  | other event daemon hnext haccept hpipe hstep =>
    by_cases hfork : event = .fork false
    · subst hfork
      cases daemonMove_of_daemonStep hstep with
      | forkFails uuid pid hpc => exact tabled.forkFailed (by rw [hpc]; rfl) rfl
      | child event pid act vars hevent hstep => cases hevent
    · exact tabled.same (holding_daemonStep hnext haccept hpipe hfork hstep)
        (losesNone_daemon t hfork)

theorem tabled_start (listenFd : ℕ) : Tabled (.start listenFd) where
  holds := ⟨List.nodup_singleton listenFd, fun _ hmem ↦
    Finset.mem_singleton.mpr (List.mem_singleton.mp hmem)⟩
  writeEnd := fun hwrite ↦ Holding.noConfusion (show Holding.nothing = .writeEnd from hwrite)

theorem tabled_of_run {allowed : Descriptors → FdEvent → Prop} {listenFd : ℕ} {t : Descriptors}
    (hrun : Run fdStep allowed (.start listenFd) t) : Tabled t :=
  hrun.invariant (tabled_start listenFd) fun _ _ _ tabled _ htaken ↦ (tabled.step htaken).tabled

/-- Assumes: a run in which no step loses a descriptor. `all_set` is in order. -/
theorem watching_of_run {listenFd : ℕ} {t : Descriptors}
    (hrun : Run fdStep LosesNone (.start listenFd) t) : Watching t :=
  hrun.invariant_of (fun _ ↦ tabled_of_run) rfl fun _ _ _ tabled watching hallowed htaken ↦
    (tabled.step htaken).watching hallowed watching

/-- The variable `pipe_fd[0]` is `-1` here exactly when it is in the daemon. -/
theorem readFd_isSome_of_run {allowed : Descriptors → FdEvent → Prop} {listenFd : ℕ}
    {t : Descriptors} (hrun : Run fdStep allowed (.start listenFd) t) :
    t.readFd.isSome = t.daemon.vars.pipeFd.isSome := by
  induction hrun with
  | refl => rfl
  | @tail t next event _ _ taken ih =>
    have hpipe : ∀ {event : Event} {daemon : Daemon}, daemonStep t.daemon event = some daemon →
        daemon.vars.pipeFd = (pipeAfter t.daemon event).1 :=
      fun hstep ↦ congrArg Prod.fst (pipe_daemonStep hstep)
    cases fdMove_of_fdStep taken with
    | acceptFails daemon hstep => exact ih.trans (congrArg Option.isSome (hpipe hstep)).symm
    | unreadable fd daemon hnew hstep =>
      exact ih.trans (congrArg Option.isSome (hpipe hstep)).symm
    | accept fd arrival daemon hnew hstep =>
      exact ih.trans (congrArg Option.isSome (hpipe hstep)).symm
    | pipe readFd writeFd daemon hread hwrite hne hstep =>
      exact (congrArg Option.isSome (hpipe hstep)).symm
    | next daemon hstep =>
      refine Eq.trans ?_ (congrArg Option.isSome (hpipe hstep)).symm
      by_cases hclose : t.daemon.pc = .closePipe
      · simp only [Descriptors.next, pipeAfter, hclose]
      · by_cases hwatch : t.daemon.pc = .watchPipe
        · simp only [Descriptors.next, pipeAfter, hwatch]
          exact ih
        · rw [pipeAfter_next hclose hwatch]
          unfold Descriptors.next
          split
          · exact ih
          · exact ih
          · next hpc => exact absurd hpc hclose
          · exact ih
          · exact ih
    | other event daemon hnext haccept hpipe' hstep =>
      have hsame : (pipeAfter t.daemon event).1 = t.daemon.vars.pipeFd := by
        cases event with
        | next => exact absurd rfl hnext
        | pipe success =>
          cases success with
          | true => exact absurd rfl hpipe'
          | false => rfl
        | _ => rfl
      rw [hpipe hstep, hsame]
      exact ih

/-! ### The result -/

/-- Assumes: a reachable state at the top of the loop. The descriptors that are open, and those in
`all_set`, are `listen_fd` and `pipe_fd[0]` exactly if the loop has come there without a request that
it could not read, without a failing `fork`, and without a call of `pipe` while `pipe_fd[0]` was in
use. -/
theorem descriptorsKept_iff {listenFd : ℕ} {t : Descriptors}
    (hreach : Reachable fdStep (.start listenFd) t) (hpc : t.daemon.pc = .top) :
    DescriptorsKept t ↔ Run fdStep LosesNone (.start listenFd) t := by
  have hholding : holding t.daemon.pc = .nothing := by
    rw [hpc]
    rfl
  have hheld : t.held.toFinset = t.expected := by
    rw [held_of_nothing hholding, Descriptors.expected, List.toFinset_cons]
    cases t.readFd with
    | none => rfl
    | some fd => rfl
  have htabled := tabled_of_run hreach
  have hnone : AllHeld t ↔ t.openFds = t.expected := by
    rw [AllHeld, htabled.holds.noneLost_iff, hheld]
  have hruns : AllHeld t ↔ Run fdStep LosesNone (.start listenFd) t := by
    refine run_iff (fun _ ↦ tabled_of_run) ?_ ?_ hreach
    · exact fun _ hmem ↦ List.mem_singleton.mpr (Finset.mem_singleton.mp hmem)
    · exact fun _ _ _ tabled htaken ↦ (tabled.step htaken).lost
  constructor
  · exact fun hkept ↦ hruns.mp (hnone.mpr hkept.1)
  · intro hrun
    refine ⟨hnone.mp (hruns.mpr hrun), ?_⟩
    have hwatching := watching_of_run hrun
    unfold Watching at hwatching
    rwa [if_neg (ne_writeEnd_of_nothing hholding)] at hwatching

/-! ### Samples -/

/-- A client with a search request, and its child. -/
def serveAndSpawn : List FdEvent :=
  [.daemon (.select true), .accept 5 (searchArrival 'a')] ++
    [Event.next, .next, .next, .next, .next, .next, .next, .next, .next].map .daemon ++
      [.pipe 5 6] ++ [Event.fork true, .insert ['a'], .next].map .daemon

/-- The descriptor of the client is used again for the pipe. -/
theorem descriptorsKept_of_run_spawn : ∃ t, Reachable fdStep (.start 4) t ∧
    t.daemon.pc = .top ∧ t.readFd = some 5 ∧ DescriptorsKept t := by
  obtain ⟨t, hexecute, hpc, hread⟩ : ∃ t, execute fdStep LosesNone (.start 4) serveAndSpawn =
      some t ∧ t.daemon.pc = .top ∧ t.readFd = some 5 := ⟨_, rfl, rfl, rfl⟩
  have hrun := run_of_execute hexecute
  have hreach : Reachable fdStep (.start 4) t := hrun.mono fun _ _ _ ↦ trivial
  exact ⟨t, hreach, hpc, hread, (descriptorsKept_iff hreach hpc).mpr hrun⟩

/-- A client whose request cannot be read: its connection stays open. -/
theorem not_descriptorsKept : ¬ ∀ t, Reachable fdStep (.start 4) t → t.daemon.pc = .top →
    DescriptorsKept t := by
  intro hclaim
  obtain ⟨t, hexecute, hpc, hopen, hexpected⟩ : ∃ t, execute fdStep anyEvent (.start 4)
        [.daemon (.select true), .unreadable 5] = some t ∧ t.daemon.pc = .top ∧
      t.openFds = {5, 4} ∧ t.expected = {4} := ⟨_, rfl, rfl, rfl, rfl⟩
  have hkept := (hclaim t (run_of_execute hexecute) hpc).1
  rw [hopen, hexpected] at hkept
  exact absurd hkept (by decide)

end CppLearn.SearchEngine.DescriptorTable
