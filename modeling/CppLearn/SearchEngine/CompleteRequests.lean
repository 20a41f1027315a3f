import CppLearn.SearchEngine.MemberAccess

/-!
# Complete requests

Whatever the daemon, its children, its handler and its monitor do, no assertion on a member fails while
every request is complete when it arrives (`notAsserted_of_run`). A request that is not complete fails
one, at once or in a run that follows: where a search option is missing, the tasks before it in the queue
are taken, its child is forked and reads the option (`handled_iff`).
-/

set_option autoImplicit false
set_option relaxedAutoImplicit false

namespace CppLearn.SearchEngine.CompleteRequests

open Foundation.ByteOrder Foundation.GuardedRun Foundation.JsonText Foundation.LocalTime
open MemberAccess TaskDocument
open TaskRequest (sigsegvErr)

variable (zone : TimeZone)

/-! ### Complete requests are enough -/

/-- No assertion has failed, the entries of the pool have all that is read of them, and so has the
document of the child. -/
structure Sound (d : Daemon) : Prop where
  exited : d.exited = false
  asserted : d.asserted = false
  pool : ∀ uuid task, d.taskPool uuid = some task → Stored zone task
  child : ∀ child ∈ d.running, Intact zone child

theorem sound_start : Sound zone .start where
  exited := rfl
  asserted := rfl
  pool := fun _ _ htask ↦ absurd htask (Option.some_ne_none _).symm
  child := fun _ hmem ↦ absurd hmem (Option.not_mem_none _)

theorem pool_setTask {d : Daemon} (hpool : ∀ uuid task, d.taskPool uuid = some task → Stored zone task)
    (uuid : List Byte) {task : Value} (stored : Stored zone task) :
    ∀ other t, (d.setTask uuid task).taskPool other = some t → Stored zone t := by
  intro other t ht
  simp only [Daemon.setTask, Function.update_apply] at ht
  split_ifs at ht
  · rwa [← Option.some.inj ht]
  · exact hpool other t ht

/-- What a complete search request stores. -/
theorem stored_of_searchRequest {d next : Daemon} {request : Value} {newUuid ctime : List Byte}
    (hsize : HasUint request .fileSize) (options : Options zone request)
    (hnext : searchRequest d request newUuid ctime = some next) :
    ∃ task, Stored zone task ∧ next = { (d.answer task).setTask newUuid task with
      pendingQueue := d.pendingQueue ++ [newUuid] } := by
  obtain ⟨task, rfl, hsame, htaskSize, hstatus, huuid, hctime, hfileName⟩ := searchRequest_eq hnext
  refine ⟨task, ?_, rfl⟩
  refine
    { toOptions := (hsame.options_iff zone).mpr options
      uuid := huuid
      ctime := hctime
      status := Option.isSome_iff_exists.mpr ⟨_, hstatus⟩
      fileName := hfileName
      fileSize := ?_ }
  rwa [HasUint, htaskSize]

theorem sound_request {d next : Daemon} (sound : Sound zone d) {request : Value}
    {newUuid ctime : List Byte} (hcomplete : Complete zone d request)
    (hnext : handleRequest d request newUuid ctime = some next) : Sound zone next := by
  rcases handleRequest_eq hnext with ⟨hmode, hsearch⟩ | ⟨-, reply, rfl⟩
  · obtain ⟨task, stored, rfl⟩ := stored_of_searchRequest zone (hcomplete.searchSize hmode)
      (hcomplete.options hmode) hsearch
    exact ⟨sound.exited, sound.asserted,
      pool_setTask zone (d := d.answer task) sound.pool newUuid stored, sound.child⟩
  · exact ⟨sound.exited, sound.asserted, sound.pool, sound.child⟩

/-- A step keeps the daemon sound where the request that it takes is complete. -/
theorem sound_step {d next : Daemon} {event : Event} (sound : Sound zone d)
    (hcomplete : complete zone d event) (htaken : step zone d event = some next) :
    Sound zone next := by
  rw [step.eq_def, if_neg (ne_true_of_eq_false sound.exited)] at htaken
  cases event with
  | request request newUuid ctime =>
    simp only at htaken
    split_ifs at htaken
    have hcomplete : Complete zone d request := hcomplete
    obtain ⟨after, hafter⟩ := Option.isSome_iff_exists.mp
      ((isSome_handleRequest zone sound.pool (cString newUuid) ctime).mpr hcomplete.toHandled)
    rw [hafter, Option.getD_some] at htaken
    obtain rfl := Option.some.inj htaken
    exact sound_request zone sound hcomplete hafter
  | spawn forked =>
    cases hrunning : d.running with
    | some child =>
      rw [hrunning] at htaken
      cases htaken
    | none =>
      cases hqueue : d.pendingQueue with
      | nil =>
        rw [hrunning, hqueue] at htaken
        cases htaken
      | cons uuid pending =>
        rw [hrunning, hqueue] at htaken
        obtain ⟨task, stored, htake | ⟨-, htake⟩⟩ :=
          takePending_stored zone (stored_task zone sound.pool uuid) pending forked
        · simp only [htake, Option.getD_some] at htaken
          obtain rfl := Option.some.inj htaken
          exact ⟨sound.exited, sound.asserted, pool_setTask zone sound.pool uuid stored,
            sound.child⟩
        · simp only [htake, Option.getD_some] at htaken
          obtain rfl := Option.some.inj htaken
          refine ⟨sound.exited, sound.asserted, pool_setTask zone sound.pool uuid stored, ?_⟩
          intro child hmem
          obtain rfl := Option.some.inj hmem
          exact intact_newChild zone stored uuid
  | child act =>
    obtain ⟨child, hrunning, htaken⟩ := Option.bind_eq_some_iff.mp htaken
    split_ifs at htaken with henabled
    obtain ⟨after, hafter, intact⟩ := childAct_intact zone (sound.child child hrunning) henabled.2
    obtain rfl := Option.some.inj htaken
    rw [childStep, hafter]
    refine ⟨sound.exited, sound.asserted, sound.pool, fun other hmem ↦ ?_⟩
    obtain rfl := Option.some.inj hmem
    exact intact
  | reply =>
    obtain ⟨child, hrunning, htaken⟩ := Option.bind_eq_some_iff.mp htaken
    split_ifs at htaken
    obtain ⟨uuid, task, running, stored, hchild, hreply⟩ :=
      readReply_stored zone (sound.child child hrunning).stored sound.pool
    rw [hreply, Option.getD_some] at htaken
    obtain rfl := Option.some.inj htaken
    refine ⟨sound.exited, sound.asserted, pool_setTask zone sound.pool uuid stored, ?_⟩
    rcases hchild with rfl | rfl
    · exact fun _ hmem ↦ absurd hmem (Option.not_mem_none _)
    · exact sound.child
  | sigchld exitStatus =>
    obtain ⟨child, -, rfl⟩ := Option.map_eq_some_iff.mp htaken
    have hnone : ∀ other ∈ (none : Option Child), Intact zone other :=
      fun _ hmem ↦ absurd hmem (Option.not_mem_none _)
    rcases subprocessCleaness_stored zone (stored_task zone sound.pool child.uuid)
      (if child.aborted then sigsegvErr else exitStatus) with hsettle | ⟨task, stored, hsettle⟩
    · rw [hsettle, Option.getD_some]
      exact ⟨sound.exited, sound.asserted, sound.pool, hnone⟩
    · rw [hsettle, Option.getD_some]
      exact ⟨sound.exited, sound.asserted, pool_setTask zone sound.pool child.uuid stored, hnone⟩
  | monitor uuid now taskStaleInterval =>
    obtain ⟨task, htask, rfl⟩ := Option.map_eq_some_iff.mp htaken
    rcases cleaness_stored zone (sound.pool uuid task htask) d uuid now taskStaleInterval with
      hkeep | herase
    · rw [hkeep, Option.getD_some]
      exact sound
    · rw [herase, Option.getD_some]
      refine ⟨sound.exited, sound.asserted, fun other t ht ↦ ?_, sound.child⟩
      simp only [Function.update_apply] at ht
      split_ifs at ht
      exact sound.pool other t ht

theorem sound_of_run {d : Daemon} (run : Run (step zone) (complete zone) .start d) : Sound zone d :=
  run.invariant (sound_start zone) fun _ _ _ ↦ sound_step zone

/-- No assertion fails in a run whose requests are complete. -/
theorem notAsserted_of_run {d : Daemon} (run : Run (step zone) (complete zone) .start d) :
    d.asserted = false :=
  (sound_of_run zone run).asserted

/-! ### Complete requests are needed -/

/-- No assertion fails in what follows, while the requests that arrive are complete. -/
def Safe (d : Daemon) : Prop :=
  ∀ finish, Run (step zone) (complete zone) d finish → finish.asserted = false

theorem Safe.run {d next : Daemon} (safe : Safe zone d)
    (run : Run (step zone) (complete zone) d next) : Safe zone next :=
  fun finish hfinish ↦ safe finish (run.trans hfinish)

theorem Safe.after {d next : Daemon} (safe : Safe zone d) {event : Event}
    (hcomplete : complete zone d event) (htaken : step zone d event = some next) : Safe zone next :=
  safe.run zone (.tail event .refl hcomplete htaken)

theorem Safe.asserted {d : Daemon} (safe : Safe zone d) : d.asserted = false := safe d .refl

/-- Assumes: a function of the daemon whose failed assertion ends it. -/
theorem isSome_of_safe {d next : Daemon} {result : Option Daemon}
    (hnext : next = result.getD d.abort) (safe : Safe zone next) : result.isSome = true := by
  cases result with
  | none =>
    have hfailed : next.asserted = true := by
      rw [hnext]
      rfl
    exact absurd (safe.asserted.symm.trans hfailed) Bool.false_ne_true
  | some after => rfl

section Spawned

variable {d : Daemon} {uuid : List Byte} {request : Value}

theorem Safe.act (safe : Safe zone d) (hexited : d.exited = false) {child : Child}
    (hrunning : d.running = some child) (haborted : child.aborted = false) (act : Act)
    (henabled : act.Enabled child) : Safe zone (childStep zone d child act) := by
  have htaken : step zone d (.child act) = some (childStep zone d child act) := by
    rw [step.eq_def, if_neg (ne_true_of_eq_false hexited)]
    simp only [hrunning, Option.bind_some]
    rw [if_pos ⟨haborted, henabled⟩]
  have hcomplete : complete zone d (.child act) := trivial
  exact safe.after zone hcomplete htaken

theorem isSome_childAct_of_safe {child : Child} {act : Act}
    (safe : Safe zone (childStep zone d child act)) : (childAct zone child act).isSome = true := by
  cases hafter : childAct zone child act with
  | none =>
    have hfailed : (childStep zone d child act).asserted = true := by
      rw [childStep, hafter]
    exact absurd (safe.asserted.symm.trans hfailed) Bool.false_ne_true
  | some after => rfl

/-- Assumes: a child that is forked where no assertion fails any more. Its request has its search
options: the child reads the times, and a file of the store may have any rows. -/
theorem options_of_safe (safe : Safe zone d) (hexited : d.exited = false)
    (hrunning : d.running = some (newChild uuid request)) : Options zone request := by
  have hconstruct := safe.act zone hexited hrunning rfl .construct rfl
  obtain ⟨after, hafter⟩ :=
    Option.isSome_iff_exists.mp (isSome_childAct_of_safe zone hconstruct)
  have hread := hafter
  simp only [childAct, Option.bind_eq_bind, Option.bind_eq_some_iff] at hread
  obtain ⟨stime, hstime, etime, hetime, -⟩ := hread
  have hstrings : HasString request .stime ∧ HasString request .etime :=
    ⟨Option.isSome_iff_exists.mpr ⟨stime, hstime⟩, Option.isSome_iff_exists.mpr ⟨etime, hetime⟩⟩
  obtain rfl := Option.some.inj
    (hafter.symm.trans (childAct_construct zone hstrings.1 hstrings.2))
  rw [childStep, hafter] at hconstruct
  have hdecode := fun timeVals ↦ (isSome_childAct_decode zone rfl timeVals).mp
    (isSome_childAct_of_safe zone
      (hconstruct.act zone hexited rfl rfl (.decode 8 timeVals) ⟨rfl, rfl⟩))
  exact
    { stime := hstrings.1
      etime := hstrings.2
      limit := (hdecode []).1
      session := by
        rintro ⟨timeVal, htime⟩
        exact (hdecode [timeVal]).2 ⟨timeVal, List.mem_singleton_self timeVal, htime⟩ }

end Spawned

/-! ### The way of a request to its child -/

/-- A search request that waits in the queue, behind tasks that were complete. -/
structure Waiting (d : Daemon) (uuid : List Byte) (task : Value) : Prop where
  exited : d.exited = false
  idle : d.running = none
  entry : d.taskPool uuid = some task
  others : ∀ other t, other ≠ uuid → d.taskPool other = some t → Stored zone t

theorem task_eq {d : Daemon} {uuid : List Byte} {task : Value} (hentry : d.taskPool uuid = some task) :
    d.task uuid = task := by
  rw [Daemon.task, hentry, Option.getD_some]

theorem Waiting.stored_task {d : Daemon} {uuid : List Byte} {task : Value}
    (waiting : Waiting zone d uuid task) {other : List Byte} (hother : other ≠ uuid) :
    Stored zone (d.task other) := by
  rw [Daemon.task]
  cases htask : d.taskPool other with
  | none => exact stored_document zone _
  | some t => exact waiting.others other t hother htask

theorem step_spawn {d : Daemon} (hexited : d.exited = false) (hidle : d.running = none)
    {uuid : List Byte} {pending : List (List Byte)} (hqueue : d.pendingQueue = uuid :: pending)
    (forked : Bool) :
    step zone d (.spawn forked) = some ((takePending d uuid pending forked).getD d.abort) := by
  rw [step.eq_def, if_neg (ne_true_of_eq_false hexited)]
  simp only [hidle, hqueue]

/-- The tasks ahead in the queue are taken, where none of them can be forked. -/
theorem Waiting.exists_front {d : Daemon} {uuid : List Byte} {task : Value} {ahead : List (List Byte)}
    (waiting : Waiting zone d uuid task) {behind : List (List Byte)}
    (hqueue : d.pendingQueue = ahead ++ uuid :: behind) (hahead : uuid ∉ ahead) :
    ∃ next, Run (step zone) (complete zone) d next ∧ Waiting zone next uuid task ∧
      next.pendingQueue = uuid :: behind := by
  induction ahead generalizing d with
  | nil => exact ⟨d, .refl, waiting, hqueue⟩
  | cons other ahead ih =>
    have hne : other ≠ uuid := fun heq ↦ hahead (heq ▸ List.mem_cons_self ..)
    obtain ⟨t, stored, htake | ⟨hforked, -⟩⟩ := takePending_stored zone
      (waiting.stored_task zone hne) (ahead ++ uuid :: behind) false
    · have htaken := @step_spawn zone d waiting.exited waiting.idle other (ahead ++ uuid :: behind)
        hqueue false
      rw [htake, Option.getD_some] at htaken
      have hwaiting : Waiting zone
          { d.setTask other t with pendingQueue := ahead ++ uuid :: behind } uuid task := by
        refine ⟨waiting.exited, waiting.idle, ?_, fun name entry hname hentry ↦ ?_⟩
        · simp only [Daemon.setTask, Function.update_of_ne hne.symm]
          exact waiting.entry
        · simp only [Daemon.setTask, Function.update_apply] at hentry
          split_ifs at hentry
          · rwa [← Option.some.inj hentry]
          · exact waiting.others name entry hname hentry
      obtain ⟨next, hrun, hnext⟩ := ih hwaiting rfl fun hmem ↦ hahead (List.mem_cons_of_mem _ hmem)
      have hcomplete : complete zone d (.spawn false) := trivial
      exact ⟨next, (Run.tail _ .refl hcomplete htaken).trans hrun, hnext⟩
    · cases hforked

/-- A search request that waits has its search options where no assertion fails any more. -/
theorem Waiting.options {d : Daemon} {uuid : List Byte} {task : Value}
    (waiting : Waiting zone d uuid task) (safe : Safe zone d) {ahead behind : List (List Byte)}
    (hqueue : d.pendingQueue = ahead ++ uuid :: behind) (hahead : uuid ∉ ahead) {status : List Byte}
    (hstatus : getStrValByKey task .status = some status) (hcanceled : status ≠ literal "CANCELED") :
    Options zone task := by
  obtain ⟨front, hrun, hfront, hfrontQueue⟩ := waiting.exists_front zone hqueue hahead
  have htask := task_eq hfront.entry
  obtain ⟨running, hset, htake⟩ := @takePending_forked front uuid status behind
    (htask ▸ hstatus) hcanceled
  have htaken := step_spawn zone hfront.exited hfront.idle hfrontQueue true
  rw [htake, Option.getD_some] at htaken
  have hcomplete : complete zone front (.spawn true) := trivial
  have hsafe := (safe.run zone hrun).after zone hcomplete htaken
  rw [htask] at hset
  exact ((sameOptions_setStr hset rfl).options_iff zone).mp
    (options_of_safe zone hsafe hfront.exited rfl)

/-- The question for the status of a task. -/
def statusQuestion (uuid : List Byte) : Value :=
  .object
    [(Member.key .mode, .string (literal "status")),
      (Member.key .uuid, .string uuid),
      (Member.key .status, .string []),
      (Member.key .fileSize, .uint 0)]

theorem complete_statusQuestion (d : Daemon) (uuid : List Byte) :
    Complete zone d (statusQuestion uuid) := by
  have hmode : getStrValByKey (statusQuestion uuid) .mode ≠ some (literal "search") := by
    show some (cString (literal "status")) ≠ some (literal "search")
    decide
  exact
    { uuid := rfl
      mode := rfl
      status := rfl
      fileSize := fun _ _ ↦ rfl
      fileName := fun heq ↦ absurd heq hmode
      ctime := fun heq ↦ absurd heq hmode
      searchSize := fun heq ↦ absurd heq hmode
      options := fun heq ↦ absurd heq hmode }

theorem step_request {d : Daemon} (hexited : d.exited = false) (request : Value)
    (newUuid ctime : List Byte)
    (hfresh : getStrValByKey request .mode = some (literal "search") → Fresh d (cString newUuid)) :
    step zone d (.request request newUuid ctime) =
      some ((handleRequest d request (cString newUuid) ctime).getD d.abort) := by
  rw [step.eq_def, if_neg (ne_true_of_eq_false hexited)]
  exact if_pos hfresh

/-- An entry of the pool has a file size where no assertion fails any more: a client may ask for it. -/
theorem fileSize_of_safe {d : Daemon} (safe : Safe zone d) (hexited : d.exited = false)
    {uuid : List Byte} {task : Value} (hentry : d.taskPool uuid = some task)
    (huuid : cString uuid = uuid) : HasUint task .fileSize := by
  have hmode : getStrValByKey (statusQuestion uuid) .mode = some (literal "status") := by
    show some (cString (literal "status")) = some (literal "status")
    decide
  have hquestion : getStrValByKey (statusQuestion uuid) .uuid = some uuid := by
    show some (cString uuid) = some uuid
    rw [huuid]
  have htaken := step_request zone hexited (statusQuestion uuid) [] []
    fun heq ↦ absurd (hmode.symm.trans heq) (by decide)
  have hcomplete : complete zone d (.request (statusQuestion uuid) [] []) :=
    complete_statusQuestion zone d uuid
  obtain ⟨next, hnext⟩ := Option.isSome_iff_exists.mp
    (isSome_of_safe zone rfl (safe.after zone hcomplete htaken))
  rw [handleRequest_of_get hquestion hmode, if_pos rfl, statusRequest] at hnext
  simp only [hentry, Option.bind_eq_bind, Option.bind_eq_some_iff] at hnext
  obtain ⟨-, -, -, -, fileSize, hfileSize, -⟩ := hnext
  exact Option.isSome_iff_exists.mpr ⟨fileSize, hfileSize⟩

/-- The child of an earlier task ends. -/
theorem step_sigchld {d : Daemon} (hexited : d.exited = false) {child : Child}
    (hrunning : d.running = some child) (haborted : child.aborted = false) :
    step zone d (.sigchld 0) = some { d with running := none } := by
  rw [step.eq_def, if_neg (ne_true_of_eq_false hexited)]
  simp only [hrunning, Option.map_some, haborted, Bool.false_eq_true, if_false]
  rfl

/-- A search request that is stored where no assertion fails any more. -/
theorem search_of_safe {d next : Daemon} (sound : Sound zone d) {request : Value}
    {newUuid ctime : List Byte} (hfresh : Fresh d newUuid) (huuid : cString newUuid = newUuid)
    (hstore : searchRequest d request newUuid ctime = some next) (safe : Safe zone next) :
    HasUint request .fileSize ∧ Options zone request := by
  obtain ⟨task, hnext, hsame, hsize, hstatus, -⟩ := searchRequest_eq hstore
  have hexited : next.exited = false := by
    rw [hnext]
    exact sound.exited
  have hpool : next.taskPool = Function.update d.taskPool newUuid (some task) := by rw [hnext]; rfl
  have hqueue : next.pendingQueue = d.pendingQueue ++ [newUuid] := by rw [hnext]
  have hrunning : next.running = d.running := by rw [hnext]; rfl
  have hentry : (Function.update d.taskPool newUuid (some task)) newUuid = some task :=
    Function.update_self ..
  have hfileSize := fileSize_of_safe zone safe hexited (hpool ▸ hentry) huuid
  rw [HasUint, hsize] at hfileSize
  refine ⟨hfileSize, (hsame.options_iff zone).mp ?_⟩
  -- the search that runs ends, and then the queue is taken up to the request
  have hwaiting : ∀ idle : Daemon, idle.exited = false → idle.running = none →
      idle.taskPool = Function.update d.taskPool newUuid (some task) →
      idle.pendingQueue = d.pendingQueue ++ [newUuid] → Safe zone idle → Options zone task := by
    intro idle hexited hidle hpool hqueue hsafe
    have waiting : Waiting zone idle newUuid task := by
      refine ⟨hexited, hidle, ?_, fun other t hother ht ↦ ?_⟩
      · rw [hpool, hentry]
      · rw [hpool, Function.update_of_ne hother] at ht
        exact sound.pool other t ht
    exact waiting.options zone hsafe hqueue hfresh.2.1 hstatus (by decide)
  cases hchild : d.running with
  | none => exact hwaiting next hexited (hrunning.trans hchild) hpool hqueue safe
  | some child =>
    have htaken := step_sigchld zone hexited (hrunning.trans hchild)
      (sound.child child hchild).aborted
    have hcomplete : complete zone next (.sigchld 0) := trivial
    exact hwaiting { next with running := none } hexited rfl hpool hqueue
      (safe.after zone hcomplete htaken)

/-- A request that arrives after complete ones: no assertion fails, at once or later, exactly if it is
complete. -/
theorem handled_iff {d next : Daemon} {request : Value} {newUuid ctime : List Byte}
    (run : Run (step zone) (complete zone) .start d)
    (htaken : step zone d (.request request newUuid ctime) = some next) :
    (∀ finish, Run (step zone) (complete zone) next finish → finish.asserted = false) ↔
      Complete zone d request := by
  have sound := sound_of_run zone run
  constructor
  · intro safe
    have safe : Safe zone next := safe
    have hfresh : getStrValByKey request .mode = some (literal "search") →
        Fresh d (cString newUuid) := by
      rw [step.eq_def, if_neg (ne_true_of_eq_false sound.exited)] at htaken
      by_contra hfresh
      simp only [if_neg hfresh] at htaken
      cases htaken
    rw [step_request zone sound.exited request newUuid ctime hfresh, Option.some.injEq] at htaken
    have hsome := isSome_of_safe zone htaken.symm safe
    have handled := (isSome_handleRequest zone sound.pool (cString newUuid) ctime).mp hsome
    obtain ⟨after, hafter⟩ := Option.isSome_iff_exists.mp hsome
    rw [hafter, Option.getD_some] at htaken
    subst htaken
    have hsearch : getStrValByKey request .mode = some (literal "search") →
        HasUint request .fileSize ∧ Options zone request := by
      intro hmode
      rcases handleRequest_eq hafter with ⟨-, hstore⟩ | ⟨hother, -⟩
      · exact search_of_safe zone sound (hfresh hmode) (cString_cString newUuid) hstore safe
      · exact absurd hmode hother
    exact
      { toHandled := handled
        searchSize := fun hmode ↦ (hsearch hmode).1
        options := fun hmode ↦ (hsearch hmode).2 }
  · intro hcomplete finish hfinish
    have hguard : complete zone d (.request request newUuid ctime) := hcomplete
    exact notAsserted_of_run zone ((Run.tail _ run hguard htaken).trans hfinish)

/-- A search request with the default members arrives first. -/
theorem handled_iff_search :
    ∃ next, step utc .start (.request
        (document { TaskRequest.taskInfo with mode := "search".toList }) (literal "1") []) = some next ∧
      ((∀ finish, Run (step utc) (complete utc) next finish → finish.asserted = false) ↔
        Complete utc .start (document { TaskRequest.taskInfo with mode := "search".toList })) :=
  ⟨_, rfl, handled_iff utc .refl rfl⟩

/-- The empty object arrives first: it has no uuid to read, and the daemon ends. -/
theorem not_handled_empty :
    (Value.object []).text = [openBrace, closeBrace] ∧
      ∃ d, Reachable (step utc) .start d ∧ d.asserted = true ∧ d.exited = true := by
  refine ⟨rfl, ?_⟩
  obtain ⟨d, hexecute, hasserted, hexited⟩ :
      ∃ d, execute (step utc) anyEvent .start [.request (.object []) [] []] = some d ∧
        d.asserted = true ∧ d.exited = true := ⟨_, rfl, rfl, rfl⟩
  exact ⟨d, run_of_execute hexecute, hasserted, hexited⟩

/-! ### The requests of the search client -/

/-- The document of a request is complete whenever it arrives. -/
theorem complete_document (d : Daemon) (request : TaskRequest.TaskInfo) :
    Complete zone d (document request) := by
  have stored := stored_document zone request
  exact
    { uuid := stored.uuid
      mode := rfl
      status := stored.status.hasMember
      fileSize := fun _ _ ↦ stored.fileSize.hasMember
      fileName := fun _ ↦ stored.fileName
      ctime := fun _ ↦ stored.ctime.hasMember
      searchSize := fun _ ↦ stored.fileSize
      options := fun _ ↦ stored.toOptions }

/-- The requests that arrive are documents that the constructor and the setters have made. -/
def fromClient (_ : Daemon) : Event → Prop
  | .request request _ _ => ∃ made, request = document made
  | _ => True

/-- The search client brings no assertion to fail. -/
theorem notAsserted_of_fromClient {d : Daemon} (run : Run (step zone) fromClient .start d) :
    d.asserted = false := by
  refine notAsserted_of_run zone (run.mono fun state event hevent ↦ ?_)
  cases event with
  | request request newUuid ctime =>
    obtain ⟨made, rfl⟩ := hevent
    exact complete_document zone state made
  | _ => trivial

end CppLearn.SearchEngine.CompleteRequests
