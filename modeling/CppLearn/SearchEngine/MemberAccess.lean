import Mathlib.Logic.Function.Basic
import CppLearn.Foundation.GuardedRun
import CppLearn.SearchEngine.DfsParquetReader
import CppLearn.SearchEngine.Monitor
import CppLearn.SearchEngine.TaskDocument
import CppLearn.SearchEngine.Utils

/-!
# The members that a request must have

A client's request is any JSON document. The daemon reads and sets members of it by the mode, and a
search request is read again when it is spawned, by the search of its child, by the handler of `SIGCHLD`
and by the monitor. `Complete` says which members all of this needs, and of which types: `Handled` those
that `handleRequest` accesses (`isSome_handleRequest`), `Options` those that the search of a child reads
(`isSome_childAct_decode`).

A turn of the loop is one step here, and so is each function of a child that accesses the document. A
child has one entry in `running_pool` until it replies or is waited for.
-/

set_option autoImplicit false
set_option relaxedAutoImplicit false

namespace CppLearn.SearchEngine.MemberAccess

open Foundation.ByteOrder Foundation.GuardedRun Foundation.JsonText Foundation.LocalTime
open DfsParquetReader TaskDocument Utils
open Monitor (timeFormat)
open TaskRequest (bufSize sigsegvErr sigtermErr)

/-! ### The daemon and its child -/

/-- A child with its copy of the request. `times` are `stime` and `etime` of its `DfsParquetReader` once
it has one, `searched` is the end of `do_search`, and `aborted` a failed assertion. -/
structure Child where
  uuid : List Byte
  request : Value
  times : Option (ℤ × ℤ)
  searched : Bool
  aborted : Bool

/-- The pools and the queue of `GlobalVars`, and the answers that clients have been sent. `exited` is the
end of the daemon by a failed assertion, and `asserted` a failed assertion in any process or thread. -/
structure Daemon where
  taskPool : List Byte → Option Value
  running : Option Child
  pendingQueue : List (List Byte)
  answers : List Value
  exited : Bool
  asserted : Bool

/-- The daemon as it enters the loop. -/
def Daemon.start : Daemon :=
  { taskPool := fun _ ↦ none
    running := none
    pendingQueue := []
    answers := []
    exited := false
    asserted := false }

/-- `task_pool[uuid]`, with a default entry where there is none. -/
def Daemon.task (d : Daemon) (uuid : List Byte) : Value :=
  (d.taskPool uuid).getD (document TaskRequest.taskInfo)

/-- The entry of a task replaced. -/
def Daemon.setTask (d : Daemon) (uuid : List Byte) (task : Value) : Daemon :=
  { d with taskPool := Function.update d.taskPool uuid (some task) }

/-- `write_sock` to a client. -/
def Daemon.answer (d : Daemon) (reply : Value) : Daemon := { d with answers := d.answers ++ [reply] }

/-- The handler of `SIGABRT` ends the daemon. -/
def Daemon.abort (d : Daemon) : Daemon := { d with exited := true, asserted := true }

/-- A literal of the source. -/
def literal (text : String) : List Byte := ascii text.toList

/-- The characters of a C string. -/
def characters (bytes : List Byte) : List Char := bytes.map fun byte ↦ Char.ofNat byte.toNat

/-- The file name of a search request without one. -/
def defaultFileName (newUuid : List Byte) : List Byte :=
  (literal "/tmp/pcap" ++ (literal "/" ++ (newUuid ++ literal ".pcap"))).take (bufSize - 1)

/-! ### The functions of the daemon

Each is undefined where an assertion fails. -/

/-- A request in the mode `status`. -/
def statusRequest (d : Daemon) (request : Value) (uuid : List Byte) : Option Daemon :=
  match d.taskPool uuid with
  | some task => do
    let status ← getStrValByKey task .status
    let request ← setStrValByKey request .status status
    let fileSize ← getIntValByKey task .fileSize
    let request ← setIntValByKey request .fileSize fileSize
    return d.answer request
  | none => (setStrValByKey request .status (literal "INVALID")).map d.answer

/-- A request in the mode `cancel`. -/
def cancelRequest (d : Daemon) (request : Value) (uuid : List Byte) : Option Daemon :=
  if d.running.any fun child ↦ child.uuid = uuid then
    (setStrValByKey request .status (literal "CANCELED")).map d.answer
  else (setStrValByKey request .status (literal "INVALID")).map d.answer

/-- A search request without a file name is given one. -/
def nameFile (request : Value) (newUuid : List Byte) : Option Value :=
  (getStrValByKey request .fileName).bind fun fileName ↦
    if fileName = [] then setStrValByKey request .fileName (defaultFileName newUuid)
    else some request

/-- A request in the mode `search`. -/
def searchRequest (d : Daemon) (request : Value) (newUuid ctime : List Byte) : Option Daemon := do
  let request ← setStrValByKey request .status (literal "PENDING")
  let request ← setStrValByKey request .uuid newUuid
  let request ← nameFile request newUuid
  let request ← setStrValByKey request .ctime ctime
  return { (d.answer request).setTask newUuid request with
    pendingQueue := d.pendingQueue ++ [newUuid] }

/-- The request of a client, by its mode. -/
def handleRequest (d : Daemon) (request : Value) (newUuid ctime : List Byte) : Option Daemon := do
  let uuid ← getStrValByKey request .uuid
  let mode ← getStrValByKey request .mode
  if mode = literal "status" then statusRequest d request uuid
  else if mode = literal "cancel" then cancelRequest d request uuid
  else if mode = literal "search" then searchRequest d request newUuid ctime
  else (setStrValByKey request .status (literal "INVALID")).map d.answer

/-- The child forked for a task: a copy of its request, and nothing done yet. -/
def newChild (uuid : List Byte) (request : Value) : Child :=
  { uuid := uuid
    request := request
    times := none
    searched := false
    aborted := false }

/-- The task at the front of `pending_queue` is spawned; `forked` is false where `pipe` or `fork` fails. -/
def takePending (d : Daemon) (uuid : List Byte) (pending : List (List Byte)) (forked : Bool) :
    Option Daemon := do
  let request := d.task uuid
  let d := { d.setTask uuid request with pendingQueue := pending }
  let status ← getStrValByKey request .status
  if status = literal "CANCELED" then return d
  else
    let request ← setStrValByKey request .status (literal "RUNNING")
    if forked then
      return { d.setTask uuid request with running := some (newChild uuid request) }
    else
      let request ← setStrValByKey request .status (literal "FAILED")
      return d.setTask uuid request

/-- The reply of a child that has searched, which is its document. -/
def readReply (d : Daemon) (child : Child) : Option Daemon := do
  let uuid ← getStrValByKey child.request .uuid
  let fileSize ← getIntValByKey child.request .fileSize
  let task ← setIntValByKey (d.task uuid) .fileSize fileSize
  let task ← setStrValByKey task .status (literal "FINISHED")
  return { d.setTask uuid task with running := if child.uuid = uuid then none else d.running }

/-- `subprocess_cleaness` on a child in `running_pool`. -/
def subprocessCleaness (d : Daemon) (child : Child) (exitStatus : ℕ) : Option Daemon :=
  let settle (status : List Byte) : Option Daemon := do
    let _ ← getStrValByKey (d.task child.uuid) .fileName
    let task ← setStrValByKey (d.task child.uuid) .status status
    return { d.setTask child.uuid task with running := none }
  if exitStatus = sigtermErr then settle (literal "CANCELED")
  else if exitStatus = sigsegvErr then settle (literal "FAILED")
  else some { d with running := none }

section Zone

variable (zone : TimeZone)

/-- `Monitor::cleaness` on an entry of the pool. -/
def cleaness (d : Daemon) (uuid : List Byte) (task : Value) (now : ℤ)
    (taskStaleInterval : BitVec 16) : Option Daemon := do
  let status ← getStrValByKey task .status
  if status = literal "RUNNING" then
    let _ ← getStrValByKey task .uuid
    return d
  else
    let ctime ← getStrValByKey task .ctime
    let _ ← getStrValByKey task .uuid
    if now - strftimeToTimestamp zone (characters ctime) timeFormat ≥
        taskStaleInterval.toNat * 60 then
      let _ ← getStrValByKey task .uuid
      let _ ← getStrValByKey task .fileName
      return { d with taskPool := Function.update d.taskPool uuid none }
    else return d

/-! ### The functions of the child -/

/-- The members that `is_match_session` reads. -/
def sessionMembers : List Member := [.sip, .dip, .sport, .dport, .proto]

/-- The accesses of `is_match_session`. -/
def isMatchSession (request : Value) : Option (List (BitVec 64)) :=
  sessionMembers.mapM (getIntValByKey request)

/-- A row that `decode_parquet` does not skip by its time. -/
def InTime (times : ℤ × ℤ) (timeVal : BitVec 64) : Prop :=
  ¬ (0 ≠ times.1 ∧ 0 ≠ times.2 ∧ (times.2 < tvSec timeVal ∨ tvSec timeVal < times.1))

instance (times : ℤ × ℤ) (timeVal : BitVec 64) : Decidable (InTime times timeVal) :=
  inferInstanceAs (Decidable (¬ _))

/-- The rows of a file that `decode_parquet` visits. -/
def visitRows (request : Value) (times : ℤ × ℤ) : List (BitVec 64) → Option Unit
  | [] => some ()
  | timeVal :: timeVals =>
    if InTime times timeVal then
      (isMatchSession request).bind fun _ ↦ visitRows request times timeVals
    else visitRows request times timeVals

/-- `decode_parquet` on a file by its number of columns and the times of the rows visited. -/
def decodeParquet (request : Value) (times : ℤ × ℤ) (numColumns : ℕ)
    (timeVals : List (BitVec 64)) : Option Unit :=
  if numColumns ≠ 8 then (getStrValByKey request .uuid).map fun _ ↦ ()
  else (getIntValByKey request .limit).bind fun _ ↦ visitRows request times timeVals

/-- What the threads of a child do with its document: the constructor of `DfsParquetReader`, a line of
the log with the uuid, `decode_parquet`, the constructor of `DiskPcapWriter`, and the end of
`do_search`. -/
inductive Act
  | construct
  | log
  | decode (numColumns : ℕ) (timeVals : List (BitVec 64))
  | openPcap
  | finish (matchPacketSize : BitVec 64)

/-- An act that comes where the child is. -/
def Act.Enabled (child : Child) : Act → Prop
  | construct => child.times = none
  | log | openPcap => True
  | decode .. | finish _ => child.times.isSome = true ∧ child.searched = false

instance (child : Child) (act : Act) : Decidable (act.Enabled child) := by
  cases act <;> unfold Act.Enabled <;> infer_instance

/-- An act of a child, undefined where an assertion fails. -/
def childAct (child : Child) : Act → Option Child
  | .construct => do
    let stime ← getStrValByKey child.request .stime
    let etime ← getStrValByKey child.request .etime
    return { child with
      times := some (strftimeToTimestamp zone (characters stime) timeFormat,
        strftimeToTimestamp zone (characters etime) timeFormat) }
  | .log => do
    let _ ← getStrValByKey child.request .uuid
    return child
  | .decode numColumns timeVals => do
    decodeParquet child.request (child.times.getD (0, 0)) numColumns timeVals
    return child
  | .openPcap => do
    let _ ← getStrValByKey child.request .uuid
    let _ ← getStrValByKey child.request .fileName
    return child
  | .finish matchPacketSize => do
    let request ← setIntValByKey child.request .fileSize matchPacketSize
    let _ ← getStrValByKey request .uuid
    let _ ← getIntValByKey request .fileSize
    return { child with request := request, searched := true }

/-! ### The steps -/

/-- The events: a request that `TaskInfo::load` has accepted, with the uuid and the time that a search
request is given; the spawn of the next task; an act of the child; its reply; its end, with what
`WEXITSTATUS` gives; and the monitor on an entry of the pool. -/
inductive Event
  | request (request : Value) (newUuid ctime : List Byte)
  | spawn (forked : Bool)
  | child (act : Act)
  | reply
  | sigchld (exitStatus : ℕ)
  | monitor (uuid : List Byte) (now : ℤ) (taskStaleInterval : BitVec 16)

/-- A uuid that is not in use. -/
def Fresh (d : Daemon) (uuid : List Byte) : Prop :=
  d.taskPool uuid = none ∧ uuid ∉ d.pendingQueue ∧ ∀ child ∈ d.running, child.uuid ≠ uuid

instance (d : Daemon) (uuid : List Byte) : Decidable (Fresh d uuid) := by
  unfold Fresh
  infer_instance

/-- A child that fails an assertion ends, with `SIGSEGVERR`. -/
def childStep (d : Daemon) (child : Child) (act : Act) : Daemon :=
  match childAct zone child act with
  | some after => { d with running := some after }
  | none => { d with running := some { child with aborted := true }, asserted := true }

/-- One step. -/
def step (d : Daemon) (event : Event) : Option Daemon :=
  if d.exited then none
  else
    match event with
    | .request request newUuid ctime =>
      if getStrValByKey request .mode = some (literal "search") → Fresh d (cString newUuid) then
        some ((handleRequest d request (cString newUuid) ctime).getD d.abort)
      else none
    | .spawn forked =>
      match d.running, d.pendingQueue with
      | none, uuid :: pending => some ((takePending d uuid pending forked).getD d.abort)
      | _, _ => none
    | .child act =>
      d.running.bind fun child ↦
        if child.aborted = false ∧ act.Enabled child then some (childStep zone d child act) else none
    | .reply =>
      d.running.bind fun child ↦
        if child.aborted = false ∧ child.searched = true then
          some ((readReply d child).getD d.abort)
        else none
    | .sigchld exitStatus =>
      d.running.map fun child ↦
        (subprocessCleaness d child (if child.aborted then sigsegvErr else exitStatus)).getD d.abort
    | .monitor uuid now taskStaleInterval =>
      (d.taskPool uuid).map fun task ↦
        (cleaness zone d uuid task now taskStaleInterval).getD { d with asserted := true }

/-! ### Complete requests -/

/-- `stime` or `etime` of a request as the `DfsParquetReader` takes it. -/
def timeOf (request : Value) (member : Member) : ℤ :=
  strftimeToTimestamp zone (characters ((getStrValByKey request member).getD [])) timeFormat

/-- The search options, as far as the search of a child reads them: those of `is_match_session` count
where a row can pass the test of its time. -/
structure Options (request : Value) : Prop where
  stime : HasString request .stime
  etime : HasString request .etime
  limit : HasUint request .limit
  session : (∃ timeVal, InTime (timeOf zone request .stime, timeOf zone request .etime) timeVal) →
    ∀ member ∈ sessionMembers, HasUint request member

/-- The members that the daemon needs as it handles a request. -/
structure Handled (d : Daemon) (request : Value) : Prop where
  uuid : HasString request .uuid
  mode : HasString request .mode
  status : HasMember request .status
  fileSize : getStrValByKey request .mode = some (literal "status") →
    (∃ uuid ∈ getStrValByKey request .uuid, (d.taskPool uuid).isSome) → HasMember request .fileSize
  fileName : getStrValByKey request .mode = some (literal "search") → HasString request .fileName
  ctime : getStrValByKey request .mode = some (literal "search") → HasMember request .ctime

/-- The members that a request needs: those of its mode and, for a search, the file size that a client
may ask for and the search options. -/
structure Complete (d : Daemon) (request : Value) : Prop extends Handled d request where
  searchSize : getStrValByKey request .mode = some (literal "search") → HasUint request .fileSize
  options : getStrValByKey request .mode = some (literal "search") → Options zone request

/-- Every request is complete when it arrives. -/
def complete (d : Daemon) : Event → Prop
  | .request request _ _ => Complete zone d request
  | _ => True

/-- What an entry of the pool has. -/
structure Stored (task : Value) : Prop extends Options zone task where
  uuid : HasString task .uuid
  ctime : HasString task .ctime
  status : HasString task .status
  fileName : HasString task .fileName
  fileSize : HasUint task .fileSize

/-! ### What the accesses need -/

theorem isSome_mapM {α β : Type} (f : α → Option β) (items : List α) :
    (items.mapM f).isSome = true ↔ ∀ item ∈ items, (f item).isSome = true := by
  induction items with
  | nil => exact ⟨fun _ _ hmem ↦ absurd hmem List.not_mem_nil, fun _ ↦ rfl⟩
  | cons item items ih =>
    rw [List.mapM_cons, List.forall_mem_cons, ← ih]
    cases f item with
    | none => exact ⟨fun h ↦ absurd h Bool.false_ne_true, fun h ↦ absurd h.1 Bool.false_ne_true⟩
    | some value =>
      cases items.mapM f with
      | none => exact ⟨fun h ↦ absurd h Bool.false_ne_true, fun h ↦ absurd h.2 Bool.false_ne_true⟩
      | some values => exact ⟨fun _ ↦ ⟨rfl, rfl⟩, fun _ ↦ rfl⟩

theorem isSome_isMatchSession (request : Value) :
    (isMatchSession request).isSome = true ↔ ∀ member ∈ sessionMembers, HasUint request member :=
  isSome_mapM _ _

/-- The rows of a file need the members of `is_match_session` where one of them passes the test of its
time. -/
theorem isSome_visitRows (request : Value) (times : ℤ × ℤ) (timeVals : List (BitVec 64)) :
    (visitRows request times timeVals).isSome = true ↔
      ((∃ timeVal ∈ timeVals, InTime times timeVal) →
        ∀ member ∈ sessionMembers, HasUint request member) := by
  induction timeVals with
  | nil => exact ⟨fun _ ⟨_, hmem, _⟩ ↦ absurd hmem List.not_mem_nil, fun _ ↦ rfl⟩
  | cons timeVal timeVals ih =>
    rw [visitRows]
    split_ifs with htime
    · have hsession := isSome_isMatchSession request
      have hneeds : ((∃ other ∈ timeVal :: timeVals, InTime times other) →
          ∀ member ∈ sessionMembers, HasUint request member) ↔
            ∀ member ∈ sessionMembers, HasUint request member :=
        ⟨fun h ↦ h ⟨timeVal, List.mem_cons_self .., htime⟩, fun h _ ↦ h⟩
      rw [hneeds, ← hsession]
      cases hmatch : isMatchSession request with
      | none => exact Iff.rfl
      | some values =>
        refine ⟨fun _ ↦ rfl, fun _ ↦ ih.mpr fun _ ↦ hsession.mp ?_⟩
        rw [hmatch]
        rfl
    · rw [ih]
      refine imp_congr_left ⟨?_, ?_⟩
      · rintro ⟨other, hmem, hother⟩
        exact ⟨other, List.mem_cons_of_mem timeVal hmem, hother⟩
      · rintro ⟨other, hmem, hother⟩
        rcases List.mem_cons.mp hmem with rfl | hmem
        · exact absurd hother htime
        · exact ⟨other, hmem, hother⟩

/-- Two documents whose search options are the same. -/
def SameOptions (request next : Value) : Prop :=
  ∀ member : Member, member.isOption = true →
    getStrValByKey next member = getStrValByKey request member ∧
      getIntValByKey next member = getIntValByKey request member

theorem SameOptions.trans {first second third : Value} (hfirst : SameOptions first second)
    (hsecond : SameOptions second third) : SameOptions first third := fun member hmember ↦
  ⟨(hsecond member hmember).1.trans (hfirst member hmember).1,
    (hsecond member hmember).2.trans (hfirst member hmember).2⟩

section Same

variable {request next : Value} {member : Member}

theorem sameOptions_setStr {val : List Byte} (hset : setStrValByKey request member val = some next)
    (hmember : member.isOption = false) : SameOptions request next := by
  intro other hother
  have hne : other ≠ member := by
    rintro rfl
    exact Bool.false_ne_true (hmember.symm.trans hother)
  rw [getStrValByKey_setStrValByKey hset, getIntValByKey_setStrValByKey hset, if_neg hne, if_neg hne]
  exact ⟨rfl, rfl⟩

theorem sameOptions_setInt {val : BitVec 64} (hset : setIntValByKey request member val = some next)
    (hmember : member.isOption = false) : SameOptions request next := by
  intro other hother
  have hne : other ≠ member := by
    rintro rfl
    exact Bool.false_ne_true (hmember.symm.trans hother)
  rw [getStrValByKey_setIntValByKey hset, getIntValByKey_setIntValByKey hset, if_neg hne, if_neg hne]
  exact ⟨rfl, rfl⟩

theorem SameOptions.timeOf_eq (hsame : SameOptions request next)
    (hmember : member.isOption = true) : timeOf zone next member = timeOf zone request member := by
  rw [timeOf, timeOf, (hsame member hmember).1]

theorem SameOptions.options_iff (hsame : SameOptions request next) :
    Options zone next ↔ Options zone request := by
  have hstring : ∀ member : Member, member.isOption = true →
      (HasString next member ↔ HasString request member) := fun member hmember ↦ by
    rw [HasString, HasString, (hsame member hmember).1]
  have huint : ∀ member : Member, member.isOption = true →
      (HasUint next member ↔ HasUint request member) := fun member hmember ↦ by
    rw [HasUint, HasUint, (hsame member hmember).2]
  have hsession : (∀ member ∈ sessionMembers, HasUint next member) ↔
      ∀ member ∈ sessionMembers, HasUint request member := by
    refine forall₂_congr fun member hmem ↦ huint member ?_
    exact (by decide : ∀ member ∈ sessionMembers, Member.isOption member = true) member hmem
  constructor
  · intro options
    refine ⟨(hstring _ rfl).mp options.stime, (hstring _ rfl).mp options.etime,
      (huint _ rfl).mp options.limit, fun htime ↦ hsession.mp (options.session ?_)⟩
    rwa [hsame.timeOf_eq zone rfl, hsame.timeOf_eq zone rfl]
  · intro options
    refine ⟨(hstring _ rfl).mpr options.stime, (hstring _ rfl).mpr options.etime,
      (huint _ rfl).mpr options.limit, fun htime ↦ hsession.mpr (options.session ?_)⟩
    rwa [← hsame.timeOf_eq zone rfl, ← hsame.timeOf_eq zone rfl]

end Same

/-- A setter of a string other than a search option can be called on an entry of the pool, and leaves
one. -/
theorem Stored.setStr {task : Value} (stored : Stored zone task) {member : Member}
    (hmember : HasString task member) (hoption : member.isOption = false) (val : List Byte) :
    ∃ next, setStrValByKey task member val = some next ∧ Stored zone next ∧
      SameOptions task next := by
  obtain ⟨next, hset⟩ := Option.isSome_iff_exists.mp
    ((isSome_setStrValByKey task member val).mpr hmember.hasMember)
  have hsame := sameOptions_setStr hset hoption
  have hstring : ∀ other, HasString task other → HasString next other := by
    intro other hother
    rw [HasString, getStrValByKey_setStrValByKey hset]
    split_ifs
    · rfl
    · exact hother
  have hsize : HasUint next .fileSize := by
    have hne : Member.fileSize ≠ member := by
      rintro rfl
      obtain ⟨_, hval⟩ := Option.isSome_iff_exists.mp hmember
      obtain ⟨value, hindex, hget⟩ := Option.bind_eq_some_iff.mp hval
      obtain ⟨_, hint⟩ := Option.isSome_iff_exists.mp stored.fileSize
      rw [getIntValByKey, hindex, Option.bind_some] at hint
      cases value with
      | uint number => cases hget
      | _ => cases hint
    rw [HasUint, getIntValByKey_setStrValByKey hset, if_neg hne]
    exact stored.fileSize
  exact ⟨next, hset,
    { toOptions := (hsame.options_iff zone).mpr stored.toOptions
      uuid := hstring _ stored.uuid
      ctime := hstring _ stored.ctime
      status := hstring _ stored.status
      fileName := hstring _ stored.fileName
      fileSize := hsize }, hsame⟩

/-- So can the setter of the file size. -/
theorem Stored.setFileSize {task : Value} (stored : Stored zone task) (val : BitVec 64) :
    ∃ next, setIntValByKey task .fileSize val = some next ∧ Stored zone next ∧
      SameOptions task next := by
  obtain ⟨next, hset⟩ := Option.isSome_iff_exists.mp
    ((isSome_setIntValByKey task .fileSize val).mpr stored.fileSize.hasMember)
  have hsame := sameOptions_setInt hset rfl
  have hstring : ∀ other, other ≠ .fileSize → HasString task other → HasString next other := by
    intro other hne hother
    rw [HasString, getStrValByKey_setIntValByKey hset, if_neg hne]
    exact hother
  have hsize : HasUint next .fileSize := by
    rw [HasUint, getIntValByKey_setIntValByKey hset, if_pos rfl]
    rfl
  exact ⟨next, hset,
    { toOptions := (hsame.options_iff zone).mpr stored.toOptions
      uuid := hstring _ (by decide) stored.uuid
      ctime := hstring _ (by decide) stored.ctime
      status := hstring _ (by decide) stored.status
      fileName := hstring _ (by decide) stored.fileName
      fileSize := hsize }, hsame⟩

/-- The document of a request has all that is read of an entry. -/
theorem stored_document (request : TaskRequest.TaskInfo) : Stored zone (document request) where
  stime := rfl
  etime := rfl
  limit := rfl
  session := fun _ member hmem ↦ by
    have hkind : ∀ member ∈ sessionMembers, member.isString = false := by decide
    have hschema := document_schema request member
    rwa [hkind member hmem, if_neg Bool.false_ne_true] at hschema
  uuid := rfl
  ctime := rfl
  status := rfl
  fileName := rfl
  fileSize := rfl

/-! ### The request of a client -/

section Request

variable {d : Daemon} {request : Value} {uuid newUuid ctime : List Byte}

theorem isSome_map_setStr {α : Type} (request : Value) (member : Member) (val : List Byte)
    (f : Value → α) :
    ((setStrValByKey request member val).map f).isSome = true ↔ HasMember request member := by
  rw [Option.isSome_map, isSome_setStrValByKey]

/-- Assumes: entries of the pool. -/
theorem isSome_statusRequest (hpool : ∀ task, d.taskPool uuid = some task → Stored zone task) :
    (statusRequest d request uuid).isSome = true ↔
      HasMember request .status ∧ ((d.taskPool uuid).isSome = true → HasMember request .fileSize) := by
  cases htask : d.taskPool uuid with
  | none =>
    rw [statusRequest, htask, isSome_map_setStr]
    exact ⟨fun h ↦ ⟨h, fun hsome ↦ absurd hsome Bool.false_ne_true⟩, fun h ↦ h.1⟩
  | some task =>
    have stored := hpool task htask
    obtain ⟨status, hstatus⟩ := Option.isSome_iff_exists.mp stored.status
    obtain ⟨fileSize, hfileSize⟩ := Option.isSome_iff_exists.mp stored.fileSize
    simp only [statusRequest, htask, hstatus, hfileSize, Option.bind_eq_bind, Option.bind_some]
    rw [← isSome_setStrValByKey request .status status]
    cases hset : setStrValByKey request .status status with
    | none => exact ⟨fun h ↦ absurd h Bool.false_ne_true, fun h ↦ absurd h.1 Bool.false_ne_true⟩
    | some next =>
      have hmember := hasMember_assign hset .fileSize
      rw [← hmember, ← isSome_setIntValByKey next .fileSize fileSize, Option.bind_some]
      cases setIntValByKey next .fileSize fileSize with
      | none => exact ⟨fun h ↦ absurd h Bool.false_ne_true, fun h ↦ h.2 rfl⟩
      | some last => exact ⟨fun _ ↦ ⟨rfl, fun _ ↦ rfl⟩, fun _ ↦ rfl⟩

theorem isSome_cancelRequest (d : Daemon) (request : Value) (uuid : List Byte) :
    (cancelRequest d request uuid).isSome = true ↔ HasMember request .status := by
  rw [cancelRequest]
  split_ifs
  · exact isSome_map_setStr ..
  · exact isSome_map_setStr ..

/-- A file name is a string before and after it is filled in, and nothing else changes. -/
theorem nameFile_eq {next : Value} (hnext : nameFile request newUuid = some next) :
    SameOptions request next ∧ (∀ member, HasMember next member ↔ HasMember request member) ∧
      (∀ member, member ≠ .fileName →
        getStrValByKey next member = getStrValByKey request member) ∧
      getIntValByKey next .fileSize = getIntValByKey request .fileSize ∧
      HasString next .fileName := by
  obtain ⟨fileName, hfileName, hnext⟩ := Option.bind_eq_some_iff.mp hnext
  split_ifs at hnext
  · refine ⟨sameOptions_setStr hnext rfl, hasMember_assign hnext, fun member hmember ↦ ?_, ?_, ?_⟩
    · rw [getStrValByKey_setStrValByKey hnext, if_neg hmember]
    · rw [getIntValByKey_setStrValByKey hnext, if_neg (by decide)]
    · rw [HasString, getStrValByKey_setStrValByKey hnext, if_pos rfl]
      rfl
  · obtain rfl := Option.some.inj hnext
    exact ⟨fun _ _ ↦ ⟨rfl, rfl⟩, fun _ ↦ Iff.rfl, fun _ _ ↦ rfl, rfl,
      Option.isSome_iff_exists.mpr ⟨fileName, hfileName⟩⟩

theorem isSome_nameFile (request : Value) (newUuid : List Byte) :
    (nameFile request newUuid).isSome = true ↔ HasString request .fileName := by
  rw [HasString]
  cases hfileName : getStrValByKey request .fileName with
  | none =>
    rw [nameFile, hfileName]
    exact Iff.rfl
  | some fileName =>
    have hmember : HasMember request .fileName :=
      HasString.hasMember (Option.isSome_iff_exists.mpr ⟨fileName, hfileName⟩)
    rw [nameFile, hfileName, Option.bind_some]
    split_ifs
    · exact ⟨fun _ ↦ rfl, fun _ ↦ (isSome_setStrValByKey ..).mpr hmember⟩
    · exact Iff.rfl

/-- A search request is stored where its accesses succeed: its search options and its file size are the
client's, the other members that are read later are strings. -/
theorem searchRequest_eq {next : Daemon} (hnext : searchRequest d request newUuid ctime = some next) :
    ∃ task, next = { (d.answer task).setTask newUuid task with
        pendingQueue := d.pendingQueue ++ [newUuid] } ∧
      SameOptions request task ∧ getIntValByKey task .fileSize = getIntValByKey request .fileSize ∧
      getStrValByKey task .status = some (cString (literal "PENDING")) ∧ HasString task .uuid ∧
      HasString task .ctime ∧ HasString task .fileName := by
  simp only [searchRequest, Option.bind_eq_bind, Option.bind_eq_some_iff] at hnext
  obtain ⟨pending, hpending, named, hnamed, filed, hfiled, task, htask, hnext⟩ := hnext
  obtain ⟨hsame, -, hstring, hsize, hfileName⟩ := nameFile_eq hfiled
  refine ⟨task, (Option.some.inj hnext).symm, ?_, ?_, ?_, ?_, ?_, ?_⟩
  · exact (sameOptions_setStr hpending rfl).trans ((sameOptions_setStr hnamed rfl).trans
      (hsame.trans (sameOptions_setStr htask rfl)))
  · rw [getIntValByKey_setStrValByKey htask, if_neg (by decide), hsize,
      getIntValByKey_setStrValByKey hnamed, if_neg (by decide),
      getIntValByKey_setStrValByKey hpending, if_neg (by decide)]
  · rw [getStrValByKey_setStrValByKey htask, if_neg (by decide), hstring _ (by decide),
      getStrValByKey_setStrValByKey hnamed, if_neg (by decide),
      getStrValByKey_setStrValByKey hpending, if_pos rfl]
  · rw [HasString, getStrValByKey_setStrValByKey htask, if_neg (by decide), hstring _ (by decide),
      getStrValByKey_setStrValByKey hnamed, if_pos rfl]
    rfl
  · rw [HasString, getStrValByKey_setStrValByKey htask, if_pos rfl]
    rfl
  · rw [HasString, getStrValByKey_setStrValByKey htask, if_neg (by decide)]
    exact hfileName

theorem isSome_searchRequest (d : Daemon) (newUuid ctime : List Byte)
    (huuid : HasString request .uuid) :
    (searchRequest d request newUuid ctime).isSome = true ↔
      HasMember request .status ∧ HasString request .fileName ∧ HasMember request .ctime := by
  rw [← isSome_setStrValByKey request .status (literal "PENDING")]
  cases hpending : setStrValByKey request .status (literal "PENDING") with
  | none =>
    simp only [searchRequest, hpending, Option.bind_eq_bind, Option.bind_none]
    exact ⟨fun h ↦ absurd h Bool.false_ne_true, fun h ↦ absurd h.1 Bool.false_ne_true⟩
  | some pending =>
    obtain ⟨named, hnamed⟩ := Option.isSome_iff_exists.mp
      ((isSome_setStrValByKey pending .uuid newUuid).mpr
        ((hasMember_assign hpending .uuid).mpr huuid.hasMember))
    have hfileName : HasString named .fileName ↔ HasString request .fileName := by
      rw [HasString, HasString, getStrValByKey_setStrValByKey hnamed, if_neg (by decide),
        getStrValByKey_setStrValByKey hpending, if_neg (by decide)]
    simp only [searchRequest, hpending, hnamed, Option.bind_eq_bind, Option.bind_some]
    rw [← hfileName, ← isSome_nameFile named newUuid]
    cases hfiled : nameFile named newUuid with
    | none => exact ⟨fun h ↦ absurd h Bool.false_ne_true, fun h ↦ absurd h.2.1 Bool.false_ne_true⟩
    | some filed =>
      have hctime : HasMember request .ctime ↔ HasMember filed .ctime :=
        ((hasMember_assign hpending .ctime).symm.trans (hasMember_assign hnamed .ctime).symm).trans
          ((nameFile_eq hfiled).2.1 .ctime).symm
      rw [hctime, ← isSome_setStrValByKey filed .ctime ctime, Option.bind_some]
      cases setStrValByKey filed .ctime ctime with
      | none => exact ⟨fun h ↦ absurd h Bool.false_ne_true, fun h ↦ absurd h.2.2 Bool.false_ne_true⟩
      | some task => exact ⟨fun _ ↦ ⟨rfl, rfl, rfl⟩, fun _ ↦ rfl⟩

theorem handleRequest_of_get {uuid mode : List Byte}
    (huuid : getStrValByKey request .uuid = some uuid)
    (hmode : getStrValByKey request .mode = some mode) :
    handleRequest d request newUuid ctime =
      if mode = literal "status" then statusRequest d request uuid
      else if mode = literal "cancel" then cancelRequest d request uuid
      else if mode = literal "search" then searchRequest d request newUuid ctime
      else (setStrValByKey request .status (literal "INVALID")).map d.answer := by
  rw [handleRequest, huuid, hmode]
  rfl

/-- A request gets through without a failed assertion exactly if it has the members of its mode.
Assumes: entries of the pool. -/
theorem isSome_handleRequest (hpool : ∀ uuid task, d.taskPool uuid = some task → Stored zone task)
    (newUuid ctime : List Byte) :
    (handleRequest d request newUuid ctime).isSome = true ↔ Handled d request := by
  cases huuid : getStrValByKey request .uuid with
  | none =>
    have hnone : handleRequest d request newUuid ctime = none := by
      rw [handleRequest, huuid]
      rfl
    rw [hnone]
    refine ⟨fun h ↦ absurd h Bool.false_ne_true, fun handled ↦ ?_⟩
    have hstring := handled.uuid
    rwa [HasString, huuid] at hstring
  | some uuid =>
    cases hmode : getStrValByKey request .mode with
    | none =>
      have hnone : handleRequest d request newUuid ctime = none := by
        rw [handleRequest, huuid, hmode]
        rfl
      rw [hnone]
      refine ⟨fun h ↦ absurd h Bool.false_ne_true, fun handled ↦ ?_⟩
      have hstring := handled.mode
      rwa [HasString, hmode] at hstring
    | some mode =>
      have hhasUuid : HasString request .uuid := Option.isSome_iff_exists.mpr ⟨uuid, huuid⟩
      have hhasMode : HasString request .mode := Option.isSome_iff_exists.mpr ⟨mode, hmode⟩
      -- what is asked of one mode is not asked of another
      have hother : ∀ {name : List Byte} {needs : Prop}, mode ≠ name →
          getStrValByKey request .mode = some name → needs := fun hne heq ↦
        absurd (Option.some.inj (hmode.symm.trans heq)) hne
      rw [handleRequest_of_get huuid hmode]
      split_ifs with hstatus hcancel hsearch
      · subst hstatus
        rw [isSome_statusRequest zone (hpool uuid)]
        constructor
        · rintro ⟨hmember, hsize⟩
          refine ⟨hhasUuid, hhasMode, hmember, fun _ ⟨other, hother, hsome⟩ ↦ hsize ?_,
            hother (by decide), hother (by decide)⟩
          rwa [Option.some.inj (huuid.symm.trans hother)]
        · exact fun handled ↦ ⟨handled.status, fun hsome ↦ handled.fileSize hmode ⟨uuid, huuid, hsome⟩⟩
      · subst hcancel
        rw [isSome_cancelRequest]
        exact ⟨fun hmember ↦ ⟨hhasUuid, hhasMode, hmember, hother (by decide), hother (by decide),
          hother (by decide)⟩, fun handled ↦ handled.status⟩
      · subst hsearch
        rw [isSome_searchRequest d newUuid ctime hhasUuid]
        exact ⟨fun h ↦ ⟨hhasUuid, hhasMode, h.1, hother (by decide), fun _ ↦ h.2.1, fun _ ↦ h.2.2⟩,
          fun handled ↦ ⟨handled.status, handled.fileName hmode, handled.ctime hmode⟩⟩
      · rw [isSome_map_setStr]
        exact ⟨fun hmember ↦ ⟨hhasUuid, hhasMode, hmember, hother hstatus, hother hsearch,
          hother hsearch⟩, fun handled ↦ handled.status⟩

theorem statusRequest_eq {next : Daemon} (hnext : statusRequest d request uuid = some next) :
    ∃ reply, next = d.answer reply := by
  rw [statusRequest] at hnext
  cases htask : d.taskPool uuid with
  | none =>
    rw [htask] at hnext
    obtain ⟨reply, -, hreply⟩ := Option.map_eq_some_iff.mp hnext
    exact ⟨reply, hreply.symm⟩
  | some task =>
    simp only [htask, Option.bind_eq_bind, Option.bind_eq_some_iff] at hnext
    obtain ⟨-, -, -, -, -, -, reply, -, hreply⟩ := hnext
    exact ⟨reply, (Option.some.inj hreply).symm⟩

/-- A request in another mode is answered, and one in the mode `search` is stored. -/
theorem handleRequest_eq {next : Daemon} (hnext : handleRequest d request newUuid ctime = some next) :
    (getStrValByKey request .mode = some (literal "search") ∧
        searchRequest d request newUuid ctime = some next) ∨
      (getStrValByKey request .mode ≠ some (literal "search") ∧
        ∃ reply, next = d.answer reply) := by
  have hreply : ∀ {val}, (setStrValByKey request .status val).map d.answer = some next →
      ∃ reply, next = d.answer reply := by
    intro val hmap
    obtain ⟨reply, -, hreply⟩ := Option.map_eq_some_iff.mp hmap
    exact ⟨reply, hreply.symm⟩
  obtain ⟨uuid, huuid, hrest⟩ := Option.bind_eq_some_iff.mp hnext
  obtain ⟨mode, hmode, -⟩ := Option.bind_eq_some_iff.mp hrest
  rw [handleRequest_of_get huuid hmode] at hnext
  rw [hmode]
  split_ifs at hnext with hstatus hcancel hsearch
  · subst hstatus
    exact .inr ⟨by decide, statusRequest_eq hnext⟩
  · subst hcancel
    rw [cancelRequest] at hnext
    split_ifs at hnext
    · exact .inr ⟨by decide, hreply hnext⟩
    · exact .inr ⟨by decide, hreply hnext⟩
  · exact .inl ⟨congrArg some hsearch, hnext⟩
  · exact .inr ⟨fun heq ↦ hsearch (Option.some.inj heq), hreply hnext⟩

end Request

/-! ### The functions on entries of the pool -/

section Entries

variable {d : Daemon}

theorem setTask_setTask (d : Daemon) (uuid : List Byte) (first second : Value) :
    (d.setTask uuid first).setTask uuid second = d.setTask uuid second := by
  rw [Daemon.setTask, Daemon.setTask, Function.update_idem]
  rfl

/-- A missing entry is made with all of its members. -/
theorem stored_task (hpool : ∀ uuid task, d.taskPool uuid = some task → Stored zone task)
    (uuid : List Byte) : Stored zone (d.task uuid) := by
  rw [Daemon.task]
  cases htask : d.taskPool uuid with
  | none => exact stored_document zone _
  | some task => exact hpool uuid task htask

/-- A task that is not canceled is forked with its search options. -/
theorem takePending_forked {uuid status : List Byte} (pending : List (List Byte))
    (hstatus : getStrValByKey (d.task uuid) .status = some status)
    (hcanceled : status ≠ literal "CANCELED") :
    ∃ task, setStrValByKey (d.task uuid) .status (literal "RUNNING") = some task ∧
      takePending d uuid pending true = some { d.setTask uuid task with
        pendingQueue := pending
        running := some (newChild uuid task) } := by
  have hmember : HasMember (d.task uuid) .status :=
    HasString.hasMember (Option.isSome_iff_exists.mpr ⟨status, hstatus⟩)
  obtain ⟨task, htask⟩ := Option.isSome_iff_exists.mp
    ((isSome_setStrValByKey (d.task uuid) .status (literal "RUNNING")).mpr hmember)
  refine ⟨task, htask, ?_⟩
  simp only [takePending, hstatus, htask, Option.bind_eq_bind, Option.bind_some, if_neg hcanceled,
    if_true]
  rw [← setTask_setTask d uuid (d.task uuid) task]
  rfl

/-- A task is taken from the queue: it is canceled or cannot be forked, or it is forked. -/
theorem takePending_stored {uuid : List Byte} (stored : Stored zone (d.task uuid))
    (pending : List (List Byte)) (forked : Bool) :
    ∃ task, Stored zone task ∧
      (takePending d uuid pending forked =
          some { d.setTask uuid task with pendingQueue := pending } ∨
        forked = true ∧ takePending d uuid pending forked = some { d.setTask uuid task with
          pendingQueue := pending
          running := some (newChild uuid task) }) := by
  obtain ⟨status, hstatus⟩ := Option.isSome_iff_exists.mp stored.status
  by_cases hcanceled : status = literal "CANCELED"
  · refine ⟨d.task uuid, stored, .inl ?_⟩
    simp only [takePending, hstatus, Option.bind_eq_bind, Option.bind_some, if_pos hcanceled]
    rfl
  · obtain ⟨task, htask, hstored, -⟩ := stored.setStr zone stored.status rfl (literal "RUNNING")
    cases forked with
    | true =>
      obtain ⟨other, hother, htaken⟩ := takePending_forked pending hstatus hcanceled
      obtain rfl := Option.some.inj (htask.symm.trans hother)
      exact ⟨task, hstored, .inr ⟨rfl, htaken⟩⟩
    | false =>
      obtain ⟨failed, hfailed, hstored', -⟩ :=
        hstored.setStr zone hstored.status rfl (literal "FAILED")
      refine ⟨failed, hstored', .inl ?_⟩
      simp only [takePending, hstatus, htask, hfailed, Option.bind_eq_bind, Option.bind_some,
        if_neg hcanceled, Bool.false_eq_true, if_false]
      rw [← setTask_setTask d uuid (d.task uuid) failed]
      rfl

theorem readReply_stored {child : Child} (hreply : Stored zone child.request)
    (hpool : ∀ uuid task, d.taskPool uuid = some task → Stored zone task) :
    ∃ uuid task running, Stored zone task ∧ (running = none ∨ running = d.running) ∧
      readReply d child = some { d.setTask uuid task with running := running } := by
  obtain ⟨uuid, huuid⟩ := Option.isSome_iff_exists.mp hreply.uuid
  obtain ⟨fileSize, hfileSize⟩ := Option.isSome_iff_exists.mp hreply.fileSize
  obtain ⟨sized, hsized, hstored, -⟩ := (stored_task zone hpool uuid).setFileSize zone fileSize
  obtain ⟨task, htask, hstored', -⟩ := hstored.setStr zone hstored.status rfl (literal "FINISHED")
  refine ⟨uuid, task, if child.uuid = uuid then none else d.running, hstored', ?_, ?_⟩
  · split_ifs
    · exact .inl rfl
    · exact .inr rfl
  · simp only [readReply, huuid, hfileSize, hsized, htask, Option.bind_eq_bind, Option.bind_some]
    rfl

theorem subprocessCleaness_stored {child : Child} (stored : Stored zone (d.task child.uuid))
    (exitStatus : ℕ) :
    subprocessCleaness d child exitStatus = some { d with running := none } ∨
      ∃ task, Stored zone task ∧ subprocessCleaness d child exitStatus =
        some { d.setTask child.uuid task with running := none } := by
  obtain ⟨fileName, hfileName⟩ := Option.isSome_iff_exists.mp stored.fileName
  rw [subprocessCleaness]
  split_ifs
  · obtain ⟨task, htask, hstored, -⟩ := stored.setStr zone stored.status rfl (literal "CANCELED")
    refine .inr ⟨task, hstored, ?_⟩
    simp only [hfileName, htask, Option.bind_eq_bind, Option.bind_some]
    rfl
  · obtain ⟨task, htask, hstored, -⟩ := stored.setStr zone stored.status rfl (literal "FAILED")
    refine .inr ⟨task, hstored, ?_⟩
    simp only [hfileName, htask, Option.bind_eq_bind, Option.bind_some]
    rfl
  · exact .inl rfl

theorem cleaness_stored {task : Value} (stored : Stored zone task) (d : Daemon) (uuid : List Byte)
    (now : ℤ) (taskStaleInterval : BitVec 16) :
    cleaness zone d uuid task now taskStaleInterval = some d ∨
      cleaness zone d uuid task now taskStaleInterval =
        some { d with taskPool := Function.update d.taskPool uuid none } := by
  obtain ⟨status, hstatus⟩ := Option.isSome_iff_exists.mp stored.status
  obtain ⟨name, huuid⟩ := Option.isSome_iff_exists.mp stored.uuid
  obtain ⟨ctime, hctime⟩ := Option.isSome_iff_exists.mp stored.ctime
  obtain ⟨fileName, hfileName⟩ := Option.isSome_iff_exists.mp stored.fileName
  simp only [cleaness, hstatus, huuid, hctime, hfileName, Option.bind_eq_bind, Option.bind_some]
  split_ifs
  · exact .inl rfl
  · exact .inr rfl
  · exact .inl rfl

end Entries

/-! ### The functions on the document of a child -/

/-- A child that has failed no assertion, with a document that was stored. -/
structure Intact (child : Child) : Prop where
  aborted : child.aborted = false
  stored : Stored zone child.request
  times : ∀ times ∈ child.times,
    times = (timeOf zone child.request .stime, timeOf zone child.request .etime)

theorem intact_newChild {request : Value} (stored : Stored zone request) (uuid : List Byte) :
    Intact zone (newChild uuid request) where
  aborted := rfl
  stored := stored
  times := fun _ hmem ↦ absurd hmem (Option.not_mem_none _)

/-- The constructor of the reader. -/
theorem childAct_construct {child : Child} (hstime : HasString child.request .stime)
    (hetime : HasString child.request .etime) :
    childAct zone child .construct = some { child with
      times := some (timeOf zone child.request .stime, timeOf zone child.request .etime) } := by
  obtain ⟨stime, hstime⟩ := Option.isSome_iff_exists.mp hstime
  obtain ⟨etime, hetime⟩ := Option.isSome_iff_exists.mp hetime
  simp only [childAct, timeOf, hstime, hetime, Option.bind_eq_bind, Option.bind_some,
    Option.getD_some]
  rfl

/-- A file of the store needs the limit, and the members of `is_match_session` where a row passes the
test of its time. -/
theorem isSome_childAct_decode {child : Child} {times : ℤ × ℤ} (htimes : child.times = some times)
    (timeVals : List (BitVec 64)) :
    (childAct zone child (.decode 8 timeVals)).isSome = true ↔
      HasUint child.request .limit ∧
        ((∃ timeVal ∈ timeVals, InTime times timeVal) →
          ∀ member ∈ sessionMembers, HasUint child.request member) := by
  rw [← isSome_visitRows]
  simp only [childAct, decodeParquet, htimes, Option.getD_some, Option.bind_eq_bind, ne_eq,
    not_true_eq_false, if_false]
  rw [HasUint]
  cases getIntValByKey child.request .limit with
  | none => exact ⟨fun h ↦ absurd h Bool.false_ne_true, fun h ↦ absurd h.1 Bool.false_ne_true⟩
  | some limit =>
    cases visitRows child.request times timeVals with
    | none => exact ⟨fun h ↦ absurd h Bool.false_ne_true, fun h ↦ absurd h.2 Bool.false_ne_true⟩
    | some _ => exact ⟨fun _ ↦ ⟨rfl, rfl⟩, fun _ ↦ rfl⟩

/-- A stored document has what a child accesses. -/
theorem childAct_intact {child : Child} (intact : Intact zone child) {act : Act}
    (henabled : act.Enabled child) :
    ∃ after, childAct zone child act = some after ∧ Intact zone after := by
  have stored := intact.stored
  obtain ⟨uuid, huuid⟩ := Option.isSome_iff_exists.mp stored.uuid
  obtain ⟨fileName, hfileName⟩ := Option.isSome_iff_exists.mp stored.fileName
  cases act with
  | construct =>
    refine ⟨_, childAct_construct zone stored.stime stored.etime, intact.aborted, stored, ?_⟩
    exact fun times hmem ↦ (Option.some.inj hmem).symm
  | log =>
    refine ⟨child, ?_, intact⟩
    simp only [childAct, huuid, Option.bind_eq_bind, Option.bind_some]
    rfl
  | decode numColumns timeVals =>
    obtain ⟨times, htimes⟩ := Option.isSome_iff_exists.mp henabled.1
    obtain rfl := intact.times times htimes
    have hafter : ∀ {after}, childAct zone child (.decode numColumns timeVals) = some after →
        after = child := by
      intro after hafter
      simp only [childAct, Option.bind_eq_bind, Option.bind_eq_some_iff] at hafter
      obtain ⟨-, -, hafter⟩ := hafter
      exact (Option.some.inj hafter).symm
    have hsome : (childAct zone child (.decode numColumns timeVals)).isSome = true := by
      by_cases hcolumns : numColumns = 8
      · subst hcolumns
        rw [isSome_childAct_decode zone htimes]
        refine ⟨stored.limit, ?_⟩
        rintro ⟨timeVal, -, htime⟩
        exact stored.session ⟨timeVal, htime⟩
      · simp only [childAct, decodeParquet, huuid, Option.bind_eq_bind, if_pos hcolumns,
          Option.map_some, Option.bind_some]
        rfl
    obtain ⟨after, htaken⟩ := Option.isSome_iff_exists.mp hsome
    obtain rfl := hafter htaken
    exact ⟨_, htaken, intact⟩
  | openPcap =>
    refine ⟨child, ?_, intact⟩
    simp only [childAct, huuid, hfileName, Option.bind_eq_bind, Option.bind_some]
    rfl
  | finish matchPacketSize =>
    obtain ⟨request, hset, hstored, hsame⟩ := stored.setFileSize zone matchPacketSize
    obtain ⟨name, hname⟩ := Option.isSome_iff_exists.mp hstored.uuid
    obtain ⟨size, hsize⟩ := Option.isSome_iff_exists.mp hstored.fileSize
    refine ⟨{ child with request := request, searched := true }, ?_, intact.aborted, hstored, ?_⟩
    · simp only [childAct, hset, hname, hsize, Option.bind_eq_bind, Option.bind_some]
      rfl
    · intro times hmem
      rw [hsame.timeOf_eq zone rfl, hsame.timeOf_eq zone rfl]
      exact intact.times times hmem

end Zone

end CppLearn.SearchEngine.MemberAccess
