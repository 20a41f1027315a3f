import Mathlib.Data.BitVec
import CppLearn.Foundation.DecimalText

/-!
# Search requests

A request is a JSON object with a fixed set of members, made with every member empty or zero by its
constructor, filled in by the client and carried by the daemon as the record of a task. The member
`status` only ever holds the empty string or the name of a `Status`.
-/

set_option autoImplicit false
set_option relaxedAutoImplicit false

namespace CppLearn.SearchEngine.TaskRequest

open Foundation.DecimalText

/-- `BUF_SIZE`. -/
def bufSize : ℕ := 128

/-- `SIGTERMERR`. -/
def sigtermErr : ℕ := 40

/-- `SIGSEGVERR`. -/
def sigsegvErr : ℕ := 50

/-- `Status`, the values of `status_map`. -/
inductive Status
  | invalid
  | pending
  | running
  | finished
  | canceled
  | failed
  | deleted
  deriving DecidableEq, Repr

/-- `TaskInfo`, by the members of its document. The empty `status` is none. -/
structure TaskInfo where
  mode : Text
  uuid : Text
  ctime : Text
  status : Option Status
  stime : Text
  etime : Text
  fileName : Text
  fileSize : BitVec 64
  sip : BitVec 64
  dip : BitVec 64
  sport : BitVec 64
  dport : BitVec 64
  proto : BitVec 64
  limit : BitVec 64
  deriving DecidableEq

/-- The constructor. -/
def taskInfo : TaskInfo :=
  { mode := []
    uuid := []
    ctime := []
    status := none
    stime := []
    etime := []
    fileName := []
    fileSize := 0
    sip := 0
    dip := 0
    sport := 0
    dport := 0
    proto := 0
    limit := 0 }

end CppLearn.SearchEngine.TaskRequest
