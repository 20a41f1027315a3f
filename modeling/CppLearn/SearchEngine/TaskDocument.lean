import CppLearn.Foundation.JsonText
import CppLearn.SearchEngine.TaskRequest

/-!
# The document of a task

`TaskInfo` keeps its members in a JSON document. Its constructor makes all of them (`taskInfo`), and
`load` replaces the document by whatever the text holds. An accessor takes the first member of its name
and fails an assertion of the parser's library where the document is no object, the member is missing
or, for a getter, the member has another type. A setter changes its member alone (`index_assign`).
-/

set_option autoImplicit false
set_option relaxedAutoImplicit false

namespace CppLearn.SearchEngine.TaskDocument

open Foundation.ByteOrder Foundation.JsonText

/-! ### C strings -/

/-- A C string, up to its terminating null byte. -/
def cString (buffer : List Byte) : List Byte := buffer.takeWhile (· ≠ 0)

theorem cString_of_not_mem {bytes : List Byte} (hbytes : (0 : Byte) ∉ bytes) :
    cString bytes = bytes := by
  refine List.takeWhile_eq_self_iff.mpr fun byte hmem ↦ ?_
  rw [decide_eq_true_eq]
  rintro rfl
  exact hbytes hmem

@[simp] theorem cString_cString (buffer : List Byte) : cString (cString buffer) = cString buffer := by
  refine cString_of_not_mem fun hmem ↦ ?_
  have hzero := List.mem_takeWhile_imp hmem
  exact absurd hzero (by decide)

/-! ### The members -/

/-- The members of the schema. -/
inductive Member
  | mode
  | uuid
  | ctime
  | status
  | stime
  | etime
  | fileName
  | fileSize
  | sip
  | dip
  | sport
  | dport
  | proto
  | limit
  deriving DecidableEq

/-- The name of a member. -/
def Member.key : Member → List Byte
  | mode => ascii "mode".toList
  | uuid => ascii "uuid".toList
  | ctime => ascii "ctime".toList
  | status => ascii "status".toList
  | stime => ascii "stime".toList
  | etime => ascii "etime".toList
  | fileName => ascii "file_name".toList
  | fileSize => ascii "file_size".toList
  | sip => ascii "sip".toList
  | dip => ascii "dip".toList
  | sport => ascii "sport".toList
  | dport => ascii "dport".toList
  | proto => ascii "proto".toList
  | limit => ascii "limit".toList

theorem key_injective : Function.Injective Member.key := by
  intro first second hkey
  cases first <;> cases second <;> first | rfl | exact absurd hkey (by decide)

/-- The first member of a name. -/
def lookup (key : List Byte) : List (List Byte × Value) → Option Value
  | [] => none
  | (name, value) :: rest => if name = key then some value else lookup key rest

/-- The first member of a name given another value. -/
def replace (key : List Byte) (value : Value) : List (List Byte × Value) → List (List Byte × Value)
  | [] => []
  | (name, old) :: rest =>
    if name = key then (name, value) :: rest else (name, old) :: replace key value rest

theorem lookup_replace (key other : List Byte) (value : Value) (members : List (List Byte × Value)) :
    lookup other (replace key value members) =
      if other = key then (lookup key members).map fun _ ↦ value else lookup other members := by
  induction members with
  | nil =>
    rw [replace, lookup, lookup, Option.map_none, ite_self]
  | cons member rest ih =>
    obtain ⟨name, old⟩ := member
    by_cases hname : name = key
    · rw [replace, if_pos hname, lookup, lookup, if_pos hname, lookup]
      by_cases hother : other = key
      · rw [if_pos (hname.trans hother.symm), if_pos hother, Option.map_some]
      · rw [if_neg fun heq ↦ hother (heq.symm.trans hname), if_neg hother,
          if_neg fun heq ↦ hother (heq.symm.trans hname)]
    · rw [replace, if_neg hname, lookup, lookup, if_neg hname, lookup, ih]
      by_cases hother : other = key
      · rw [if_neg fun heq ↦ hname (heq.trans hother), if_pos hother, if_pos hother]
      · rw [if_neg hother, if_neg hother]

/-! ### The accessors -/

/-- `m_doc[key]` -/
def index (doc : Value) (member : Member) : Option Value :=
  match doc with
  | .object members => lookup member.key members
  | _ => none

/-- `m_doc[key]` given another value. -/
def assign (doc : Value) (member : Member) (value : Value) : Option Value :=
  match doc with
  | .object members =>
    if (lookup member.key members).isSome then some (.object (replace member.key value members))
    else none
  | _ => none

/-- `GetString`, as a C string. -/
def getString : Value → Option (List Byte)
  | .string bytes => some (cString bytes)
  | _ => none

/-- `GetUint64` -/
def getUint64 : Value → Option (BitVec 64)
  | .uint value => some value
  | _ => none

/-- `TaskInfo::get_str_val_by_key` -/
def getStrValByKey (doc : Value) (member : Member) : Option (List Byte) :=
  (index doc member).bind getString

/-- `TaskInfo::set_str_val_by_key` -/
def setStrValByKey (doc : Value) (member : Member) (val : List Byte) : Option Value :=
  assign doc member (.string (cString val))

/-- `TaskInfo::get_int_val_by_key` -/
def getIntValByKey (doc : Value) (member : Member) : Option (BitVec 64) :=
  (index doc member).bind getUint64

/-- `TaskInfo::set_int_val_by_key` -/
def setIntValByKey (doc : Value) (member : Member) (val : BitVec 64) : Option Value :=
  assign doc member (.uint val)

/-- A setter finds what `m_doc[key]` finds. -/
theorem isSome_assign (doc : Value) (member : Member) (value : Value) :
    (assign doc member value).isSome = (index doc member).isSome := by
  cases doc with
  | object members =>
    rw [assign, index]
    split_ifs with hmember
    · exact hmember.symm
    · exact (Bool.not_eq_true _ ▸ hmember).symm
  | _ => rfl

/-- A setter changes its member alone. -/
theorem index_assign {doc next : Value} {member : Member} {value : Value}
    (hassign : assign doc member value = some next) (other : Member) :
    index next other = if other = member then some value else index doc other := by
  cases doc with
  | object members =>
    rw [assign] at hassign
    split_ifs at hassign with hmember
    obtain rfl := Option.some.inj hassign
    rw [index, index, lookup_replace]
    by_cases hother : other = member
    · obtain ⟨old, hold⟩ := Option.isSome_iff_exists.mp hmember
      rw [if_pos hother, if_pos (congrArg Member.key hother), hold, Option.map_some]
    · rw [if_neg hother, if_neg fun heq ↦ hother (key_injective heq)]
  | _ => cases hassign

/-! ### Members of a type -/

/-- The member is there. -/
def HasMember (doc : Value) (member : Member) : Prop := (index doc member).isSome

/-- The member is there, with a string. -/
def HasString (doc : Value) (member : Member) : Prop := (getStrValByKey doc member).isSome

/-- The member is there, with an unsigned integer of 64 bits. -/
def HasUint (doc : Value) (member : Member) : Prop := (getIntValByKey doc member).isSome

instance (doc : Value) (member : Member) : Decidable (HasMember doc member) :=
  inferInstanceAs (Decidable (_ = true))

instance (doc : Value) (member : Member) : Decidable (HasString doc member) :=
  inferInstanceAs (Decidable (_ = true))

instance (doc : Value) (member : Member) : Decidable (HasUint doc member) :=
  inferInstanceAs (Decidable (_ = true))

theorem HasString.hasMember {doc : Value} {member : Member} (hstring : HasString doc member) :
    HasMember doc member := by
  obtain ⟨val, hval⟩ := Option.isSome_iff_exists.mp hstring
  obtain ⟨value, hvalue, -⟩ := Option.bind_eq_some_iff.mp hval
  exact Option.isSome_iff_exists.mpr ⟨value, hvalue⟩

theorem HasUint.hasMember {doc : Value} {member : Member} (huint : HasUint doc member) :
    HasMember doc member := by
  obtain ⟨val, hval⟩ := Option.isSome_iff_exists.mp huint
  obtain ⟨value, hvalue, -⟩ := Option.bind_eq_some_iff.mp hval
  exact Option.isSome_iff_exists.mpr ⟨value, hvalue⟩

section Setters

variable {doc next : Value} {member : Member}

theorem isSome_setStrValByKey (doc : Value) (member : Member) (val : List Byte) :
    (setStrValByKey doc member val).isSome = true ↔ HasMember doc member := by
  rw [setStrValByKey, isSome_assign, HasMember]

theorem isSome_setIntValByKey (doc : Value) (member : Member) (val : BitVec 64) :
    (setIntValByKey doc member val).isSome = true ↔ HasMember doc member := by
  rw [setIntValByKey, isSome_assign, HasMember]

/-- A setter makes and removes no member. -/
theorem hasMember_assign {value : Value} (hassign : assign doc member value = some next)
    (other : Member) : HasMember next other ↔ HasMember doc other := by
  rw [HasMember, HasMember, index_assign hassign]
  split_ifs with hother
  · rw [hother, ← isSome_assign doc member value, hassign]
    rfl
  · exact Iff.rfl

/-- A string is read back, as the C string that it is. -/
theorem getStrValByKey_setStrValByKey {val : List Byte}
    (hset : setStrValByKey doc member val = some next) (other : Member) :
    getStrValByKey next other =
      if other = member then some (cString val) else getStrValByKey doc other := by
  rw [getStrValByKey, index_assign hset, getStrValByKey]
  split_ifs
  · rw [Option.bind_some, getString, cString_cString]
  · rfl

theorem getIntValByKey_setStrValByKey {val : List Byte}
    (hset : setStrValByKey doc member val = some next) (other : Member) :
    getIntValByKey next other = if other = member then none else getIntValByKey doc other := by
  rw [getIntValByKey, index_assign hset, getIntValByKey]
  split_ifs
  · rfl
  · rfl

theorem getStrValByKey_setIntValByKey {val : BitVec 64}
    (hset : setIntValByKey doc member val = some next) (other : Member) :
    getStrValByKey next other = if other = member then none else getStrValByKey doc other := by
  rw [getStrValByKey, index_assign hset, getStrValByKey]
  split_ifs
  · rfl
  · rfl

theorem getIntValByKey_setIntValByKey {val : BitVec 64}
    (hset : setIntValByKey doc member val = some next) (other : Member) :
    getIntValByKey next other =
      if other = member then some val else getIntValByKey doc other := by
  rw [getIntValByKey, index_assign hset, getIntValByKey]
  split_ifs
  · rfl
  · rfl

end Setters

/-! ### The documents of requests -/

/-- The name of a status. -/
def statusName : Option TaskRequest.Status → List Char
  | none => []
  | some .invalid => "INVALID".toList
  | some .pending => "PENDING".toList
  | some .running => "RUNNING".toList
  | some .finished => "FINISHED".toList
  | some .canceled => "CANCELED".toList
  | some .failed => "FAILED".toList
  | some .deleted => "DELETED".toList

/-- The members of a request. -/
def members (request : TaskRequest.TaskInfo) : List (List Byte × Value) :=
  [(Member.key .mode, .string (ascii request.mode)),
    (Member.key .uuid, .string (ascii request.uuid)),
    (Member.key .ctime, .string (ascii request.ctime)),
    (Member.key .status, .string (ascii (statusName request.status))),
    (Member.key .stime, .string (ascii request.stime)),
    (Member.key .etime, .string (ascii request.etime)),
    (Member.key .fileName, .string (ascii request.fileName)),
    (Member.key .fileSize, .uint request.fileSize),
    (Member.key .sip, .uint request.sip),
    (Member.key .dip, .uint request.dip),
    (Member.key .sport, .uint request.sport),
    (Member.key .dport, .uint request.dport),
    (Member.key .proto, .uint request.proto),
    (Member.key .limit, .uint request.limit)]

/-- The document that the constructor and the setters make of a request. -/
def document (request : TaskRequest.TaskInfo) : Value := .object (members request)

/-- The members that the schema gives a string. -/
def Member.isString : Member → Bool
  | mode | uuid | ctime | status | stime | etime | fileName => true
  | fileSize | sip | dip | sport | dport | proto | limit => false

/-- The search options as the search of a task reads them. -/
def Member.isOption : Member → Bool
  | stime | etime | limit | sip | dip | sport | dport | proto => true
  | mode | uuid | ctime | status | fileName | fileSize => false

/-- The document of a request has the types of the schema. -/
theorem document_schema (request : TaskRequest.TaskInfo) (member : Member) :
    if member.isString then HasString (document request) member
    else HasUint (document request) member := by
  cases member <;> rfl

end CppLearn.SearchEngine.TaskDocument
