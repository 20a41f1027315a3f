import CppLearn.Foundation.GuardedRun
import CppLearn.Foundation.ReadySet
import CppLearn.Foundation.ThreadTable
import Mathlib.Data.Finset.Image
import Mathlib.Data.List.Perm.Basic

/-!
# The preforked server that passes descriptors

The parent accepts the connections and passes each through a pipe to a child that is available; the child
serves it, closes it and writes a byte back. `farmStep` interleaves the statements of the parent and of
the children, and what the clients do in `web_child`.

A connection is passed only to a child that waits for one, `navail` is the number of such children, and
every connection accepted is with exactly one process until it is closed (`handed_to_idle`). No byte of a
child is overlooked: what is left to do without new connections comes to an end, and then all children
are available again but those that serve clients (`farm_settles`).

All this is so until a request makes `web_child` end its child. The standard error of a child is its
pipe to the parent, so the message of `err_quit` goes there, and the parent takes every byte of it for
the report of a child that is available.
-/

set_option autoImplicit false
set_option relaxedAutoImplicit false

namespace CppLearn.Unp.PreforkServer

open Foundation.GuardedRun Foundation.ReadySet Foundation.ThreadTable

variable {Connection : Type*}

/-! ### The processes -/

/-- Where a child stands: in `Read_fd`, in `web_child`, before its byte is written, in an `err_quit` of
`web_child` past the message, or at its end. -/
inductive ChildPlace (Connection : Type*)
  | reading
  | serving (connfd : Connection)
  | writing
  | quitting (connfd : Connection)
  | ended (connfd : Connection)

/-- `Child`, where `busy` is a `child_status` of 1, with the child's place and what is in its pipe: the
descriptors on their way to it and the bytes on their way back. -/
structure Child (Connection : Type*) where
  busy : Bool
  childCount : ℕ
  place : ChildPlace Connection
  descriptors : List Connection
  bytes : ℕ

/-- Where the parent stands: in `Select`, before the test of `listenfd`, before `Write_fd`, before the
test of a child's pipe, past one of the two calls of `err_quit`, or ended by SIGPIPE in `Write_fd`. -/
inductive ParentPlace (Connection : Type*)
  | selecting
  | listening
  | handing (i : ℕ) (connfd : Connection)
  | checking (i : ℕ)
  | noChild (connfd : Connection)
  | childEnded (i : ℕ)
  | broken (i : ℕ) (connfd : Connection)

/-- The processes. In `rset` the listener is none and a child's pipe is its index; `read` are those that
have been read since `Select`. `accepted` lists the connections, `closed` with the child that closed
each. -/
structure Farm (Connection : Type*) where
  place : ParentPlace Connection
  navail : ℤ
  nsel : ℤ
  rset : Finset (Option ℕ)
  read : Finset (Option ℕ)
  children : List (Child Connection)
  accepted : List Connection
  closed : List (ℕ × Connection)

/-- A child that has been forked. -/
def Child.start : Child Connection :=
  { busy := false
    childCount := 0
    place := .reading
    descriptors := []
    bytes := 0 }

/-- The server as it enters its loop. -/
def Farm.start (nchildren : ℕ) : Farm Connection :=
  { place := .selecting
    navail := nchildren
    nsel := 0
    rset := ∅
    read := ∅
    children := List.replicate nchildren .start
    accepted := []
    closed := [] }

/-- `Select` returns, where a connection is waiting or not; `Accept` returns; the parent or a child moves
on; or the client of a child closes the connection, or lets `web_child` fail after a message of some
bytes. -/
inductive FarmEvent (Connection : Type*)
  | select (pending : Bool)
  | accept (connfd : Connection)
  | parent
  | child (i : ℕ)
  | clientCloses (i : ℕ)
  | err (i : ℕ) (message : ℕ)

/-- The child has ended. -/
def ChildPlace.isEnded : ChildPlace Connection → Bool
  | .ended _ => true
  | _ => false

/-- The child has ended or is about to. -/
def ChildPlace.isQuit : ChildPlace Connection → Bool
  | .quitting _ | .ended _ => true
  | _ => false

/-- A byte or the end of the file can be read from the child's pipe. -/
def Child.isReadable (child : Child Connection) : Bool := 0 < child.bytes || child.place.isEnded

/-- The indices of the children whose pipes can be read. -/
def readable (children : List (Child Connection)) : Finset ℕ :=
  (Finset.range children.length).filter fun i ↦ (children[i]?.any Child.isReadable) = true

/-- The descriptors that are ready, without the listener if `navail <= 0`. -/
def readySet (s : Farm Connection) (pending : Bool) : Finset (Option ℕ) :=
  (if pending ∧ 0 < s.navail then {none} else ∅) ∪ (readable s.children).image some

/-- The first child that is available. -/
def firstAvailable (children : List (Child Connection)) : Option ℕ :=
  firstWhere (fun i ↦ children[i]?.any fun child ↦ !child.busy) children.length

/-- `if (--nsel == 0)` the round is over. -/
def Farm.countDown (s : Farm Connection) (key : Option ℕ) (next : ParentPlace Connection) :
    Farm Connection :=
  { s with
    nsel := s.nsel - 1
    read := insert key s.read
    place := if s.nsel - 1 = 0 then .selecting else next }

/-- A connection is accepted and a child marked as busy. -/
def acceptStep (s : Farm Connection) (connfd : Connection) : Option (Farm Connection) :=
  let s := { s with accepted := s.accepted ++ [connfd] }
  match firstAvailable s.children with
  | none => some { s with place := .noChild connfd }
  | some i =>
    s.children[i]?.map fun child ↦
      { s with
        place := .handing i connfd
        children := s.children.set i { child with busy := true, childCount := child.childCount + 1 }
        navail := s.navail - 1 }

/-- The connection is written to the child's pipe, which nobody reads any more if the child has ended. -/
def handStep (s : Farm Connection) (i : ℕ) (connfd : Connection) : Option (Farm Connection) :=
  s.children[i]?.map fun child ↦
    if child.place.isEnded then { s with place := .broken i connfd }
    else
      { s with
        children := s.children.set i { child with descriptors := child.descriptors ++ [connfd] }
      }.countDown none (.checking 0)

/-- A child's pipe is read: a byte, or its end. A read waits for one or the other. -/
def readStep (s : Farm Connection) (i : ℕ) (child : Child Connection) : Option (Farm Connection) :=
  if 0 < child.bytes then
    some ({ s with
      children := s.children.set i { child with busy := false, bytes := child.bytes - 1 }
      navail := s.navail + 1 }.countDown (some i) (.checking (i + 1)))
  else if child.place.isEnded then some { s with place := .childEnded i }
  else none

/-- A statement of the parent. -/
def parentStep (s : Farm Connection) : Option (Farm Connection) :=
  match s.place with
  | .listening => if none ∈ s.rset then none else some { s with place := .checking 0 }
  | .handing i connfd => handStep s i connfd
  | .checking i =>
    match s.children[i]? with
    | none => some { s with place := .selecting }
    | some child =>
      if some i ∈ s.rset then readStep s i child else some { s with place := .checking (i + 1) }
  | _ => none

/-- A statement of a child outside of `web_child`, or the end of the process after its message. -/
def childStep (s : Farm Connection) (i : ℕ) : Option (Farm Connection) :=
  s.children[i]?.bind fun child ↦
    match child.place, child.descriptors with
    | .reading, connfd :: descriptors =>
      some { s with
        children := s.children.set i { child with place := .serving connfd, descriptors := descriptors } }
    | .writing, _ =>
      some { s with
        children := s.children.set i { child with place := .reading, bytes := child.bytes + 1 } }
    | .quitting connfd, _ =>
      some { s with children := s.children.set i { child with place := .ended connfd } }
    | _, _ => none

/-- `web_child` returns, and the child closes the connection. -/
def closeStep (s : Farm Connection) (i : ℕ) : Option (Farm Connection) :=
  s.children[i]?.bind fun child ↦
    match child.place with
    | .serving connfd =>
      some { s with
        children := s.children.set i { child with place := .writing }
        closed := s.closed ++ [(i, connfd)] }
    | _ => none

/-- `web_child` prints its message to standard error, which is the pipe, and ends the child. The message
of `err_quit` has at least the end of its line; a signal ends the child without any. -/
def errStep (s : Farm Connection) (i message : ℕ) : Option (Farm Connection) :=
  s.children[i]?.bind fun child ↦
    match child.place with
    | .serving connfd =>
      some { s with
        children :=
          s.children.set i { child with place := .quitting connfd, bytes := child.bytes + message } }
    | _ => none

/-- The parent has ended. -/
def ParentPlace.isEnd : ParentPlace Connection → Bool
  | .noChild _ | .childEnded _ | .broken .. => true
  | _ => false

/-- The parent has ended because it found no child that is available. -/
def ParentPlace.isNoChild : ParentPlace Connection → Bool
  | .noChild _ => true
  | _ => false

/-- The child at whose pipe the parent has ended. -/
def ParentPlace.lostTo : ParentPlace Connection → Option ℕ
  | .childEnded i | .broken i _ => some i
  | _ => none

/-- One step of one process. After the end of the parent there is none. -/
def farmStep (s : Farm Connection) (event : FarmEvent Connection) : Option (Farm Connection) :=
  if s.place.isEnd then none
  else
    match event with
    | .select pending =>
      match s.place with
      | .selecting =>
        if (readySet s pending).Nonempty then
          some { s with
            place := .listening
            rset := readySet s pending
            nsel := (readySet s pending).card
            read := ∅ }
        else none
      | _ => none
    | .accept connfd =>
      match s.place with
      | .listening => if none ∈ s.rset then acceptStep s connfd else none
      | _ => none
    | .parent => parentStep s
    | .child i => childStep s i
    | .clientCloses i => closeStep s i
    | .err i message => errStep s i message

/-! ### The moves -/

/-- What a step can be. -/
inductive FarmMove (s : Farm Connection) : FarmEvent Connection → Farm Connection → Prop
  | select (pending : Bool) (hplace : s.place = .selecting) (hready : (readySet s pending).Nonempty) :
      FarmMove s (.select pending) { s with
        place := .listening
        rset := readySet s pending
        nsel := (readySet s pending).card
        read := ∅ }
  | noChild (connfd : Connection) (hplace : s.place = .listening) (hready : none ∈ s.rset)
      (hnone : firstAvailable s.children = none) :
      FarmMove s (.accept connfd)
        { s with accepted := s.accepted ++ [connfd], place := .noChild connfd }
  | accept (connfd : Connection) (i : ℕ) (child : Child Connection) (hplace : s.place = .listening)
      (hready : none ∈ s.rset) (hfirst : firstAvailable s.children = some i)
      (hchild : s.children[i]? = some child) :
      FarmMove s (.accept connfd) { s with
        accepted := s.accepted ++ [connfd]
        place := .handing i connfd
        children := s.children.set i { child with busy := true, childCount := child.childCount + 1 }
        navail := s.navail - 1 }
  | notListening (hplace : s.place = .listening) (hready : none ∉ s.rset) :
      FarmMove s .parent { s with place := .checking 0 }
  | hand (i : ℕ) (connfd : Connection) (child : Child Connection) (hplace : s.place = .handing i connfd)
      (hchild : s.children[i]? = some child) :
      FarmMove s .parent ({ s with
        children := s.children.set i { child with descriptors := child.descriptors ++ [connfd] }
      }.countDown none (.checking 0))
  | broken (i : ℕ) (connfd : Connection) (child : Child Connection)
      (hplace : s.place = .handing i connfd) (hchild : s.children[i]? = some child)
      (hended : child.place.isEnded = true) :
      FarmMove s .parent { s with place := .broken i connfd }
  | finish (i : ℕ) (hplace : s.place = .checking i) (hnone : s.children[i]? = none) :
      FarmMove s .parent { s with place := .selecting }
  | skip (i : ℕ) (child : Child Connection) (hplace : s.place = .checking i)
      (hchild : s.children[i]? = some child) (hnot : some i ∉ s.rset) :
      FarmMove s .parent { s with place := .checking (i + 1) }
  | readByte (i : ℕ) (child : Child Connection) (hplace : s.place = .checking i)
      (hchild : s.children[i]? = some child) (hready : some i ∈ s.rset) (hbytes : 0 < child.bytes) :
      FarmMove s .parent ({ s with
        children := s.children.set i { child with busy := false, bytes := child.bytes - 1 }
        navail := s.navail + 1 }.countDown (some i) (.checking (i + 1)))
  | readEnd (i : ℕ) (child : Child Connection) (hplace : s.place = .checking i)
      (hchild : s.children[i]? = some child) (hended : child.place.isEnded = true) :
      FarmMove s .parent { s with place := .childEnded i }
  | receive (i : ℕ) (child : Child Connection) (connfd : Connection) (descriptors : List Connection)
      (hchild : s.children[i]? = some child) (hplace : child.place = .reading)
      (hdescriptors : child.descriptors = connfd :: descriptors) :
      FarmMove s (.child i) { s with
        children := s.children.set i { child with place := .serving connfd, descriptors := descriptors } }
  | close (i : ℕ) (child : Child Connection) (connfd : Connection) (hchild : s.children[i]? = some child)
      (hplace : child.place = .serving connfd) :
      FarmMove s (.clientCloses i) { s with
        children := s.children.set i { child with place := .writing }
        closed := s.closed ++ [(i, connfd)] }
  | tell (i : ℕ) (child : Child Connection) (hchild : s.children[i]? = some child)
      (hplace : child.place = .writing) :
      FarmMove s (.child i) { s with
        children := s.children.set i { child with place := .reading, bytes := child.bytes + 1 } }
  | err (i message : ℕ) (child : Child Connection) (connfd : Connection)
      (hchild : s.children[i]? = some child) (hplace : child.place = .serving connfd) :
      FarmMove s (.err i message) { s with
        children :=
          s.children.set i { child with place := .quitting connfd, bytes := child.bytes + message } }
  | exit (i : ℕ) (child : Child Connection) (connfd : Connection) (hchild : s.children[i]? = some child)
      (hplace : child.place = .quitting connfd) :
      FarmMove s (.child i)
        { s with children := s.children.set i { child with place := .ended connfd } }

variable {s next : Farm Connection} {event : FarmEvent Connection}

theorem farmMove_of_acceptStep {connfd : Connection} (hplace : s.place = .listening)
    (hready : none ∈ s.rset) (htaken : acceptStep s connfd = some next) :
    FarmMove s (.accept connfd) next := by
  simp only [acceptStep] at htaken
  split at htaken
  · next hnone =>
    obtain rfl := Option.some.inj htaken
    exact .noChild connfd hplace hready hnone
  · next i hfirst =>
    obtain ⟨child, hchild, rfl⟩ := Option.map_eq_some_iff.mp htaken
    exact .accept connfd i child hplace hready hfirst hchild

theorem farmMove_of_parentStep (htaken : parentStep s = some next) : FarmMove s .parent next := by
  simp only [parentStep] at htaken
  split at htaken
  · next hplace =>
    split_ifs at htaken with hready
    obtain rfl := Option.some.inj htaken
    exact .notListening hplace hready
  · next i connfd hplace =>
    obtain ⟨child, hchild, hnext⟩ := Option.map_eq_some_iff.mp htaken
    split_ifs at hnext with hended
    · subst hnext
      exact .broken i connfd child hplace hchild hended
    · subst hnext
      exact .hand i connfd child hplace hchild
  · next i hplace =>
    split at htaken
    · next hnone =>
      obtain rfl := Option.some.inj htaken
      exact .finish i hplace hnone
    · next child hchild =>
      split_ifs at htaken with hready
      · simp only [readStep] at htaken
        split_ifs at htaken with hbytes hended
        · obtain rfl := Option.some.inj htaken
          exact .readByte i child hplace hchild hready hbytes
        · obtain rfl := Option.some.inj htaken
          exact .readEnd i child hplace hchild hended
      · obtain rfl := Option.some.inj htaken
        exact .skip i child hplace hchild hready
  · cases htaken

theorem farmMove_of_childStep {i : ℕ} (htaken : childStep s i = some next) :
    FarmMove s (.child i) next := by
  obtain ⟨child, hchild, hstep⟩ := Option.bind_eq_some_iff.mp htaken
  split at hstep
  · next connfd descriptors hplace hdescriptors =>
    obtain rfl := Option.some.inj hstep
    exact .receive i child connfd descriptors hchild hplace hdescriptors
  · next hplace =>
    obtain rfl := Option.some.inj hstep
    exact .tell i child hchild hplace
  · next connfd hplace =>
    obtain rfl := Option.some.inj hstep
    exact .exit i child connfd hchild hplace
  · cases hstep

theorem farmMove_of_farmStep (htaken : farmStep s event = some next) : FarmMove s event next := by
  simp only [farmStep] at htaken
  split at htaken
  · cases htaken
  · split at htaken
    · next pending =>
      split at htaken
      · next hplace =>
        split_ifs at htaken with hready
        obtain rfl := Option.some.inj htaken
        exact .select pending hplace hready
      · cases htaken
    · next connfd =>
      split at htaken
      · next hplace =>
        split_ifs at htaken with hready
        exact farmMove_of_acceptStep hplace hready htaken
      · cases htaken
    · exact farmMove_of_parentStep htaken
    · exact farmMove_of_childStep htaken
    · next i =>
      obtain ⟨child, hchild, hstep⟩ := Option.bind_eq_some_iff.mp htaken
      split at hstep
      · next connfd hplace =>
        obtain rfl := Option.some.inj hstep
        exact .close i child connfd hchild hplace
      · cases hstep
    · next i message =>
      obtain ⟨child, hchild, hstep⟩ := Option.bind_eq_some_iff.mp htaken
      split at hstep
      · next connfd hplace =>
        obtain rfl := Option.some.inj hstep
        exact .err i message child connfd hchild hplace
      · cases hstep

/-! ### The children and the connections -/

/-- What a child can be, where the parent is before its `Write_fd` to the child or not. Of one that has
ended, or is about to, nothing more is said. -/
inductive Stands : Bool → Child Connection → Prop
  | available (childCount : ℕ) : Stands false ⟨false, childCount, .reading, [], 0⟩
  | marked (childCount : ℕ) : Stands true ⟨true, childCount, .reading, [], 0⟩
  | handed (childCount : ℕ) (connfd : Connection) :
      Stands false ⟨true, childCount, .reading, [connfd], 0⟩
  | serving (childCount : ℕ) (connfd : Connection) :
      Stands false ⟨true, childCount, .serving connfd, [], 0⟩
  | writing (childCount : ℕ) : Stands false ⟨true, childCount, .writing, [], 0⟩
  | told (childCount : ℕ) : Stands false ⟨true, childCount, .reading, [], 1⟩
  | quit (hands : Bool) (child : Child Connection) (hquit : child.place.isQuit = true) :
      Stands hands child

/-- No child has ended or is about to. -/
def Sound (children : List (Child Connection)) : Prop := ∀ child ∈ children, child.place.isQuit = false

/-- The parent is before its `Write_fd` to a child. -/
def ParentPlace.hands : ParentPlace Connection → ℕ → Bool
  | .handing i _, j => i == j
  | _, _ => false

/-- The connection that a child has, if it has one. -/
def ChildPlace.connections : ChildPlace Connection → List Connection
  | .serving connfd | .quitting connfd | .ended connfd => [connfd]
  | .reading | .writing => []

/-- The connections in a child's pipe and the one that it has. -/
def Child.connections (child : Child Connection) : List Connection :=
  child.descriptors ++ child.place.connections

/-- The connection in the hands of the parent. -/
def ParentPlace.connections : ParentPlace Connection → List Connection
  | .handing _ connfd | .noChild connfd | .broken _ connfd => [connfd]
  | _ => []

/-- An available child counts for `navail`. -/
def Child.availability (child : Child Connection) : ℕ := if child.busy then 0 else 1

/-- A child's pipe that has been reported and not been read yet can be read. -/
def Awaits (s : Farm Connection) : Prop :=
  ∀ i, some i ∈ s.rset → some i ∉ s.read →
    ∃ child, s.children[i]? = some child ∧ child.isReadable = true

/-- What has been read, and what is still to be found. -/
structure Round (s : Farm Connection) : Prop where
  listening : s.place = .listening → Counted s.rset s.read s.nsel ∧ s.read = ∅ ∧ s.rset.Nonempty ∧
    Awaits s ∧ (none ∈ s.rset → 0 < s.navail)
  handing : ∀ i connfd, s.place = .handing i connfd → Counted s.rset s.read s.nsel ∧ s.read = ∅ ∧
    none ∈ s.rset ∧ Awaits s
  checking : ∀ i, s.place = .checking i → Counted s.rset s.read s.nsel ∧ s.rset.Nonempty ∧ Awaits s ∧
    (∀ key ∈ s.rset, key ∉ s.read → ∃ j, i ≤ j ∧ key = some j) ∧ ∀ j, i ≤ j → some j ∉ s.read

/-- Each child stands where it can, and `navail` counts those that are available, or more if a child has
printed a message. The parent has ended only because a child has. -/
structure Manned (s : Farm Connection) : Prop where
  stands : ∀ (i : ℕ) child, s.children[i]? = some child → Stands (s.place.hands i) child
  handing : ∀ i connfd, s.place = .handing i connfd → i < s.children.length
  navail_ge : total Child.availability s.children ≤ s.navail
  navail_eq : Sound s.children → s.navail = total Child.availability s.children
  noChild : s.place.isNoChild = true → ¬ Sound s.children
  ended : ∀ i, s.place.lostTo = some i →
    ∃ child, s.children[i]? = some child ∧ child.place.isEnded = true

/-- Every connection has been closed or is with one process. -/
def Placed [DecidableEq Connection] (s : Farm Connection) : Prop :=
  ∀ connfd, s.accepted.count connfd = (s.closed.map Prod.snd).count connfd +
    total (fun child ↦ child.connections.count connfd) s.children + s.place.connections.count connfd

/-- The state of the server. -/
structure Consistent [DecidableEq Connection] (s : Farm Connection) : Prop where
  manned : Manned s
  round : Round s
  placed : Placed s

theorem Consistent.start [DecidableEq Connection] (nchildren : ℕ) :
    Consistent (Farm.start nchildren : Farm Connection) := by
  have hall : total Child.availability (Farm.start nchildren : Farm Connection).children = nchildren := by
    simp only [Farm.start, total_replicate, Child.start, Child.availability, Bool.false_eq_true, if_false,
      Nat.mul_one]
  refine ⟨⟨fun i child hchild ↦ ?_, fun i connfd heq ↦ ?_, ?_, fun _ ↦ ?_, fun heq ↦ ?_, fun i heq ↦ ?_⟩,
    ⟨fun heq ↦ ?_, fun i connfd heq ↦ ?_, fun i heq ↦ ?_⟩, fun connfd ↦ ?_⟩
  · obtain ⟨-, rfl⟩ := List.mem_replicate.mp (List.mem_of_getElem? hchild)
    exact .available 0
  · cases heq
  · rw [hall]
    exact Int.le_refl _
  · rw [hall]
    rfl
  · cases heq
  · cases heq
  · cases heq
  · cases heq
  · cases heq
  · simp only [Farm.start, total_replicate, Child.start, Child.connections, ChildPlace.connections,
      ParentPlace.connections, List.append_nil, List.map_nil, List.count_nil, Nat.mul_zero, Nat.add_zero]

/-! ### What every step preserves -/

/-- Where a child that has ended, or is about to, stays so, it had not if nobody has afterwards. -/
theorem Sound.of_set {children : List (Child Connection)} {i : ℕ} {child new : Child Connection}
    (hchild : children[i]? = some child)
    (hquit : child.place.isQuit = true → new.place.isQuit = true) (h : Sound (children.set i new)) :
    Sound children := by
  intro other hmem
  obtain ⟨j, hother⟩ := List.mem_iff_getElem?.mp hmem
  have hlt := (List.getElem?_eq_some_iff.mp hchild).1
  by_cases hji : i = j
  · subst hji
    obtain rfl := Option.some.inj (hchild.symm.trans hother)
    have hnew := h new (List.mem_of_getElem? (List.getElem?_set_self hlt))
    exact Bool.eq_false_of_not_eq_true fun hat ↦ by cases hnew.symm.trans (hquit hat)
  · exact h other (List.mem_of_getElem? ((List.getElem?_set_ne hji).trans hother))

/-- A child moves on. -/
theorem Manned.child {i : ℕ} {child new : Child Connection} {closed : List (ℕ × Connection)}
    (manned : Manned s) (hchild : s.children[i]? = some child) (hstands : Stands (s.place.hands i) new)
    (havailable : new.availability = child.availability)
    (hquit : child.place.isQuit = true → new.place.isQuit = true)
    (hended : child.place.isEnded = true → new.place.isEnded = true) :
    Manned { s with children := s.children.set i new, closed := closed } := by
  have htotal := total_set Child.availability hchild new
  refine ⟨fun j other hother ↦ ?_, fun j connfd hplace ↦ ?_, ?_, fun hsound ↦ ?_, fun hplace hsound ↦ ?_,
    fun j hplace ↦ ?_⟩
  · rcases getElem?_set_cases hother with ⟨-, hold⟩ | ⟨rfl, rfl⟩
    · exact manned.stands j other hold
    · exact hstands
  · rw [List.length_set]
    exact manned.handing j connfd hplace
  · have hge := manned.navail_ge
    simp only
    omega
  · have heq := manned.navail_eq (hsound.of_set hchild hquit)
    simp only
    omega
  · exact manned.noChild hplace (hsound.of_set hchild hquit)
  · obtain ⟨other, hother, hat⟩ := manned.ended j hplace
    by_cases hji : j = i
    · subst hji
      obtain rfl := Option.some.inj (hchild.symm.trans hother)
      have hlt := (List.getElem?_eq_some_iff.mp hchild).1
      exact ⟨new, List.getElem?_set_self hlt, hended hat⟩
    · exact ⟨other, (List.getElem?_set_ne (Ne.symm hji)).trans hother, hat⟩

/-- The parent moves on, but neither to a child nor to its end. -/
theorem Manned.parent {place : ParentPlace Connection} {rset read : Finset (Option ℕ)} {nsel : ℤ}
    (manned : Manned s) (hbefore : ∀ i, s.place.hands i = false)
    (hplace : place = .selecting ∨ place = .listening ∨ ∃ i, place = .checking i) :
    Manned { s with place := place, rset := rset, read := read, nsel := nsel } := by
  have hafter : ∀ i, place.hands i = false := by
    rcases hplace with rfl | rfl | ⟨i, rfl⟩ <;> exact fun _ ↦ rfl
  refine ⟨fun i child hchild ↦ ?_, fun i connfd heq ↦ ?_, manned.navail_ge, manned.navail_eq,
    fun heq ↦ ?_, fun i heq ↦ ?_⟩
  · have hstands := manned.stands i child hchild
    rw [hbefore i] at hstands
    exact (hafter i).symm ▸ hstands
  · simp only at heq
    rcases hplace with rfl | rfl | ⟨j, rfl⟩ <;> cases heq
  · simp only at heq
    rcases hplace with rfl | rfl | ⟨j, rfl⟩ <;> cases heq
  · simp only at heq
    rcases hplace with rfl | rfl | ⟨j, rfl⟩ <;> cases heq

theorem countDown_place (key : Option ℕ) (i : ℕ) :
    (s.countDown key (.checking i)).place = .selecting ∨
      (s.countDown key (.checking i)).place = .checking i := by
  simp only [Farm.countDown]
  split_ifs
  · exact .inl rfl
  · exact .inr rfl

/-- The parent writes to a child's pipe or reads from it. What it reads from a child that is available
already, which is a byte of a message, is counted once more. -/
theorem Manned.exchange {i k : ℕ} {child new : Child Connection} {navail : ℤ} {key : Option ℕ}
    (manned : Manned s) (hchild : s.children[i]? = some child)
    (hbefore : ∀ j, j ≠ i → s.place.hands j = false) (hstands : Stands false new)
    (hplace : new.place = child.place) (hge : s.navail + new.availability - child.availability ≤ navail)
    (heq : child.place.isQuit = false →
      navail = s.navail + new.availability - child.availability) :
    Manned ({ s with children := s.children.set i new, navail := navail }.countDown key
      (.checking k)) := by
  have hnext := @countDown_place _
    { s with children := s.children.set i new, navail := navail } key k
  have hafter : ∀ j, ({ s with children := s.children.set i new, navail := navail }.countDown key
      (.checking k)).place.hands j = false := by
    intro j
    rcases hnext with hat | hat <;> rw [hat] <;> rfl
  have htotal := total_set Child.availability hchild new
  refine ⟨fun j other hother ↦ ?_, fun j connfd hat' ↦ ?_, ?_, fun hsound ↦ ?_, fun hat' ↦ ?_,
    fun j hat' ↦ ?_⟩
  · rw [hafter j]
    rcases getElem?_set_cases hother with ⟨hne, hold⟩ | ⟨rfl, rfl⟩
    · exact hbefore j hne ▸ manned.stands j other hold
    · exact hstands
  · rcases hnext with hat | hat <;> cases hat.symm.trans hat'
  · have hbound := manned.navail_ge
    simp only [Farm.countDown]
    omega
  · have hsound' : Sound s.children := Sound.of_set hchild (by rw [hplace]; exact id) hsound
    have hsame := manned.navail_eq hsound'
    have hnavail := heq (hsound' child (List.mem_of_getElem? hchild))
    simp only [Farm.countDown]
    omega
  · rcases hnext with hat | hat <;> rw [hat] at hat' <;> cases hat'
  · rcases hnext with hat | hat <;> rw [hat] at hat' <;> cases hat'

/-- Where `navail` is positive and no child has ended or is about to, there is an available child. -/
theorem Manned.exists_firstAvailable (manned : Manned s) (hsound : Sound s.children)
    (hpos : 0 < s.navail) : ∃ i, firstAvailable s.children = some i := by
  cases hfirst : firstAvailable s.children with
  | some i => exact ⟨i, rfl⟩
  | none =>
    have htotal : 0 < total Child.availability s.children := by
      have heq := manned.navail_eq hsound
      omega
    obtain ⟨i, child, hchild, havailable⟩ := exists_of_total_pos htotal
    have hbusy := firstWhere_eq_none hfirst (List.getElem?_eq_some_iff.mp hchild).1
    rw [hchild, Option.any_some, Bool.not_eq_false'] at hbusy
    rw [Child.availability, if_pos hbusy] at havailable
    omega

theorem firstAvailable_spec {i : ℕ} {child : Child Connection}
    (hfirst : firstAvailable s.children = some i) (hchild : s.children[i]? = some child) :
    child.busy = false := by
  have hfree := (firstWhere_eq_some hfirst).1
  rw [hchild, Option.any_some, Bool.not_eq_true'] at hfree
  exact hfree

/-- The parent ends. -/
theorem Manned.ends {place : ParentPlace Connection} {accepted : List Connection} (manned : Manned s)
    (hstands : ∀ (i : ℕ) child, s.children[i]? = some child → Stands (s.place.hands i) child →
      Stands false child)
    (hplace : place.isEnd = true) (hnoChild : place.isNoChild = true → ¬ Sound s.children)
    (hended : ∀ i, place.lostTo = some i →
      ∃ child, s.children[i]? = some child ∧ child.place.isEnded = true) :
    Manned { s with place := place, accepted := accepted } := by
  refine ⟨fun i child hchild ↦ ?_, fun i connfd heq ↦ ?_, manned.navail_ge, manned.navail_eq, hnoChild,
    hended⟩
  · have hafter : place.hands i = false := by
      cases place with
      | handing => cases hplace
      | _ => rfl
    rw [hafter]
    exact hstands i child hchild (manned.stands i child hchild)
  · cases heq
    cases hplace

theorem ChildPlace.isQuit_of_isEnded {place : ChildPlace Connection} (hended : place.isEnded = true) :
    place.isQuit = true := by
  cases place with
  | ended => rfl
  | _ => cases hended

/-- The first child that is available is marked as busy. -/
theorem Manned.accept {i : ℕ} {child : Child Connection} (manned : Manned s) (connfd : Connection)
    (hplace : s.place = .listening) (hfirst : firstAvailable s.children = some i)
    (hchild : s.children[i]? = some child) :
    Manned { s with
      accepted := s.accepted ++ [connfd]
      place := .handing i connfd
      children := s.children.set i { child with busy := true, childCount := child.childCount + 1 }
      navail := s.navail - 1 } := by
  have hfree := firstAvailable_spec hfirst hchild
  have hstands : Stands false child := by
    have hat := manned.stands i child hchild
    rwa [hplace] at hat
  have htotal := total_set Child.availability hchild
    { child with busy := true, childCount := child.childCount + 1 }
  simp only [Child.availability, hfree, Bool.false_eq_true, if_true, if_false] at htotal
  refine ⟨fun j other hother ↦ ?_, fun j connfd heq ↦ ?_, ?_, fun hsound ↦ ?_, fun heq ↦ (by cases heq),
    fun j heq ↦ (by cases heq)⟩
  · rcases getElem?_set_cases hother with ⟨hne, hold⟩ | ⟨rfl, rfl⟩
    · have hat := manned.stands j other hold
      rw [hplace] at hat
      rwa [ParentPlace.hands, beq_false_of_ne (Ne.symm hne)]
    · rw [ParentPlace.hands, beq_self_eq_true]
      cases hstands with
      | available childCount => exact .marked (childCount + 1)
      | quit _ _ hquit => exact .quit _ _ hquit
      | _ => cases hfree
  · cases heq
    rw [List.length_set]
    exact (List.getElem?_eq_some_iff.mp hchild).1
  · have hge := manned.navail_ge
    simp only
    omega
  · have hquit : child.place.isQuit = true →
        { child with busy := true, childCount := child.childCount + 1 }.place.isQuit = true := id
    have heq := manned.navail_eq (Sound.of_set hchild hquit hsound)
    simp only
    omega

/-- A byte is read from the pipe of a child. -/
theorem Manned.readByte {i : ℕ} {child : Child Connection} (manned : Manned s)
    (hplace : s.place = .checking i) (hchild : s.children[i]? = some child) (hbytes : 0 < child.bytes) :
    Manned ({ s with
      children := s.children.set i { child with busy := false, bytes := child.bytes - 1 }
      navail := s.navail + 1 }.countDown (some i) (.checking (i + 1))) := by
  have hstands := manned.stands i child hchild
  rw [hplace] at hstands
  have hothers : ∀ j, j ≠ i → s.place.hands j = false := fun j _ ↦ by rw [hplace]; rfl
  cases hstands with
  | told childCount =>
    exact manned.exchange hchild hothers (.available childCount) rfl (Int.le_of_eq (Int.sub_zero _))
      fun _ ↦ (Int.sub_zero _).symm
  | quit _ _ hquit =>
    refine manned.exchange hchild hothers (.quit _ _ hquit) rfl ?_ fun hnot ↦ ?_
    · simp only [Child.availability, Bool.false_eq_true, if_false]
      omega
    · cases hnot.symm.trans hquit
  | _ => cases hbytes

theorem manned_farmMove (manned : Manned s) (round : Round s) (hmove : FarmMove s event next) :
    Manned next := by
  cases hmove with
  | select pending hplace hready =>
    exact manned.parent (fun i ↦ by rw [hplace]; rfl) (.inr (.inl rfl))
  | noChild connfd hplace hready hnone =>
    refine manned.ends (fun i child _ hat ↦ ?_) rfl (fun _ hsound ↦ ?_) fun i heq ↦ (by cases heq)
    · rwa [hplace] at hat
    · obtain ⟨i, hfirst⟩ :=
        manned.exists_firstAvailable hsound ((round.listening hplace).2.2.2.2 hready)
      cases hnone.symm.trans hfirst
  | accept connfd i child hplace hready hfirst hchild =>
    exact manned.accept connfd hplace hfirst hchild
  | notListening hplace hready =>
    exact manned.parent (fun i ↦ by rw [hplace]; rfl) (.inr (.inr ⟨0, rfl⟩))
  | hand i connfd child hplace hchild =>
    have hstands : Stands true child := by
      have hat := manned.stands i child hchild
      rwa [hplace, ParentPlace.hands, beq_self_eq_true] at hat
    have hothers : ∀ j, j ≠ i → s.place.hands j = false := fun j hne ↦ by
      rw [hplace]
      exact beq_false_of_ne hne.symm
    have hsame : s.navail + child.availability - child.availability = s.navail :=
      Int.add_sub_cancel ..
    cases hstands with
    | marked childCount =>
      exact manned.exchange hchild hothers (.handed childCount connfd) rfl (Int.le_of_eq hsame)
        fun _ ↦ hsame.symm
    | quit _ _ hquit =>
      exact manned.exchange hchild hothers (.quit _ _ hquit) rfl (Int.le_of_eq hsame)
        fun _ ↦ hsame.symm
  | broken i connfd child hplace hchild hended =>
    refine manned.ends (fun j other hother hat ↦ ?_) rfl (fun heq ↦ (by cases heq)) fun j heq ↦ ?_
    · by_cases hji : i = j
      · subst hji
        obtain rfl := Option.some.inj (hchild.symm.trans hother)
        exact .quit _ _ (ChildPlace.isQuit_of_isEnded hended)
      · rwa [hplace, ParentPlace.hands, beq_false_of_ne hji] at hat
    · cases heq
      exact ⟨child, hchild, hended⟩
  | finish i hplace hnone =>
    exact manned.parent (fun i ↦ by rw [hplace]; rfl) (.inl rfl)
  | skip i child hplace hchild hnot =>
    exact manned.parent (fun i ↦ by rw [hplace]; rfl) (.inr (.inr ⟨i + 1, rfl⟩))
  | readByte i child hplace hchild hready hbytes => exact manned.readByte hplace hchild hbytes
  | readEnd i child hplace hchild hended =>
    refine manned.ends (fun j other _ hat ↦ ?_) rfl (fun heq ↦ (by cases heq)) fun j heq ↦ ?_
    · rwa [hplace] at hat
    · cases heq
      exact ⟨child, hchild, hended⟩
  | receive i child connfd descriptors hchild hplace hdescriptors =>
    have hat := manned.stands i child hchild
    generalize hhands : s.place.hands i = hands at hat
    cases hat with
    | handed childCount =>
      cases hdescriptors
      exact manned.child hchild (hhands ▸ .serving childCount connfd) rfl id id
    | serving | writing => cases hplace
    | available | marked | told => cases hdescriptors
    | quit _ _ hquit =>
      rw [hplace] at hquit
      cases hquit
  | close i child connfd hchild hplace =>
    have hat := manned.stands i child hchild
    generalize hhands : s.place.hands i = hands at hat
    cases hat with
    | serving childCount =>
      exact manned.child hchild (hhands ▸ .writing childCount) rfl id id
    | quit _ _ hquit =>
      rw [hplace] at hquit
      cases hquit
    | _ => cases hplace
  | tell i child hchild hplace =>
    have hat := manned.stands i child hchild
    generalize hhands : s.place.hands i = hands at hat
    cases hat with
    | writing childCount => exact manned.child hchild (hhands ▸ .told childCount) rfl id id
    | quit _ _ hquit =>
      rw [hplace] at hquit
      cases hquit
    | _ => cases hplace
  | err i message child connfd hchild hplace =>
    exact manned.child hchild (.quit _ _ rfl) rfl (fun _ ↦ rfl) fun hended ↦ (by
      rw [hplace] at hended
      cases hended)
  | exit i child connfd hchild hplace =>
    exact manned.child hchild (.quit _ _ rfl) rfl (fun _ ↦ rfl) fun _ ↦ rfl

/-- A child moves on. -/
theorem Awaits.child {i : ℕ} {child new : Child Connection} {accepted : List Connection} {navail : ℤ}
    {place : ParentPlace Connection} {closed : List (ℕ × Connection)}
    (awaits : Awaits s) (hchild : s.children[i]? = some child)
    (hreadable : child.isReadable = true → new.isReadable = true) :
    Awaits { s with
      children := s.children.set i new
      accepted := accepted
      navail := navail
      place := place
      closed := closed } := by
  intro j hready hread
  obtain ⟨other, hother, hat⟩ := awaits j hready hread
  by_cases hji : j = i
  · subst hji
    obtain rfl := Option.some.inj (hchild.symm.trans hother)
    exact ⟨new, List.getElem?_set_self (List.getElem?_eq_some_iff.mp hchild).1, hreadable hat⟩
  · exact ⟨other, (List.getElem?_set_ne (Ne.symm hji)).trans hother, hat⟩

/-- A child moves on. -/
theorem Round.child {i : ℕ} {child new : Child Connection} {closed : List (ℕ × Connection)}
    (round : Round s) (hchild : s.children[i]? = some child)
    (hreadable : child.isReadable = true → new.isReadable = true) :
    Round { s with children := s.children.set i new, closed := closed } := by
  refine ⟨fun hplace ↦ ?_, fun j connfd hplace ↦ ?_, fun j hplace ↦ ?_⟩
  · obtain ⟨hcounted, hread, hne, awaits, hnavail⟩ := round.listening hplace
    exact ⟨hcounted, hread, hne, awaits.child hchild hreadable, hnavail⟩
  · obtain ⟨hcounted, hread, hnone, awaits⟩ := round.handing j connfd hplace
    exact ⟨hcounted, hread, hnone, awaits.child hchild hreadable⟩
  · obtain ⟨hcounted, hne, awaits, hrest⟩ := round.checking j hplace
    exact ⟨hcounted, hne, awaits.child hchild hreadable, hrest⟩

/-- A descriptor is served, and those that are left are behind it. -/
theorem Round.countDown {k : ℕ} {key : Option ℕ} (hcounted : Counted s.rset s.read s.nsel)
    (hready : key ∈ s.rset) (hread : key ∉ s.read)
    (hawaits : ∀ i, some i ∈ s.rset → some i ∉ insert key s.read →
      ∃ child, s.children[i]? = some child ∧ child.isReadable = true)
    (hrest : ∀ other ∈ s.rset, other ∉ insert key s.read → ∃ j, k ≤ j ∧ other = some j)
    (hlater : ∀ j, k ≤ j → some j ∉ insert key s.read) :
    Round (s.countDown key (.checking k)) := by
  have hplace := @countDown_place _ s key k
  refine ⟨fun heq ↦ ?_, fun i connfd heq ↦ ?_, fun i heq ↦ ?_⟩
  · rcases hplace with hat | hat <;> cases hat.symm.trans heq
  · rcases hplace with hat | hat <;> cases hat.symm.trans heq
  · rcases hplace with hat | hat <;> cases hat.symm.trans heq
    exact ⟨hcounted.serve hready hread, ⟨key, hready⟩, hawaits, hrest, hlater⟩

theorem mem_readable {children : List (Child Connection)} {i : ℕ} :
    i ∈ readable children ↔ ∃ child, children[i]? = some child ∧ child.isReadable = true := by
  rw [readable, Finset.mem_filter, Finset.mem_range, Option.any_eq_true]
  refine and_iff_right_of_imp ?_
  rintro ⟨child, hchild, -⟩
  exact (List.getElem?_eq_some_iff.mp hchild).1

theorem mem_readySet {pending : Bool} {key : Option ℕ} (hkey : key ∈ readySet s pending) :
    (key = none ∧ pending = true ∧ 0 < s.navail) ∨ ∃ i child, key = some i ∧ s.children[i]? = some child ∧
      child.isReadable = true := by
  rcases Finset.mem_union.mp hkey with hnone | hsome
  · split_ifs at hnone with hwaits
    · exact .inl ⟨Finset.mem_singleton.mp hnone, hwaits⟩
    · exact (Finset.notMem_empty _ hnone).elim
  · obtain ⟨i, hi, rfl⟩ := Finset.mem_image.mp hsome
    obtain ⟨child, hchild, hat⟩ := mem_readable.mp hi
    exact .inr ⟨i, child, rfl, hchild, hat⟩

theorem round_farmMove (round : Round s) (hmove : FarmMove s event next) :
    Round next := by
  cases hmove with
  | select pending hplace hready =>
    refine ⟨fun _ ↦ ⟨.start _, rfl, hready, fun i hi _ ↦ ?_, fun hnone ↦ ?_⟩, fun i connfd heq ↦
      (by cases heq), fun i heq ↦ (by cases heq)⟩
    · rcases mem_readySet hi with ⟨heq, -⟩ | ⟨j, child, heq, hchild, hat⟩
      · cases heq
      · cases heq
        exact ⟨child, hchild, hat⟩
    · rcases mem_readySet hnone with ⟨-, -, hpos⟩ | ⟨j, child, heq, -⟩
      · exact hpos
      · cases heq
  | noChild connfd hplace hready hnone =>
    exact ⟨fun heq ↦ (by cases heq), fun i connfd heq ↦ (by cases heq), fun i heq ↦ (by cases heq)⟩
  | accept connfd i child hplace hready hfirst hchild =>
    obtain ⟨hcounted, hread, -, awaits, -⟩ := round.listening hplace
    exact ⟨fun heq ↦ (by cases heq), fun i connfd heq ↦ ⟨hcounted, hread, hready,
      awaits.child hchild id⟩, fun i heq ↦ (by cases heq)⟩
  | notListening hplace hready =>
    obtain ⟨hcounted, hread, hne, awaits, -⟩ := round.listening hplace
    refine ⟨fun heq ↦ (by cases heq), fun i connfd heq ↦ (by cases heq), fun i heq ↦ ?_⟩
    cases heq
    refine ⟨hcounted, hne, awaits, fun key hkey _ ↦ ?_, fun j _ ↦ hread ▸ Finset.notMem_empty _⟩
    cases key with
    | none => exact (hready hkey).elim
    | some j => exact ⟨j, Nat.zero_le j, rfl⟩
  | hand i connfd child hplace hchild =>
    obtain ⟨hcounted, hread, hnone, awaits⟩ := round.handing i connfd hplace
    have awaits' : Awaits { s with
        children := s.children.set i { child with descriptors := child.descriptors ++ [connfd] } } :=
      awaits.child hchild id
    refine Round.countDown hcounted hnone (hread ▸ Finset.notMem_empty _) (fun j hj hnot ↦ ?_)
      (fun key _ hnot ↦ ?_) fun j _ hmem ↦ ?_
    · exact awaits' j hj fun hmem ↦ hnot (Finset.mem_insert_of_mem hmem)
    · cases key with
      | none => exact (hnot (Finset.mem_insert_self ..)).elim
      | some j => exact ⟨j, Nat.zero_le j, rfl⟩
    · rcases Finset.mem_insert.mp hmem with heq | hmem
      · cases heq
      · exact Finset.notMem_empty _ (hread ▸ hmem)
  | finish i hplace hnone =>
    exact ⟨fun heq ↦ (by cases heq), fun i connfd heq ↦ (by cases heq), fun i heq ↦ (by cases heq)⟩
  | skip i child hplace hchild hnot =>
    obtain ⟨hcounted, hne, awaits, hrest, hlater⟩ := round.checking i hplace
    refine ⟨fun heq ↦ (by cases heq), fun i connfd heq ↦ (by cases heq), fun j heq ↦ ?_⟩
    cases heq
    refine ⟨hcounted, hne, awaits, fun key hkey hread ↦ ?_, fun j hle ↦ hlater j (by omega)⟩
    obtain ⟨j, hle, rfl⟩ := hrest key hkey hread
    have hji : j ≠ i := fun heq ↦ hnot (heq ▸ hkey)
    exact ⟨j, by omega, rfl⟩
  | readByte i child hplace hchild hready hbytes =>
    obtain ⟨hcounted, hne, awaits, hrest, hlater⟩ := round.checking i hplace
    refine Round.countDown hcounted hready (hlater i (Nat.le_refl i)) (fun j hj hnot ↦ ?_)
      (fun key hkey hnot ↦ ?_) fun j hle hmem ↦ ?_
    · obtain ⟨hne, hread⟩ := not_or.mp (Finset.mem_insert.not.mp hnot)
      obtain ⟨other, hother, hat⟩ := awaits j hj hread
      exact ⟨other, (List.getElem?_set_ne fun heq ↦ hne (congrArg some heq.symm)).trans hother, hat⟩
    · obtain ⟨hne, hread⟩ := not_or.mp (Finset.mem_insert.not.mp hnot)
      obtain ⟨j, hle, rfl⟩ := hrest key hkey hread
      have hji : j ≠ i := fun heq ↦ hne (heq ▸ rfl)
      exact ⟨j, by omega, rfl⟩
    · rcases Finset.mem_insert.mp hmem with heq | hmem
      · have hji := Option.some.inj heq
        omega
      · exact hlater j (by omega) hmem
  | readEnd i child hplace hchild hended | broken i connfd child hplace hchild hended =>
    exact ⟨fun heq ↦ (by cases heq), fun i connfd heq ↦ (by cases heq), fun i heq ↦ (by cases heq)⟩
  | receive i child connfd descriptors hchild hplace hdescriptors =>
    refine round.child hchild fun hat ↦ ?_
    rwa [Child.isReadable, hplace] at hat
  | close i child connfd hchild hplace =>
    refine round.child hchild fun hat ↦ ?_
    rwa [Child.isReadable, hplace] at hat
  | tell i child hchild hplace =>
    refine round.child hchild fun hat ↦ ?_
    simp only [Child.isReadable, Nat.succ_pos, decide_true, Bool.true_or]
  | err i message child connfd hchild hplace =>
    refine round.child hchild fun hat ↦ ?_
    simp only [Child.isReadable, hplace, ChildPlace.isEnded, Bool.or_false, decide_eq_true_eq] at hat ⊢
    omega
  | exit i child connfd hchild hplace =>
    exact round.child hchild fun _ ↦ Bool.or_true _

theorem countDown_connections (key : Option ℕ) (i : ℕ) :
    (s.countDown key (.checking i)).place.connections = [] := by
  rcases countDown_place key i with heq | heq <;> rw [heq] <;> rfl

theorem placed_farmMove [DecidableEq Connection] (placed : Placed s) (hmove : FarmMove s event next) :
    Placed next := by
  intro c
  have hbefore := placed c
  cases hmove with
  | select _ hplace | finish _ hplace | skip _ _ hplace | readEnd _ _ hplace =>
    rw [hplace] at hbefore
    exact hbefore
  | broken _ _ _ hplace =>
    rw [hplace] at hbefore
    exact hbefore
  | notListening hplace =>
    rw [hplace] at hbefore
    exact hbefore
  | noChild connfd hplace hready hnone =>
    rw [hplace] at hbefore
    simp only [ParentPlace.connections, List.count_append, List.count_nil] at *
    omega
  | accept connfd i child hplace hready hfirst hchild =>
    have htotal := total_set (fun child : Child Connection ↦ child.connections.count c) hchild
      { child with busy := true, childCount := child.childCount + 1 }
    rw [hplace] at hbefore
    simp only [ParentPlace.connections, List.count_append, List.count_nil, Child.connections] at *
    omega
  | hand i connfd child hplace hchild =>
    have htotal := total_set (fun child : Child Connection ↦ child.connections.count c) hchild
      { child with descriptors := child.descriptors ++ [connfd] }
    rw [hplace] at hbefore
    rw [countDown_connections]
    simp only [ParentPlace.connections, Farm.countDown, List.count_append, List.count_nil,
      Child.connections] at *
    omega
  | readByte i child hplace hchild hready hbytes =>
    have htotal := total_set (fun child : Child Connection ↦ child.connections.count c) hchild
      { child with busy := false, bytes := child.bytes - 1 }
    rw [hplace] at hbefore
    rw [countDown_connections]
    simp only [ParentPlace.connections, Farm.countDown, List.count_append, List.count_nil,
      Child.connections] at *
    omega
  | receive i child connfd descriptors hchild hplace hdescriptors =>
    have htotal := total_set (fun child : Child Connection ↦ child.connections.count c) hchild
      { child with place := .serving connfd, descriptors := descriptors }
    simp only [Child.connections, hplace, hdescriptors, ChildPlace.connections, List.append_nil,
      List.count_append, List.count_cons, List.count_nil] at *
    omega
  | close i child connfd hchild hplace =>
    have htotal := total_set (fun child : Child Connection ↦ child.connections.count c) hchild
      { child with place := .writing }
    simp only [Child.connections, hplace, ChildPlace.connections, List.map_append, List.map_cons,
      List.map_nil, List.count_append, List.count_nil] at *
    omega
  | tell i child hchild hplace =>
    have htotal := total_set (fun child : Child Connection ↦ child.connections.count c) hchild
      { child with place := .reading, bytes := child.bytes + 1 }
    simp only [Child.connections, hplace, ChildPlace.connections, List.count_append] at *
    omega
  | err i message child connfd hchild hplace =>
    have htotal := total_set (fun child : Child Connection ↦ child.connections.count c) hchild
      { child with place := .quitting connfd, bytes := child.bytes + message }
    simp only [Child.connections, hplace, ChildPlace.connections, List.count_append] at *
    omega
  | exit i child connfd hchild hplace =>
    have htotal := total_set (fun child : Child Connection ↦ child.connections.count c) hchild
      { child with place := .ended connfd }
    simp only [Child.connections, hplace, ChildPlace.connections, List.count_append] at *
    omega

theorem consistent_farmMove [DecidableEq Connection] (consistent : Consistent s)
    (hmove : FarmMove s event next) : Consistent next where
  manned := manned_farmMove consistent.manned consistent.round hmove
  round := round_farmMove consistent.round hmove
  placed := placed_farmMove consistent.placed hmove

theorem consistent_of_run [DecidableEq Connection] {nchildren : ℕ}
    (hrun : Reachable farmStep (.start nchildren) s) : Consistent s :=
  hrun.invariant (.start nchildren) fun _ _ _ h _ htaken ↦
    consistent_farmMove h (farmMove_of_farmStep htaken)

/-! ### Connections are with one process -/

theorem total_availability (children : List (Child Connection)) :
    total Child.availability children = children.countP fun child ↦ !child.busy := by
  induction children with
  | nil => rfl
  | cons child children ih =>
    rw [total, List.map_cons, List.sum_cons, ← total, ih, List.countP_cons, Child.availability]
    cases child.busy <;> simp only [Bool.not_true, Bool.not_false, Bool.false_eq_true, if_true, if_false,
      Nat.add_comm]

/-- The connections accepted, one by one. -/
theorem perm_of_placed [DecidableEq Connection] (placed : Placed s) :
    s.accepted.Perm
      (s.closed.map Prod.snd ++ s.children.flatMap Child.connections ++ s.place.connections) := by
  refine List.perm_iff_count.mpr fun c ↦ ?_
  rw [placed c, List.count_append, List.count_append, List.count_flatMap]
  rfl

/-- A connection is handed to the first of two children and closed by it. -/
def oneConnection : List (FarmEvent ℕ) :=
  [.select true, .accept 7, .parent, .child 0, .clientCloses 0, .child 0, .select false, .parent, .parent]

/-- The server with two children after these events. -/
def after (events : List (FarmEvent ℕ)) : Farm ℕ :=
  (execute farmStep anyEvent (.start 2) events).getD (.start 2)

theorem run_after {events : List (FarmEvent ℕ)}
    (hsome : (execute farmStep anyEvent (.start 2) events).isSome = true) :
    Reachable farmStep (.start 2) (after events) := by
  obtain ⟨s, hs⟩ := Option.isSome_iff_exists.mp hsome
  rw [after, hs]
  exact run_of_execute hs

-- The first child prints a message of two bytes, and the parent takes it for available twice over. It is
-- handed the second connection, and for the third and fourth no child is left but the other one.
example :
    let round : List (FarmEvent ℕ) := [.select false, .parent, .parent]
    (after ([.select true, .accept 7, .parent, .child 0, .err 0 2] ++ round ++ round ++
      [.select true, .accept 8, .parent, .select true, .accept 9, .parent, .select true,
        .accept 10])).place.isNoChild = true := by
  decide

/-! ### Nothing is overlooked -/

/-- The statements that a child's place leaves. -/
def ChildPlace.work : ChildPlace Connection → ℕ
  | .serving _ => 3
  | .writing => 2
  | .quitting _ => 1
  | .reading | .ended _ => 0

/-- The statements that a child leaves until its byte has been read. -/
def Child.work (child : Child Connection) : ℕ :=
  4 * child.descriptors.length + child.place.work + child.bytes

/-- What the parent's own place leaves in this round. After something has been read it is more than a new
round would leave. -/
def Farm.phase (s : Farm Connection) : ℕ :=
  match s.place with
  | .selecting => s.children.length + 3
  | .listening => s.children.length + 2
  | .checking i =>
    (if s.read = ∅ then 0 else s.children.length + 4) + (s.children.length + 1 - i)
  | .handing .. => 1
  | .noChild _ | .childEnded _ | .broken .. => 0

/-- What is left to do without new connections. -/
def Farm.work (s : Farm Connection) : ℕ :=
  (2 * s.children.length + 6) *
    (total Child.work s.children + 5 * s.place.connections.length) + s.phase

/-- A step that parent and children take by themselves, without a new connection and without a client. -/
def FarmEvent.isOwn : FarmEvent Connection → Bool
  | .select pending => !pending
  | .parent | .child _ => true
  | .accept _ | .clientCloses _ | .err .. => false

/-- A step that does a part of what is left to do: such a step, or the end of a service. -/
def FarmEvent.isProgress : FarmEvent Connection → Bool
  | .clientCloses _ => true
  | event => event.isOwn

theorem phase_lt (s : Farm Connection) : s.phase < 2 * s.children.length + 6 := by
  simp only [Farm.phase]
  split
  · omega
  · omega
  · split_ifs <;> omega
  · omega
  · omega
  · omega
  · omega

/-- The parent or a child has done something for a connection. -/
theorem work_lt {n before after : ℕ} (hlt : after < before) {phase phase' : ℕ} (hphase : phase' < n) :
    n * after + phase' < n * before + phase := by
  have hle := Nat.mul_le_mul_left n (Nat.succ_le_of_lt hlt)
  rw [Nat.mul_succ] at hle
  omega

/-- A child moves on. -/
theorem work_child {i : ℕ} {child new : Child Connection} {closed : List (ℕ × Connection)}
    (hchild : s.children[i]? = some child) (hlt : new.work < child.work) :
    Farm.work { s with children := s.children.set i new, closed := closed } < s.work := by
  have htotal := total_set Child.work hchild new
  have hphase := phase_lt s
  have hsame : Farm.phase { s with children := s.children.set i new, closed := closed } = s.phase := by
    simp only [Farm.phase, List.length_set]
  rw [Farm.work, hsame]
  simp only [List.length_set]
  exact work_lt (by omega) hphase

/-- The parent writes to a child's pipe or reads from it. -/
theorem work_exchange {i k : ℕ} {child new : Child Connection} {navail : ℤ} {key : Option ℕ}
    (hchild : s.children[i]? = some child)
    (hlt : new.work < child.work + 5 * s.place.connections.length) :
    ({ s with children := s.children.set i new, navail := navail }.countDown key (.checking k)).work <
      s.work := by
  have htotal := total_set Child.work hchild new
  have hphase := phase_lt
    ({ s with children := s.children.set i new, navail := navail }.countDown key (.checking k))
  have hconnections := @countDown_connections _
    { s with children := s.children.set i new, navail := navail } key k
  rw [Farm.work, hconnections, List.length_nil, Nat.mul_zero, Nat.add_zero]
  simp only [Farm.countDown, List.length_set] at hphase ⊢
  exact work_lt (by omega) hphase

theorem work_farmMove [DecidableEq Connection] (consistent : Consistent s)
    (hprogress : event.isProgress = true) (hmove : FarmMove s event next) : next.work < s.work := by
  obtain ⟨manned, round, -⟩ := consistent
  cases hmove with
  | select pending hplace hready =>
    simp only [Farm.work, Farm.phase, hplace, ParentPlace.connections]
    omega
  | noChild | accept | err => cases hprogress
  | notListening hplace hready =>
    obtain ⟨-, hread, -⟩ := round.listening hplace
    simp only [Farm.work, Farm.phase, hplace, ParentPlace.connections, hread, if_true]
    omega
  | hand i connfd child hplace hchild =>
    refine work_exchange hchild ?_
    simp only [hplace, ParentPlace.connections, Child.work, List.length_append, List.length_singleton]
    omega
  | broken i connfd child hplace hchild hended =>
    simp only [Farm.work, Farm.phase, hplace, ParentPlace.connections]
    omega
  | finish i hplace hnone =>
    obtain ⟨hcounted, ⟨key, hkey⟩, awaits, hrest, -⟩ := round.checking i hplace
    -- Something has been read: all that is ready is below the end of the table.
    have hread : s.read ≠ ∅ := by
      intro hempty
      have hnot : ∀ key, key ∉ s.read := fun key hmem ↦ Finset.notMem_empty key (hempty ▸ hmem)
      obtain ⟨j, hle, rfl⟩ := hrest key hkey (hnot key)
      obtain ⟨child, hchild, -⟩ := awaits j hkey (hnot _)
      have hlt := (List.getElem?_eq_some_iff.mp hchild).1
      have hge := List.getElem?_eq_none_iff.mp hnone
      omega
    simp only [Farm.work, Farm.phase, hplace, ParentPlace.connections, if_neg hread]
    omega
  | skip i child hplace hchild hnot =>
    have hlt := (List.getElem?_eq_some_iff.mp hchild).1
    simp only [Farm.work, Farm.phase, hplace, ParentPlace.connections]
    omega
  | readByte i child hplace hchild hready hbytes =>
    refine work_exchange hchild ?_
    simp only [Child.work]
    omega
  | readEnd i child hplace hchild hended =>
    have hlt := (List.getElem?_eq_some_iff.mp hchild).1
    simp only [Farm.work, Farm.phase, hplace, ParentPlace.connections]
    omega
  | receive i child connfd descriptors hchild hplace hdescriptors =>
    refine work_child hchild ?_
    simp only [Child.work, hplace, hdescriptors, ChildPlace.work, List.length_cons]
    omega
  | close i child connfd hchild hplace =>
    refine work_child hchild ?_
    simp only [Child.work, hplace, ChildPlace.work]
    omega
  | tell i child hchild hplace =>
    refine work_child hchild ?_
    simp only [Child.work, hplace, ChildPlace.work]
    omega
  | exit i child connfd hchild hplace =>
    refine work_child hchild ?_
    simp only [Child.work, hplace, ChildPlace.work]
    omega

/-- The child serves a client. -/
def ChildPlace.isServing : ChildPlace Connection → Bool
  | .serving _ => true
  | _ => false

/-- The child has ended, serves a client, or waits in `Read_fd` for a connection. -/
def Child.Waits (child : Child Connection) : Prop :=
  child.place.isEnded = true ∨ child.place.isServing = true ∨
    child.place = .reading ∧ child.connections = []

/-- So does a child that cannot move. -/
theorem child_waits {i : ℕ} {child : Child Connection} {hands : Bool} (hstands : Stands hands child)
    (hchild : s.children[i]? = some child) (hnone : childStep s i = none) : child.Waits := by
  simp only [childStep, hchild, Option.bind_some] at hnone
  cases hstands with
  | handed | writing => cases hnone
  | available | marked | told => exact .inr (.inr ⟨rfl, rfl⟩)
  | serving => exact .inr (.inl rfl)
  | quit _ _ hquit =>
    cases hplace : child.place with
    | ended connfd => exact .inl (by rw [hplace]; rfl)
    | quitting connfd =>
      rw [hplace] at hnone
      cases hnone
    | _ =>
      rw [hplace] at hquit
      cases hquit

/-- If there is nothing to read from it either, it serves a client or is available. -/
theorem child_available {child : Child Connection} (hstands : Stands false child)
    (hwaits : child.Waits) (hunreadable : child.isReadable = false) :
    child.place.isQuit = false ∧ child.busy = child.place.isServing := by
  cases hstands with
  | available | serving => exact ⟨rfl, rfl⟩
  | handed => rcases hwaits with hat | hat | ⟨-, hat⟩ <;> cases hat
  | writing => rcases hwaits with hat | hat | ⟨hat, -⟩ <;> cases hat
  | told => cases hunreadable
  | quit _ _ hquit =>
    rcases hwaits with hat | hat | ⟨hat, -⟩
    · simp only [Child.isReadable, hat, Bool.or_true, Bool.true_eq_false] at hunreadable
    · cases hplace : child.place with
      | quitting | ended =>
        rw [hplace] at hat
        cases hat
      | _ =>
        rw [hplace] at hquit
        cases hquit
    · rw [hat] at hquit
      cases hquit

/-- A parent that cannot move is at its end, in `Accept`, or in `Select` with nothing to read. -/
theorem parent_waits (manned : Manned s) (round : Round s)
    (hnone : ∀ event : FarmEvent Connection, event.isOwn = true → farmStep s event = none) :
    (s.place.isNoChild = true ∨ ∃ i, s.place.lostTo = some i) ∨ s.place = .listening ∨
      s.place = .selecting ∧ ∀ child ∈ s.children, child.isReadable = false := by
  have hparent : s.place.isEnd = false → parentStep s = none := by
    intro hgo
    have hat := hnone .parent rfl
    simpa only [farmStep, hgo, Bool.false_eq_true, if_false] using hat
  cases hplace : s.place with
  | noChild connfd => exact .inl (.inl rfl)
  | childEnded i | broken i connfd => exact .inl (.inr ⟨i, rfl⟩)
  | listening => exact .inr (.inl rfl)
  | handing i connfd =>
    have hlt := manned.handing i connfd hplace
    have hat := hparent (by rw [hplace]; rfl)
    simp only [parentStep, hplace, handStep, List.getElem?_eq_getElem hlt, Option.map_some, reduceCtorEq]
      at hat
  | checking i =>
    have hat := hparent (by rw [hplace]; rfl)
    simp only [parentStep, hplace] at hat
    split at hat
    · cases hat
    · next child hchild =>
      split_ifs at hat with hready
      obtain ⟨-, -, awaits, -, hlater⟩ := round.checking i hplace
      obtain ⟨other, hother, hreadable⟩ := awaits i hready (hlater i (Nat.le_refl i))
      obtain rfl := Option.some.inj (hchild.symm.trans hother)
      simp only [readStep] at hat
      split_ifs at hat with hbytes hended
      simp only [Child.isReadable, hbytes, decide_false, Bool.false_or] at hreadable
      exact (hended hreadable).elim
  | selecting =>
    refine .inr (.inr ⟨rfl, fun child hmem ↦ ?_⟩)
    by_contra hreadable
    obtain ⟨i, hchild⟩ := List.mem_iff_getElem?.mp hmem
    have hready : (readySet s false).Nonempty := by
      refine ⟨some i, Finset.mem_union_right _ (Finset.mem_image_of_mem some (mem_readable.mpr ?_))⟩
      exact ⟨child, hchild, Bool.eq_true_of_not_eq_false hreadable⟩
    have hat := hnone (.select false) rfl
    simp only [farmStep, hplace, ParentPlace.isEnd, Bool.false_eq_true, if_false, if_pos hready,
      reduceCtorEq] at hat

/-- Without new connections and failures in `web_child` every run has no more steps than there is work
left, the ends of services included. Where parent and children can take no step, either the parent has
ended because a child has, or is about to; or every child has ended, serves a client or waits for a
connection. Then the parent is in `Accept`, or no child has ended, `navail` is the number of the children
that serve no client, and every connection accepted has been closed or is being served. -/
theorem farm_settles {nchildren : ℕ} (hrun : Reachable farmStep (.start nchildren) s) :
    (∀ (events : List (FarmEvent Connection)) finish,
        execute farmStep (fun _ event ↦ event.isProgress = true) s events = some finish →
          events.length ≤ s.work) ∧
      ((∀ event : FarmEvent Connection, event.isOwn = true → farmStep s event = none) →
        (s.place.isNoChild = true ∧ ¬ Sound s.children) ∨
        (∃ (i : ℕ) (child : Child Connection), s.place.lostTo = some i ∧ s.children[i]? = some child ∧
          child.place.isEnded = true) ∨
        (∀ child ∈ s.children, child.Waits) ∧
          (s.place = .listening ∨ s.place = .selecting ∧ Sound s.children ∧
            s.navail = s.children.countP (fun child ↦ !child.place.isServing) ∧
            s.accepted.Perm (s.closed.map Prod.snd ++ s.children.flatMap Child.connections))) := by
  classical
  have consistent := consistent_of_run hrun
  have manned := consistent.manned
  refine ⟨fun events finish hexecute ↦ ?_, fun hnone ↦ ?_⟩
  · exact length_le_of_measure Farm.work (fun _ _ _ h htaken ↦ consistent_farmMove h
      (farmMove_of_farmStep htaken)) (fun _ _ _ h hprogress htaken ↦ work_farmMove h hprogress
      (farmMove_of_farmStep htaken)) consistent hexecute
  · have hwaits : s.place.isEnd = false → ∀ child ∈ s.children, child.Waits := by
      intro hgo child hmem
      obtain ⟨i, hchild⟩ := List.mem_iff_getElem?.mp hmem
      have hat := hnone (.child i) rfl
      simp only [farmStep, hgo, Bool.false_eq_true, if_false] at hat
      exact child_waits (manned.stands i child hchild) hchild hat
    rcases parent_waits manned consistent.round hnone with (hplace | ⟨i, hplace⟩) | hplace | ⟨hplace, hunreadable⟩
    · exact .inl ⟨hplace, manned.noChild hplace⟩
    · obtain ⟨child, hchild, hended⟩ := manned.ended i hplace
      exact .inr (.inl ⟨i, child, hplace, hchild, hended⟩)
    · exact .inr (.inr ⟨hwaits (by rw [hplace]; rfl), .inl hplace⟩)
    · have hgo : s.place.isEnd = false := by rw [hplace]; rfl
      have hidle : ∀ child ∈ s.children,
          child.place.isQuit = false ∧ child.busy = child.place.isServing := by
        intro child hmem
        obtain ⟨i, hchild⟩ := List.mem_iff_getElem?.mp hmem
        have hstands := manned.stands i child hchild
        rw [hplace] at hstands
        exact child_available hstands (hwaits hgo child hmem) (hunreadable child hmem)
      have hsound : Sound s.children := fun child hmem ↦ (hidle child hmem).1
      refine .inr (.inr ⟨hwaits hgo, .inr ⟨hplace, hsound, ?_, ?_⟩⟩)
      · have hcount : s.children.countP (fun child ↦ !child.busy) =
            s.children.countP (fun child ↦ !child.place.isServing) :=
          List.countP_congr fun child hmem ↦ by rw [(hidle child hmem).2]
        rw [manned.navail_eq hsound, total_availability, hcount]
      · have hperm := perm_of_placed consistent.placed
        rw [hplace] at hperm
        simpa only [ParentPlace.connections, List.append_nil] using hperm

theorem farm_settles_oneConnection :
    (after oneConnection).closed = [(0, 7)] ∧
      ∀ (events : List (FarmEvent ℕ)) finish,
        execute farmStep (fun _ event ↦ event.isProgress = true) (after oneConnection) events =
          some finish → events.length ≤ (after oneConnection).work :=
  ⟨by decide, (farm_settles (run_after (by decide))).1⟩

end CppLearn.Unp.PreforkServer
