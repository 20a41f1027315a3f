import CppLearn.Foundation.ByteOrder
import CppLearn.Foundation.GuardedRun
import CppLearn.Foundation.LinearBuffer

/-!
# A client that never blocks on its descriptors

`str_cli` copies standard input to a socket and the socket to standard output, through a buffer for each
direction, and waits in `select` only. A round of its loop is four steps: `relayStep` takes them one by
one, with whatever `read` and `write` return and whatever `select` reports. An error of `select` itself,
which ends the process, is left out.

What was read is what was written and what is in the buffer, in this order (`relayed`). The `FIN` is sent
once, after the last byte of standard input (`fin_after_last`). `select` always has something to wait
for, and no `read` asks for zero bytes, so that zero bytes are the end of a file (`waits_and_reads`).
From every state the client can still deliver all it has read and come to its normal end
(`can_deliver`); but it also ends when bytes from the server have not been written yet.
-/

set_option autoImplicit false
set_option relaxedAutoImplicit false

namespace CppLearn.Unp.StrClient

open Foundation.ByteOrder Foundation.GuardedRun Foundation.LinearBuffer

/-- `MAXLINE`. -/
def maxline : ℕ := 4096

/-- The descriptors in `rset` and `wset`. -/
structure Sets where
  stdin : Bool
  sockIn : Bool
  stdout : Bool
  sockOut : Bool
  deriving DecidableEq

/-- Where the client stands: at the loop's head, before one of the four tests of `FD_ISSET`, past its
`return`, or past `err_sys` or `err_quit`. -/
inductive Place
  | selecting
  | stdin
  | sockIn
  | stdout
  | sockOut
  | returned
  | failed
  deriving DecidableEq

/-- The buffers `to` and `fr` and the flags. The logs are what has been read and written on each
descriptor, and how often the socket was shut down. -/
structure Relay where
  place : Place
  sets : Sets
  toBuffer : Buffer Byte maxline
  frBuffer : Buffer Byte maxline
  stdineof : Bool
  fromStdin : List Byte
  toSocket : List Byte
  fromSocket : List Byte
  toStdout : List Byte
  shutdowns : ℕ

/-- The start, with whatever the arrays hold. -/
def Relay.start (toSlots frSlots : ℕ → Byte) : Relay :=
  { place := .selecting
    sets := ⟨false, false, false, false⟩
    toBuffer := .empty toSlots
    frBuffer := .empty frSlots
    stdineof := false
    fromStdin := []
    toSocket := []
    fromSocket := []
    toStdout := []
    shutdowns := 0 }

/-- What `read` returns: `EWOULDBLOCK`, another error, or bytes, of which there are none at the end. -/
inductive ReadResult
  | wouldBlock
  | error
  | bytes (bytes : List Byte)

/-- What `write` returns: `EWOULDBLOCK`, another error, or a number of bytes. -/
inductive WriteResult
  | wouldBlock
  | error
  | wrote (nwritten : ℕ)

/-- `select` returns with descriptors that are ready, a descriptor is read or written, or a test of
`FD_ISSET` fails. -/
inductive RelayEvent
  | select (ready : Sets)
  | read (result : ReadResult)
  | write (result : WriteResult)
  | pass

/-- The descriptors that the loop's head sets. -/
def interest (s : Relay) : Sets :=
  { stdin := !s.stdineof && s.toBuffer.iptr < maxline
    sockIn := s.frBuffer.iptr < maxline
    stdout := s.frBuffer.optr != s.frBuffer.iptr
    sockOut := s.toBuffer.optr != s.toBuffer.iptr }

/-- Some descriptor is in a set. -/
def Sets.isSome (sets : Sets) : Bool := sets.stdin || sets.sockIn || sets.stdout || sets.sockOut

/-- All descriptors of a set are in another. -/
def Sets.within (sets all : Sets) : Bool :=
  (!sets.stdin || all.stdin) && (!sets.sockIn || all.sockIn) && (!sets.stdout || all.stdout) &&
    (!sets.sockOut || all.sockOut)

/-- The read of standard input. -/
def readStdin (s : Relay) : ReadResult → Option Relay
  | .wouldBlock => some { s with place := .sockIn }
  | .error => some { s with place := .failed }
  | .bytes bytes =>
    if hroom : s.toBuffer.iptr + bytes.length ≤ maxline then
      if bytes.length = 0 then
        some { s with
          place := .sockIn
          stdineof := true
          shutdowns := if s.toBuffer.optr = s.toBuffer.iptr then s.shutdowns + 1 else s.shutdowns }
      else
        some { s with
          place := .sockIn
          toBuffer := s.toBuffer.put bytes hroom
          fromStdin := s.fromStdin ++ bytes
          sets := { s.sets with sockOut := true } }
    else none

/-- The read of the socket. -/
def readSocket (s : Relay) : ReadResult → Option Relay
  | .wouldBlock => some { s with place := .stdout }
  | .error => some { s with place := .failed }
  | .bytes bytes =>
    if hroom : s.frBuffer.iptr + bytes.length ≤ maxline then
      if bytes.length = 0 then some { s with place := if s.stdineof then .returned else .failed }
      else
        some { s with
          place := .stdout
          frBuffer := s.frBuffer.put bytes hroom
          fromSocket := s.fromSocket ++ bytes
          sets := { s.sets with stdout := true } }
    else none

/-- The write to standard output. -/
def writeStdout (s : Relay) : WriteResult → Option Relay
  | .wouldBlock => some { s with place := .sockOut }
  | .error => some { s with place := .failed }
  | .wrote nwritten =>
    if hcount : s.frBuffer.optr + nwritten ≤ s.frBuffer.iptr then
      some { s with
        place := .sockOut
        frBuffer := s.frBuffer.get nwritten hcount
        toStdout := s.toStdout ++ s.frBuffer.contents.take nwritten }
    else none

/-- The write to the socket. -/
def writeSocket (s : Relay) : WriteResult → Option Relay
  | .wouldBlock => some { s with place := .selecting }
  | .error => some { s with place := .failed }
  | .wrote nwritten =>
    if hcount : s.toBuffer.optr + nwritten ≤ s.toBuffer.iptr then
      some { s with
        place := .selecting
        toBuffer := s.toBuffer.get nwritten hcount
        toSocket := s.toSocket ++ s.toBuffer.contents.take nwritten
        shutdowns :=
          if s.toBuffer.optr + nwritten = s.toBuffer.iptr ∧ s.stdineof then s.shutdowns + 1 else s.shutdowns }
    else none

/-- One step of the loop. -/
def relayStep (s : Relay) : RelayEvent → Option Relay
  | .select ready =>
    if s.place = .selecting ∧ ready.within (interest s) ∧ ready.isSome then
      some { s with place := .stdin, sets := ready }
    else none
  | .read result =>
    if s.place = .stdin ∧ s.sets.stdin then readStdin s result
    else if s.place = .sockIn ∧ s.sets.sockIn then readSocket s result
    else none
  | .write result =>
    if s.place = .stdout ∧ s.sets.stdout ∧ s.frBuffer.optr < s.frBuffer.iptr then writeStdout s result
    else if s.place = .sockOut ∧ s.sets.sockOut ∧ s.toBuffer.optr < s.toBuffer.iptr then writeSocket s result
    else none
  | .pass =>
    if s.place = .stdin ∧ ¬ s.sets.stdin then some { s with place := .sockIn }
    else if s.place = .sockIn ∧ ¬ s.sets.sockIn then some { s with place := .stdout }
    else if s.place = .stdout ∧ ¬ (s.sets.stdout ∧ s.frBuffer.optr < s.frBuffer.iptr) then
      some { s with place := .sockOut }
    else if s.place = .sockOut ∧ ¬ (s.sets.sockOut ∧ s.toBuffer.optr < s.toBuffer.iptr) then
      some { s with place := .selecting }
    else none

/-! ### The moves -/

/-- The place after a test of `FD_ISSET`. -/
def Place.next : Place → Place
  | .stdin => .sockIn
  | .sockIn => .stdout
  | .stdout => .sockOut
  | .sockOut => .selecting
  | place => place

/-- The place is before a test of `FD_ISSET`. -/
def Place.isTest : Place → Bool
  | .stdin | .sockIn | .stdout | .sockOut => true
  | _ => false

/-- What a step can be. -/
inductive RelayMove (s : Relay) : Relay → Prop
  | select (ready : Sets) (hplace : s.place = .selecting) (hready : ready.within (interest s) = true)
      (hsome : ready.isSome = true) : RelayMove s { s with place := .stdin, sets := ready }
  | forward (htest : s.place.isTest = true) : RelayMove s { s with place := s.place.next }
  | fail (htest : s.place.isTest = true) : RelayMove s { s with place := .failed }
  | stdinEof (hplace : s.place = .stdin) (hset : s.sets.stdin = true) :
      RelayMove s { s with
        place := .sockIn
        stdineof := true
        shutdowns := if s.toBuffer.optr = s.toBuffer.iptr then s.shutdowns + 1 else s.shutdowns }
  | stdinBytes (bytes : List Byte) (hroom : s.toBuffer.iptr + bytes.length ≤ maxline)
      (hplace : s.place = .stdin) (hset : s.sets.stdin = true) (hsome : bytes.length ≠ 0) :
      RelayMove s { s with
        place := .sockIn
        toBuffer := s.toBuffer.put bytes hroom
        fromStdin := s.fromStdin ++ bytes
        sets := { s.sets with sockOut := true } }
  | socketEof (hplace : s.place = .sockIn) (heof : s.stdineof = true) :
      RelayMove s { s with place := .returned }
  | socketBytes (bytes : List Byte) (hroom : s.frBuffer.iptr + bytes.length ≤ maxline)
      (hplace : s.place = .sockIn) (hsome : bytes.length ≠ 0) :
      RelayMove s { s with
        place := .stdout
        frBuffer := s.frBuffer.put bytes hroom
        fromSocket := s.fromSocket ++ bytes
        sets := { s.sets with stdout := true } }
  | writeStdout (nwritten : ℕ) (hcount : s.frBuffer.optr + nwritten ≤ s.frBuffer.iptr)
      (hplace : s.place = .stdout) :
      RelayMove s { s with
        place := .sockOut
        frBuffer := s.frBuffer.get nwritten hcount
        toStdout := s.toStdout ++ s.frBuffer.contents.take nwritten }
  | writeSocket (nwritten : ℕ) (hcount : s.toBuffer.optr + nwritten ≤ s.toBuffer.iptr)
      (hplace : s.place = .sockOut) (hsome : s.toBuffer.optr < s.toBuffer.iptr) :
      RelayMove s { s with
        place := .selecting
        toBuffer := s.toBuffer.get nwritten hcount
        toSocket := s.toSocket ++ s.toBuffer.contents.take nwritten
        shutdowns :=
          if s.toBuffer.optr + nwritten = s.toBuffer.iptr ∧ s.stdineof then s.shutdowns + 1
          else s.shutdowns }

variable {s next : Relay}

/-- A test that fails, or a call that would block. -/
theorem RelayMove.forward_to {place after : Place} (hplace : s.place = place)
    (htest : place.isTest = true) (hafter : place.next = after) :
    RelayMove s { s with place := after } := by
  subst hplace hafter
  exact .forward htest

theorem RelayMove.fail_at {place : Place} (hplace : s.place = place) (htest : place.isTest = true) :
    RelayMove s { s with place := .failed } := by
  subst hplace
  exact .fail htest

theorem relayMove_of_readStdin {result : ReadResult} (hplace : s.place = .stdin)
    (hset : s.sets.stdin = true) (htaken : readStdin s result = some next) : RelayMove s next := by
  cases result with
  | wouldBlock =>
    cases htaken
    exact .forward_to hplace rfl rfl
  | error =>
    cases htaken
    exact .fail_at hplace rfl
  | bytes bytes =>
    simp only [readStdin] at htaken
    split at htaken
    · next hroom =>
      split at htaken
      · cases htaken
        exact .stdinEof hplace hset
      · next hsome =>
        cases htaken
        exact .stdinBytes bytes hroom hplace hset hsome
    · cases htaken

theorem relayMove_of_readSocket {result : ReadResult} (hplace : s.place = .sockIn)
    (htaken : readSocket s result = some next) : RelayMove s next := by
  cases result with
  | wouldBlock =>
    cases htaken
    exact .forward_to hplace rfl rfl
  | error =>
    cases htaken
    exact .fail_at hplace rfl
  | bytes bytes =>
    simp only [readSocket] at htaken
    split at htaken
    · next hroom =>
      split at htaken
      · cases htaken
        by_cases heof : s.stdineof = true
        · rw [if_pos heof]
          exact .socketEof hplace heof
        · rw [if_neg heof]
          exact .fail_at hplace rfl
      · next hsome =>
        cases htaken
        exact .socketBytes bytes hroom hplace hsome
    · cases htaken

theorem relayMove_of_writeStdout {result : WriteResult} (hplace : s.place = .stdout)
    (htaken : writeStdout s result = some next) : RelayMove s next := by
  cases result with
  | wouldBlock =>
    cases htaken
    exact .forward_to hplace rfl rfl
  | error =>
    cases htaken
    exact .fail_at hplace rfl
  | wrote nwritten =>
    simp only [writeStdout] at htaken
    split at htaken
    · next hcount =>
      cases htaken
      exact .writeStdout nwritten hcount hplace
    · cases htaken

theorem relayMove_of_writeSocket {result : WriteResult} (hplace : s.place = .sockOut)
    (hsome : s.toBuffer.optr < s.toBuffer.iptr) (htaken : writeSocket s result = some next) :
    RelayMove s next := by
  cases result with
  | wouldBlock =>
    cases htaken
    exact .forward_to hplace rfl rfl
  | error =>
    cases htaken
    exact .fail_at hplace rfl
  | wrote nwritten =>
    simp only [writeSocket] at htaken
    split at htaken
    · next hcount =>
      cases htaken
      exact .writeSocket nwritten hcount hplace hsome
    · cases htaken

theorem relayMove_of_relayStep {event : RelayEvent} (htaken : relayStep s event = some next) :
    RelayMove s next := by
  cases event with
  | select ready =>
    simp only [relayStep] at htaken
    split_ifs at htaken with hready
    cases htaken
    exact .select ready hready.1 hready.2.1 hready.2.2
  | read result =>
    simp only [relayStep] at htaken
    split_ifs at htaken with hstdin hsocket
    · exact relayMove_of_readStdin hstdin.1 hstdin.2 htaken
    · exact relayMove_of_readSocket hsocket.1 htaken
  | write result =>
    simp only [relayStep] at htaken
    split_ifs at htaken with hstdout hsocket
    · exact relayMove_of_writeStdout hstdout.1 htaken
    · exact relayMove_of_writeSocket hsocket.1 hsocket.2.2 htaken
  | pass =>
    simp only [relayStep] at htaken
    split_ifs at htaken with hstdin hsockIn hstdout hsockOut
    · cases htaken
      exact .forward_to hstdin.1 rfl rfl
    · cases htaken
      exact .forward_to hsockIn.1 rfl rfl
    · cases htaken
      exact .forward_to hstdout.1 rfl rfl
    · cases htaken
      exact .forward_to hsockOut.1 rfl rfl

/-! ### What every step preserves -/

/-- What was read is what was written and what is in the buffer. The socket has been shut down once if
standard input is at its end and all of it has been written, and else not. -/
structure Consistent (s : Relay) : Prop where
  stdin_eq : s.fromStdin = s.toSocket ++ s.toBuffer.contents
  socket_eq : s.fromSocket = s.toStdout ++ s.frBuffer.contents
  shutdowns_eq : s.shutdowns = if s.stdineof = true ∧ s.toBuffer.contents = [] then 1 else 0
  stdin_room : s.place = .stdin → s.sets.stdin = true →
    s.stdineof = false ∧ s.toBuffer.iptr < maxline
  socket_room : s.place = .stdin ∨ s.place = .sockIn → s.sets.sockIn = true →
    s.frBuffer.iptr < maxline
  returned : s.place = .returned → s.stdineof = true

theorem Consistent.start (toSlots frSlots : ℕ → Byte) : Consistent (.start toSlots frSlots) where
  stdin_eq := rfl
  socket_eq := rfl
  shutdowns_eq := rfl
  stdin_room heq := by cases heq
  socket_room heq := by rcases heq with heq | heq <;> cases heq
  returned heq := by cases heq

theorem within_iff {sets all : Sets} : sets.within all = true ↔
    (sets.stdin = true → all.stdin = true) ∧ (sets.sockIn = true → all.sockIn = true) ∧
      (sets.stdout = true → all.stdout = true) ∧ (sets.sockOut = true → all.sockOut = true) := by
  have himp (first second : Bool) :
      (!first || second) = true ↔ (first = true → second = true) := by
    cases first <;> cases second <;> decide
  simp only [Sets.within, Bool.and_eq_true, himp, and_assoc]

/-- No test leads to the read of standard input, and only that one to the read of the socket. -/
theorem next_spec {place : Place} (htest : place.isTest = true) :
    place.next ≠ .stdin ∧ place.next ≠ .returned ∧ (place.next = .sockIn → place = .stdin) := by
  cases place with
  | selecting | returned | failed => cases htest
  | stdin | sockIn | stdout | sockOut => simp only [Place.next, ne_eq, reduceCtorEq, not_false_eq_true,
      false_implies, implies_true, and_self]

namespace Consistent

theorem select (h : Consistent s) {ready : Sets} (hready : ready.within (interest s) = true) :
    Consistent { s with place := .stdin, sets := ready } := by
  obtain ⟨hstdin, hsockIn, -, -⟩ := within_iff.mp hready
  refine { h with
    stdin_room := fun _ hset ↦ ?_
    socket_room := fun _ hset ↦ of_decide_eq_true (hsockIn hset)
    returned := fun heq ↦ by cases heq }
  have hinterest := hstdin hset
  simp only [interest, Bool.and_eq_true, Bool.not_eq_true', decide_eq_true_eq] at hinterest
  exact hinterest

theorem forward (h : Consistent s) (htest : s.place.isTest = true) :
    Consistent { s with place := s.place.next } := by
  obtain ⟨hstdin, hreturned, hsockIn⟩ := next_spec htest
  refine { h with
    stdin_room := fun heq ↦ absurd heq hstdin
    socket_room := fun heq hset ↦ ?_
    returned := fun heq ↦ absurd heq hreturned }
  rcases heq with heq | heq
  · exact absurd heq hstdin
  · exact h.socket_room (.inl (hsockIn heq)) hset

theorem stdinEof (h : Consistent s) (hplace : s.place = .stdin) (hset : s.sets.stdin = true) :
    Consistent { s with
      place := .sockIn
      stdineof := true
      shutdowns := if s.toBuffer.optr = s.toBuffer.iptr then s.shutdowns + 1 else s.shutdowns } := by
  obtain ⟨heof, -⟩ := h.stdin_room hplace hset
  have hzero := h.shutdowns_eq
  rw [if_neg (fun hall ↦ by rw [heof] at hall; cases hall.1)] at hzero
  refine { h with
    shutdowns_eq := ?_
    stdin_room := fun heq ↦ by cases heq
    socket_room := fun _ ↦ h.socket_room (.inl hplace)
    returned := fun heq ↦ by cases heq }
  simp only [hzero, true_and, s.toBuffer.contents_eq_nil_iff]

theorem stdinBytes (h : Consistent s) {bytes : List Byte}
    (hroom : s.toBuffer.iptr + bytes.length ≤ maxline) (hplace : s.place = .stdin)
    (hset : s.sets.stdin = true) :
    Consistent { s with
      place := .sockIn
      toBuffer := s.toBuffer.put bytes hroom
      fromStdin := s.fromStdin ++ bytes
      sets := { s.sets with sockOut := true } } := by
  obtain ⟨heof, -⟩ := h.stdin_room hplace hset
  have hzero := h.shutdowns_eq
  rw [if_neg (fun hall ↦ by rw [heof] at hall; cases hall.1)] at hzero
  refine { h with
    stdin_eq := ?_
    shutdowns_eq := ?_
    stdin_room := fun heq ↦ by cases heq
    socket_room := fun _ ↦ h.socket_room (.inl hplace)
    returned := fun heq ↦ by cases heq }
  · simp only [h.stdin_eq, s.toBuffer.contents_put hroom, List.append_assoc]
  · simp only [hzero, heof, Bool.false_eq_true, false_and, if_false]

theorem socketBytes (h : Consistent s) {bytes : List Byte}
    (hroom : s.frBuffer.iptr + bytes.length ≤ maxline) :
    Consistent { s with
      place := .stdout
      frBuffer := s.frBuffer.put bytes hroom
      fromSocket := s.fromSocket ++ bytes
      sets := { s.sets with stdout := true } } := by
  refine { h with
    socket_eq := ?_
    stdin_room := fun heq ↦ by cases heq
    socket_room := fun heq ↦ by rcases heq with heq | heq <;> cases heq
    returned := fun heq ↦ by cases heq }
  simp only [h.socket_eq, s.frBuffer.contents_put hroom, List.append_assoc]

theorem writeStdout (h : Consistent s) {nwritten : ℕ}
    (hcount : s.frBuffer.optr + nwritten ≤ s.frBuffer.iptr) :
    Consistent { s with
      place := .sockOut
      frBuffer := s.frBuffer.get nwritten hcount
      toStdout := s.toStdout ++ s.frBuffer.contents.take nwritten } := by
  refine { h with
    socket_eq := ?_
    stdin_room := fun heq ↦ by cases heq
    socket_room := fun heq ↦ by rcases heq with heq | heq <;> cases heq
    returned := fun heq ↦ by cases heq }
  simp only [h.socket_eq, s.frBuffer.contents_get hcount, List.append_assoc, List.take_append_drop]

theorem writeSocket (h : Consistent s) {nwritten : ℕ}
    (hcount : s.toBuffer.optr + nwritten ≤ s.toBuffer.iptr)
    (hsome : s.toBuffer.optr < s.toBuffer.iptr) :
    Consistent { s with
      place := .selecting
      toBuffer := s.toBuffer.get nwritten hcount
      toSocket := s.toSocket ++ s.toBuffer.contents.take nwritten
      shutdowns :=
        if s.toBuffer.optr + nwritten = s.toBuffer.iptr ∧ s.stdineof then s.shutdowns + 1
        else s.shutdowns } := by
  have hleft : s.toBuffer.contents ≠ [] := by
    rw [ne_eq, s.toBuffer.contents_eq_nil_iff]
    exact Nat.ne_of_lt hsome
  have hzero := h.shutdowns_eq
  rw [if_neg (fun hall ↦ hleft hall.2)] at hzero
  have hall : s.toBuffer.contents.drop nwritten = [] ↔
      s.toBuffer.optr + nwritten = s.toBuffer.iptr := by
    rw [List.drop_eq_nil_iff, s.toBuffer.length_contents]
    omega
  refine { h with
    stdin_eq := ?_
    shutdowns_eq := ?_
    stdin_room := fun heq ↦ by cases heq
    socket_room := fun heq ↦ by rcases heq with heq | heq <;> cases heq
    returned := fun heq ↦ by cases heq }
  · simp only [h.stdin_eq, s.toBuffer.contents_get hcount, List.append_assoc, List.take_append_drop]
  · simp only [hzero, s.toBuffer.contents_get hcount, hall, and_comm]

theorem step (h : Consistent s) {event : RelayEvent} (htaken : relayStep s event = some next) :
    Consistent next := by
  cases relayMove_of_relayStep htaken with
  | select ready hplace hready hsome => exact h.select hready
  | forward htest => exact h.forward htest
  | fail htest =>
    exact { h with
      stdin_room := fun heq ↦ by cases heq
      socket_room := fun heq ↦ by rcases heq with heq | heq <;> cases heq
      returned := fun heq ↦ by cases heq }
  | stdinEof hplace hset => exact h.stdinEof hplace hset
  | stdinBytes bytes hroom hplace hset hsome => exact h.stdinBytes hroom hplace hset
  | socketEof hplace heof =>
    exact { h with
      stdin_room := fun heq ↦ by cases heq
      socket_room := fun heq ↦ by rcases heq with heq | heq <;> cases heq
      returned := fun _ ↦ heof }
  | socketBytes bytes hroom hplace hsome => exact h.socketBytes hroom
  | writeStdout nwritten hcount hplace => exact h.writeStdout hcount
  | writeSocket nwritten hcount hplace hsome => exact h.writeSocket hcount hsome

end Consistent

variable {toSlots frSlots : ℕ → Byte}

theorem consistent_of_run (hrun : Reachable relayStep (.start toSlots frSlots) s) : Consistent s :=
  hrun.invariant (.start toSlots frSlots) fun _ _ _ h _ htaken ↦ h.step htaken

/-- The bytes read from a descriptor are those written to the other and those in the buffer, in this
order. The client returns only after the end of standard input, but it may do so with bytes in its
buffers. -/
theorem relayed (hrun : Reachable relayStep (.start toSlots frSlots) s) :
    s.fromStdin = s.toSocket ++ s.toBuffer.contents ∧
      s.fromSocket = s.toStdout ++ s.frBuffer.contents ∧
      (s.place = .returned → s.stdineof = true) := by
  have h := consistent_of_run hrun
  exact ⟨h.stdin_eq, h.socket_eq, h.returned⟩

/-- A client after some events, with arrays of zeros. -/
def after (events : List RelayEvent) : Relay :=
  (execute relayStep anyEvent (.start (fun _ ↦ 0) fun _ ↦ 0) events).getD
    (.start (fun _ ↦ 0) fun _ ↦ 0)

theorem run_after {events : List RelayEvent}
    (hsome : (execute relayStep anyEvent (.start (fun _ ↦ 0) fun _ ↦ 0) events).isSome = true) :
    Reachable relayStep (.start (fun _ ↦ 0) fun _ ↦ 0) (after events) := by
  obtain ⟨s, hs⟩ := Option.isSome_iff_exists.mp hsome
  rw [after, hs]
  exact run_of_execute hs

/-- Standard input ends, and the server sends a byte and then closes while standard output is full. -/
def lastByteLost : List RelayEvent :=
  [.select ⟨true, true, false, false⟩, .read (.bytes []), .read (.bytes [7]), .write .wouldBlock, .pass,
    .select ⟨false, true, false, false⟩, .pass, .read (.bytes [])]

theorem relayed_lastByteLost :
    (after lastByteLost).place = .returned ∧
      (after lastByteLost).fromSocket =
        (after lastByteLost).toStdout ++ (after lastByteLost).frBuffer.contents ∧
      (after lastByteLost).frBuffer.contents = [7] := by
  have hrun := run_after (by decide : (execute relayStep anyEvent _ lastByteLost).isSome = true)
  exact ⟨by decide, (relayed hrun).2.1, by decide⟩

/-- The socket has been shut down once if standard input is at its end and all of it has been written,
and else not. From then on nothing is read from standard input or written to the socket. -/
theorem fin_after_last (hrun : Reachable relayStep (.start toSlots frSlots) s) :
    (s.shutdowns = if s.stdineof = true ∧ s.toSocket = s.fromStdin then 1 else 0) ∧
      (s.shutdowns = 1 → ∀ later, Reachable relayStep s later →
        later.fromStdin = s.fromStdin ∧ later.toSocket = s.toSocket ∧ later.shutdowns = 1) := by
  have h := consistent_of_run hrun
  have hall {relay : Relay} (hrelay : Consistent relay) :
      relay.toSocket = relay.fromStdin ↔ relay.toBuffer.contents = [] := by
    rw [hrelay.stdin_eq, List.self_eq_append_right]
  refine ⟨?_, fun hone later hlater ↦ ?_⟩
  · simp only [hall h]
    exact h.shutdowns_eq
  · induction hlater with
    | refl => exact ⟨rfl, rfl, hone⟩
    | @tail before _ event hbefore _ htaken ih =>
      obtain ⟨hstdin, hsocket, hshutdowns⟩ := ih
      have hmiddle := consistent_of_run (hrun.trans hbefore)
      have hdone : before.stdineof = true ∧ before.toBuffer.contents = [] := by
        have hcount := hmiddle.shutdowns_eq
        by_contra hnot
        rw [if_neg hnot, hshutdowns] at hcount
        cases hcount
      cases relayMove_of_relayStep htaken with
      | stdinEof hplace hset | stdinBytes bytes hroom hplace hset hsome =>
        have heof := (hmiddle.stdin_room hplace hset).1
        rw [hdone.1] at heof
        cases heof
      | writeSocket nwritten hcount hplace hsome =>
        have hempty := before.toBuffer.contents_eq_nil_iff.mp hdone.2
        omega
      | _ => exact ⟨hstdin, hsocket, hshutdowns⟩

/-- Two bytes are written before the end of standard input is read. -/
def twoBytes : List RelayEvent :=
  [.select ⟨true, false, false, false⟩, .read (.bytes [1, 2]), .pass, .pass, .write (.wrote 2),
    .select ⟨true, false, false, false⟩, .read (.bytes [])]

theorem fin_after_last_twoBytes : (after twoBytes).shutdowns = 1 :=
  ((fin_after_last (run_after (by decide))).2 (by decide) _ .refl).2.2

/-- `select` is always given a descriptor, and a `read` always has room for a byte. -/
theorem waits_and_reads (hrun : Reachable relayStep (.start toSlots frSlots) s) :
    (interest s).isSome = true ∧
      (s.place = .stdin → s.sets.stdin = true → s.toBuffer.iptr < maxline) ∧
      (s.place = .sockIn → s.sets.sockIn = true → s.frBuffer.iptr < maxline) := by
  have h := consistent_of_run hrun
  refine ⟨?_, fun hplace hset ↦ (h.stdin_room hplace hset).2, fun hplace ↦ h.socket_room (.inr hplace)⟩
  by_cases hroom : s.frBuffer.iptr < maxline
  · simp only [Sets.isSome, interest, hroom, decide_true, Bool.or_true, Bool.true_or]
  · have hsome := s.frBuffer.contents_ne_nil_of_full (Nat.succ_pos 4095) hroom
    have hne : (s.frBuffer.optr != s.frBuffer.iptr) = true := by
      rw [bne_iff_ne, ne_eq, ← s.frBuffer.contents_eq_nil_iff]
      exact hsome
    simp only [Sets.isSome, interest, hne, Bool.or_true, Bool.true_or]

theorem waits_and_reads_lastByteLost : (interest (after lastByteLost)).isSome = true :=
  (waits_and_reads (run_after (by decide))).1

/-! ### The way to the end -/

/-- A test of `FD_ISSET` fails, or the call after it would block. -/
theorem exists_forward (htest : s.place.isTest = true) :
    ∃ event, relayStep s event = some { s with place := s.place.next } := by
  cases hplace : s.place with
  | selecting | returned | failed =>
    rw [hplace] at htest
    cases htest
  | stdin =>
    by_cases hset : s.sets.stdin = true
    · exact ⟨.read .wouldBlock, by simp only [relayStep, hplace, hset, and_self, if_true, readStdin,
        Place.next]⟩
    · refine ⟨.pass, ?_⟩
      simp only [relayStep, hplace, hset, Bool.false_eq_true, and_self, if_true, Place.next,
        not_false_eq_true]
  | sockIn =>
    by_cases hset : s.sets.sockIn = true
    · refine ⟨.read .wouldBlock, ?_⟩
      simp only [relayStep, hplace, hset, reduceCtorEq, false_and, and_self, if_true, if_false,
        readSocket, Place.next]
    · refine ⟨.pass, ?_⟩
      simp only [relayStep, hplace, hset, reduceCtorEq, Bool.false_eq_true, false_and, and_self,
        if_true, if_false, Place.next, not_false_eq_true]
  | stdout =>
    by_cases hset : s.sets.stdout = true ∧ s.frBuffer.optr < s.frBuffer.iptr
    · refine ⟨.write .wouldBlock, ?_⟩
      simp only [relayStep, hplace, hset, and_self, if_true, writeStdout, Place.next]
    · refine ⟨.pass, ?_⟩
      simp only [relayStep, hplace, hset, reduceCtorEq, false_and, true_and, if_true, if_false,
        Place.next, not_false_eq_true]
  | sockOut =>
    by_cases hset : s.sets.sockOut = true ∧ s.toBuffer.optr < s.toBuffer.iptr
    · refine ⟨.write .wouldBlock, ?_⟩
      simp only [relayStep, hplace, hset, reduceCtorEq, false_and, and_self, if_true, if_false,
        writeSocket, Place.next]
    · refine ⟨.pass, ?_⟩
      simp only [relayStep, hplace, hset, reduceCtorEq, false_and, true_and, if_true, if_false,
        Place.next, not_false_eq_true]

theorem run_forward {place : Place} (hplace : s.place = place) (htest : place.isTest = true) :
    Reachable relayStep s { s with place := place.next } := by
  subst hplace
  obtain ⟨event, htaken⟩ := exists_forward htest
  exact .tail event .refl trivial htaken

/-- A round that does nothing more comes to the loop's head. -/
theorem run_to_selecting (hplace : s.place = .selecting ∨ s.place.isTest = true) :
    Reachable relayStep s { s with place := .selecting } := by
  have hlast {s : Relay} (hplace : s.place = .sockOut) :
      Reachable relayStep s { s with place := .selecting } := run_forward hplace rfl
  have hthird {s : Relay} (hplace : s.place = .stdout) :
      Reachable relayStep s { s with place := .selecting } :=
    (run_forward hplace rfl).trans (hlast rfl)
  have hsecond {s : Relay} (hplace : s.place = .sockIn) :
      Reachable relayStep s { s with place := .selecting } :=
    (run_forward hplace rfl).trans (hthird rfl)
  cases hat : s.place with
  | selecting =>
    rw [← hat]
    exact .refl
  | stdin => exact (run_forward hat rfl).trans (hsecond rfl)
  | sockIn => exact hsecond hat
  | stdout => exact hthird hat
  | sockOut => exact hlast hat
  | returned | failed =>
    rw [hat] at hplace
    rcases hplace with heq | heq <;> cases heq

/-- `select` returns some descriptors. -/
theorem run_select {ready : Sets} (hplace : s.place = .selecting)
    (hready : ready.within (interest s) = true) (hsome : ready.isSome = true) :
    Reachable relayStep s { s with place := .stdin, sets := ready } := by
  refine .tail (.select ready) .refl trivial ?_
  simp only [relayStep, hplace, hready, hsome, and_self, if_true]

/-- All that is in the buffer for standard output is written. -/
theorem run_writeStdout (hplace : s.place = .selecting) (hsome : s.frBuffer.contents ≠ []) :
    ∃ finish, Reachable relayStep s finish ∧ finish.place = .selecting ∧
      finish.frBuffer.contents = [] ∧ finish.fromStdin = s.fromStdin ∧
      finish.fromSocket = s.fromSocket := by
  obtain ⟨hlt, hcount, hempty⟩ := s.frBuffer.exists_get_all hsome
  have hready : (⟨false, false, true, false⟩ : Sets).within (interest s) = true := by
    have hset : (interest s).stdout = true := bne_iff_ne.mpr (Nat.ne_of_lt hlt)
    simp only [Sets.within, hset, Bool.not_false, Bool.true_or, Bool.or_true, Bool.and_self]
  have hselect := run_select hplace hready rfl
  have hstdout := (hselect.trans (run_forward rfl rfl)).trans (run_forward rfl rfl)
  have hwrite := Run.tail (RelayEvent.write (.wrote (s.frBuffer.iptr - s.frBuffer.optr))) hstdout
    trivial (by
      simp only [relayStep, Place.next, hlt, and_self, if_true, writeStdout, dif_pos hcount]
      rfl)
  exact ⟨_, hwrite.trans (run_to_selecting (.inr rfl)), rfl, hempty, rfl, rfl⟩

/-- All that is in the buffer for the socket is written. -/
theorem run_writeSocket (hplace : s.place = .selecting) (hsome : s.toBuffer.contents ≠ []) :
    ∃ finish, Reachable relayStep s finish ∧ finish.place = .selecting ∧
      finish.toBuffer.contents = [] ∧ finish.frBuffer = s.frBuffer ∧
      finish.fromStdin = s.fromStdin ∧ finish.fromSocket = s.fromSocket := by
  obtain ⟨hlt, hcount, hempty⟩ := s.toBuffer.exists_get_all hsome
  have hready : (⟨false, false, false, true⟩ : Sets).within (interest s) = true := by
    have hset : (interest s).sockOut = true := bne_iff_ne.mpr (Nat.ne_of_lt hlt)
    simp only [Sets.within, hset, Bool.not_false, Bool.true_or, Bool.or_true, Bool.and_self]
  have hselect := run_select hplace hready rfl
  have hsockOut := ((hselect.trans (run_forward rfl rfl)).trans (run_forward rfl rfl)).trans
    (run_forward rfl rfl)
  have hwrite := Run.tail (RelayEvent.write (.wrote (s.toBuffer.iptr - s.toBuffer.optr))) hsockOut
    trivial (by
      simp only [relayStep, Place.next, hlt, reduceCtorEq, false_and, and_self, if_true, if_false,
        writeSocket, dif_pos hcount]
      rfl)
  exact ⟨_, hwrite, rfl, hempty, rfl, rfl, rfl⟩

/-- The end of standard input is read. -/
theorem run_stdinEof (hplace : s.place = .selecting) (heof : s.stdineof = false)
    (hnone : s.toBuffer.contents = []) :
    ∃ finish, Reachable relayStep s finish ∧ finish.place = .selecting ∧ finish.stdineof = true ∧
      finish.toBuffer = s.toBuffer ∧ finish.frBuffer = s.frBuffer ∧
      finish.fromStdin = s.fromStdin ∧ finish.fromSocket = s.fromSocket := by
  have hzero := s.toBuffer.iptr_eq_zero_iff.mpr hnone
  have hready : (⟨true, false, false, false⟩ : Sets).within (interest s) = true := by
    have hset : (interest s).stdin = true := by
      simp only [interest, heof, hzero, Bool.not_false, Bool.true_and]
      decide
    simp only [Sets.within, hset, Bool.not_false, Bool.true_or, Bool.or_true, Bool.and_self]
  have hselect := run_select hplace hready rfl
  have hread := Run.tail (RelayEvent.read (.bytes [])) hselect trivial (by
    simp only [relayStep, and_self, if_true, readStdin, List.length_nil, Nat.add_zero,
      dif_pos s.toBuffer.iptr_le]
    rfl)
  exact ⟨_, hread.trans (run_to_selecting (.inr rfl)), rfl, rfl, rfl, rfl, rfl, rfl⟩

/-- The end of the socket is read. -/
theorem run_socketEof (hplace : s.place = .selecting) (heof : s.stdineof = true)
    (hnone : s.frBuffer.contents = []) :
    ∃ finish, Reachable relayStep s finish ∧ finish.place = .returned ∧
      finish.toBuffer = s.toBuffer ∧ finish.frBuffer = s.frBuffer ∧
      finish.fromStdin = s.fromStdin ∧ finish.fromSocket = s.fromSocket := by
  have hzero := s.frBuffer.iptr_eq_zero_iff.mpr hnone
  have hready : (⟨false, true, false, false⟩ : Sets).within (interest s) = true := by
    have hset : (interest s).sockIn = true := by
      simp only [interest, hzero]
      decide
    simp only [Sets.within, hset, Bool.not_false, Bool.true_or, Bool.or_true, Bool.and_self]
  have hselect := (run_select hplace hready rfl).trans (run_forward rfl rfl)
  have hread := Run.tail (RelayEvent.read (.bytes [])) hselect trivial (by
    simp only [relayStep, Place.next, reduceCtorEq, and_self, if_true, if_false, readSocket,
      List.length_nil, Nat.add_zero, dif_pos s.frBuffer.iptr_le, heof]
    rfl)
  exact ⟨_, hread, rfl, rfl, rfl, rfl, rfl⟩

/-- From every state before its end the client can come to its normal end with all that it has read
written, and the socket shut down. -/
theorem can_deliver (hrun : Reachable relayStep (.start toSlots frSlots) s)
    (hplace : s.place = .selecting ∨ s.place.isTest = true) :
    ∃ finish, Reachable relayStep s finish ∧ finish.place = .returned ∧
      finish.toSocket = s.fromStdin ∧ finish.toStdout = s.fromSocket ∧ finish.shutdowns = 1 := by
  -- the buffer for standard output
  obtain ⟨first, hfirst, hselecting, hfr, hstdin, hsocket⟩ : ∃ first, Reachable relayStep s first ∧
      first.place = .selecting ∧ first.frBuffer.contents = [] ∧ first.fromStdin = s.fromStdin ∧
      first.fromSocket = s.fromSocket := by
    by_cases hempty : s.frBuffer.contents = []
    · exact ⟨_, run_to_selecting hplace, rfl, hempty, rfl, rfl⟩
    · have hrounds := run_to_selecting hplace
      obtain ⟨first, hfirst, hrest⟩ := @run_writeStdout { s with place := .selecting } rfl hempty
      exact ⟨first, hrounds.trans hfirst, hrest⟩
  -- the buffer for the socket
  obtain ⟨second, hsecond, hselecting', hto, hfr', hstdin', hsocket'⟩ : ∃ second,
      Reachable relayStep first second ∧ second.place = .selecting ∧ second.toBuffer.contents = [] ∧
      second.frBuffer = first.frBuffer ∧ second.fromStdin = first.fromStdin ∧
      second.fromSocket = first.fromSocket := by
    by_cases hempty : first.toBuffer.contents = []
    · exact ⟨first, .refl, hselecting, hempty, rfl, rfl, rfl⟩
    · exact run_writeSocket hselecting hempty
  -- the end of standard input, and that of the socket
  obtain ⟨third, hthird, hselecting'', heof, hto', hfr'', hstdin'', hsocket''⟩ : ∃ third,
      Reachable relayStep second third ∧ third.place = .selecting ∧ third.stdineof = true ∧
      third.toBuffer = second.toBuffer ∧ third.frBuffer = second.frBuffer ∧
      third.fromStdin = second.fromStdin ∧ third.fromSocket = second.fromSocket := by
    by_cases heof : second.stdineof = true
    · exact ⟨second, .refl, hselecting', heof, rfl, rfl, rfl, rfl⟩
    · exact run_stdinEof hselecting' (Bool.eq_false_of_not_eq_true heof) hto
  have hnone : third.frBuffer.contents = [] := by
    rw [hfr'', hfr']
    exact hfr
  obtain ⟨finish, hlast, hreturned, hto'', hfrEnd, hstdinEnd, hsocketEnd⟩ :=
    run_socketEof hselecting'' heof hnone
  have hall := hfirst.trans (hsecond.trans (hthird.trans hlast))
  have h := consistent_of_run (hrun.trans hall)
  have htoNone : finish.toBuffer.contents = [] := by
    rw [hto'', hto']
    exact hto
  have hfrNone : finish.frBuffer.contents = [] := by
    rw [hfrEnd]
    exact hnone
  have hstdinEq := h.stdin_eq
  have hsocketEq := h.socket_eq
  have hshutdowns := h.shutdowns_eq
  rw [htoNone, List.append_nil, hstdinEnd, hstdin'', hstdin', hstdin] at hstdinEq
  rw [hfrNone, List.append_nil, hsocketEnd, hsocket'', hsocket', hsocket] at hsocketEq
  rw [if_pos ⟨h.returned hreturned, htoNone⟩] at hshutdowns
  exact ⟨finish, hall, hreturned, hstdinEq.symm, hsocketEq.symm, hshutdowns⟩

theorem can_deliver_twoBytes :
    ∃ finish, Reachable relayStep (after twoBytes) finish ∧ finish.place = .returned ∧
      finish.toSocket = [1, 2] ∧ finish.toStdout = [] ∧ finish.shutdowns = 1 :=
  can_deliver (run_after (by decide)) (.inr (by decide))

end CppLearn.Unp.StrClient
