import CppLearn.Foundation.ByteOrder
import CppLearn.Foundation.CircularBuffer
import CppLearn.Foundation.GuardedRun

/-!
# The datagram queue of the signal-driven echo server

`dg_echo` answers datagrams in its main loop while `sig_io` reads them, whenever SIGIO is delivered,
into a circular buffer that the two share. `serverStep` interleaves the kernel, which queues datagrams
and keeps one pending signal, the rounds of the handler's loop and the statements of the main loop. The
handler runs between any two statements at which SIGIO is not blocked, also while a datagram is being
sent.

Whatever the interleaving, the answers go out in the order of the datagrams, each once
(`echoes_in_order`), and the handler never writes the slot that is being sent. No datagram is left in
the socket without a signal on its way (`signalled`), except for those that came before signals were
switched on. The eighth datagram counted ends the server, though the queue has eight slots: the loop of
the handler tests for a full queue before it looks for another datagram (`fewer_iff_roomy`).
-/

set_option autoImplicit false
set_option relaxedAutoImplicit false

namespace CppLearn.Unp.DatagramQueue

open Foundation.ByteOrder Foundation.CircularBuffer Foundation.GuardedRun

variable {Address : Type*}

/-! ### The server -/

/-- `QSIZE`. -/
def qsize : ℕ := 8

/-- `MAXDG`. -/
def maxdg : ℕ := 4096

/-- `DG`: the bytes of a datagram and the address it came from. -/
structure Dg (Address : Type*) where
  dgData : List Byte
  dgSa : Address
  deriving DecidableEq

/-- What `recvfrom` stores of a datagram: no more bytes than the buffer has. -/
def recvfrom (datagram : Dg Address) : Dg Address :=
  { datagram with dgData := datagram.dgData.take maxdg }

/-- Where the main loop stands: at the test of `nqueue`, in `sigsuspend`, before the first
`Sigprocmask`, before `Sendto`, before the increment of `iget`, before the second `Sigprocmask`, or
before the decrement of `nqueue`. -/
inductive MainPlace
  | testing
  | suspended
  | unblocking
  | sending
  | advancing
  | blocking
  | counting
  deriving DecidableEq

/-- SIGIO is blocked: from the second `Sigprocmask` to the first, but not inside of `sigsuspend`. -/
def MainPlace.blocksSignal : MainPlace → Bool
  | .testing | .unblocking | .counting => true
  | .suspended | .sending | .advancing | .blocking => false

/-- Where the main loop goes on after a signal: `sigsuspend` returns. -/
def MainPlace.resumed : MainPlace → MainPlace
  | .suspended => .testing
  | place => place

/-- The process, with `nread` of the handler while it runs, and the kernel: the pending signal and the
datagrams in the socket. `arrived` and `answered` list what came in and what was sent. -/
structure Server (Address : Type*) where
  dg : ℕ → Dg Address
  cntread : ℕ → ℕ
  iget : ℕ
  iput : ℕ
  nqueue : ℕ
  place : MainPlace
  handler : Option ℕ
  pending : Bool
  socket : List (Dg Address)
  arrived : List (Dg Address)
  answered : List (Dg Address)
  overflowed : Bool

/-- The main loop is entered with some datagrams in the socket for which no signal was sent. -/
def Server.start (dg : ℕ → Dg Address) (early : List (Dg Address)) : Server Address :=
  { dg := dg
    cntread := fun _ ↦ 0
    iget := 0
    iput := 0
    nqueue := 0
    place := .testing
    handler := none
    pending := false
    socket := early
    arrived := early
    answered := []
    overflowed := false }

/-- A datagram comes in, a pending signal is delivered, the handler does a round of its loop, or the
main loop a statement. -/
inductive ServerEvent (Address : Type*)
  | arrive (datagram : Dg Address)
  | deliver
  | sigIo
  | mainLoop

/-- A round of the loop of `sig_io`. After the last the main loop goes on. -/
def sigIoRound (s : Server Address) (nread : ℕ) : Server Address :=
  if qsize ≤ s.nqueue then { s with overflowed := true }
  else
    match s.socket with
    | [] =>
      { s with
        cntread := Function.update s.cntread nread (s.cntread nread + 1)
        handler := none
        place := s.place.resumed }
    | datagram :: socket =>
      { s with
        dg := Function.update s.dg s.iput (recvfrom datagram)
        nqueue := s.nqueue + 1
        iput := if qsize ≤ s.iput + 1 then 0 else s.iput + 1
        handler := some (nread + 1)
        socket := socket }

/-- A statement of the main loop of `dg_echo`. -/
def mainRound (s : Server Address) : Option (Server Address) :=
  match s.place with
  | .testing => some { s with place := if s.nqueue = 0 then .suspended else .unblocking }
  | .suspended => none
  | .unblocking => some { s with place := .sending }
  | .sending => some { s with answered := s.answered ++ [s.dg s.iget], place := .advancing }
  | .advancing =>
    some { s with iget := if qsize ≤ s.iget + 1 then 0 else s.iget + 1, place := .blocking }
  | .blocking => some { s with place := .counting }
  | .counting => some { s with nqueue := s.nqueue - 1, place := .testing }

/-- One step of the process and the kernel. The main loop stands still while the handler runs, and no
second signal is delivered. After "receive overflow" the process is gone. -/
def serverStep (s : Server Address) (event : ServerEvent Address) : Option (Server Address) :=
  if s.overflowed then none
  else
    match event with
    | .arrive datagram =>
      some { s with
        socket := s.socket ++ [datagram]
        arrived := s.arrived ++ [datagram]
        pending := true }
    | .deliver =>
      if s.pending ∧ s.handler = none ∧ ¬ s.place.blocksSignal then
        some { s with pending := false, handler := some 0 }
      else none
    | .sigIo => s.handler.map (sigIoRound s)
    | .mainLoop => if s.handler = none then mainRound s else none

/-- What a step can be. -/
theorem serverStep_cases {s next : Server Address} {event : ServerEvent Address}
    (htaken : serverStep s event = some next) :
    s.overflowed = false ∧
      ((∃ datagram, event = .arrive datagram ∧
          next = { s with
            socket := s.socket ++ [datagram]
            arrived := s.arrived ++ [datagram]
            pending := true }) ∨
        (event = .deliver ∧ next = { s with pending := false, handler := some 0 }) ∨
        (∃ nread, event = .sigIo ∧ s.handler = some nread ∧ next = sigIoRound s nread) ∨
        (event = .mainLoop ∧ s.handler = none ∧ mainRound s = some next)) := by
  unfold serverStep at htaken
  by_cases hover : s.overflowed = true
  · rw [if_pos hover] at htaken
    cases htaken
  rw [if_neg hover] at htaken
  refine ⟨Bool.eq_false_of_not_eq_true hover, ?_⟩
  cases event with
  | arrive datagram => exact .inl ⟨datagram, rfl, (Option.some.inj htaken).symm⟩
  | deliver =>
    simp only at htaken
    split_ifs at htaken
    exact .inr (.inl ⟨rfl, (Option.some.inj htaken).symm⟩)
  | sigIo =>
    obtain ⟨nread, hhandler, hnext⟩ := Option.map_eq_some_iff.mp htaken
    exact .inr (.inr (.inl ⟨nread, rfl, hhandler, hnext.symm⟩))
  | mainLoop =>
    simp only at htaken
    split_ifs at htaken with hhandler
    exact .inr (.inr (.inr ⟨rfl, hhandler, htaken⟩))

/-! ### The queue between the handler and the main loop -/

/-- The slots from `iget` on that are answered already. -/
def MainPlace.ahead : MainPlace → ℕ
  | .advancing => 1
  | _ => 0

/-- The datagrams that `nqueue` still counts though they are answered. -/
def MainPlace.behind : MainPlace → ℕ
  | .advancing | .blocking | .counting => 1
  | _ => 0

/-- The main loop is about to answer a datagram. -/
def MainPlace.holdsOne : MainPlace → Bool
  | .unblocking | .sending => true
  | _ => false

theorem ahead_resumed (place : MainPlace) : place.resumed.ahead = place.ahead := by
  cases place <;> rfl

theorem behind_resumed (place : MainPlace) : place.resumed.behind = place.behind := by
  cases place <;> rfl

theorem holdsOne_of_resumed {place : MainPlace} (hholds : place.resumed.holdsOne = true) :
    place.holdsOne = true := by
  cases place <;> exact hholds

theorem resumed_ne_suspended (place : MainPlace) : place.resumed ≠ .suspended := by
  cases place <;> decide

/-- The datagrams of the queue that are not answered yet, oldest first. -/
def unanswered (s : Server Address) : List (Dg Address) :=
  contents qsize s.dg (s.iget + s.place.ahead) (s.nqueue - s.place.behind)

/-- What holds in every state of the server, from those datagrams on for which no signal was sent. -/
structure Consistent (early : List (Dg Address)) (s : Server Address) : Prop where
  iget_lt : s.iget < qsize
  iput_eq : s.iput = (s.iget + s.place.ahead + (s.nqueue - s.place.behind)) % qsize
  nqueue_le : s.nqueue ≤ qsize
  behind_le : s.place.behind ≤ s.nqueue
  holdsOne : s.place.holdsOne = true → 0 < s.nqueue
  nothing_held : s.place = .suspended → s.handler = none → s.nqueue = 0
  nqueue_lt : s.handler = none → s.nqueue < qsize
  nread_le : ∀ nread ∈ s.handler, nread ≤ s.nqueue
  full : s.overflowed = true → s.nqueue = qsize
  arrived_eq : s.arrived.map recvfrom = s.answered ++ unanswered s ++ s.socket.map recvfrom
  signalled : s.socket ≠ [] → s.pending = true ∨ s.handler ≠ none ∨ s.arrived = early

section Consistent

variable {early : List (Dg Address)} {s next : Server Address}

theorem Consistent.start (dg : ℕ → Dg Address) (early : List (Dg Address)) :
    Consistent early (.start dg early) where
  iget_lt := by simp [Server.start, qsize]
  iput_eq := rfl
  nqueue_le := Nat.zero_le _
  behind_le := Nat.le_refl 0
  holdsOne := fun h ↦ by cases h
  nothing_held := fun h ↦ by cases h
  nqueue_lt := fun _ ↦ by simp [Server.start, qsize]
  nread_le := fun _ h ↦ by cases h
  full := fun h ↦ by cases h
  arrived_eq := by simp [Server.start, unanswered, MainPlace.behind]
  signalled := fun _ ↦ .inr (.inr rfl)

/-- A datagram comes in. -/
theorem Consistent.arrive (h : Consistent early s) (datagram : Dg Address) :
    Consistent early { s with
      socket := s.socket ++ [datagram]
      arrived := s.arrived ++ [datagram]
      pending := true } where
  iget_lt := h.iget_lt
  iput_eq := h.iput_eq
  nqueue_le := h.nqueue_le
  behind_le := h.behind_le
  holdsOne := h.holdsOne
  nothing_held := h.nothing_held
  nqueue_lt := h.nqueue_lt
  nread_le := h.nread_le
  full := h.full
  arrived_eq := by
    have harrived := h.arrived_eq
    rw [List.map_append, harrived, List.map_append, ← List.append_assoc]
    rfl
  signalled := fun _ ↦ .inl rfl

/-- The handler is entered. -/
theorem Consistent.deliver (h : Consistent early s) :
    Consistent early { s with pending := false, handler := some 0 } where
  iget_lt := h.iget_lt
  iput_eq := h.iput_eq
  nqueue_le := h.nqueue_le
  behind_le := h.behind_le
  holdsOne := h.holdsOne
  nothing_held := fun _ hhandler ↦ by cases hhandler
  nqueue_lt := fun hhandler ↦ by cases hhandler
  nread_le := by
    rintro nread hnread
    cases hnread
    exact Nat.zero_le _
  full := h.full
  arrived_eq := h.arrived_eq
  signalled := fun _ ↦ .inr (.inl (by simp))

/-- The handler finds no more datagrams and returns. -/
theorem Consistent.handlerReturns (h : Consistent early s) (hroom : s.nqueue < qsize)
    (hsocket : s.socket = []) (cntread : ℕ → ℕ) :
    Consistent early
      { s with cntread := cntread, handler := none, place := s.place.resumed } where
  iget_lt := h.iget_lt
  iput_eq := by
    rw [ahead_resumed, behind_resumed]
    exact h.iput_eq
  nqueue_le := h.nqueue_le
  behind_le := by
    rw [behind_resumed]
    exact h.behind_le
  holdsOne := fun hholds ↦ h.holdsOne (holdsOne_of_resumed hholds)
  nothing_held := fun hplace ↦ absurd hplace (resumed_ne_suspended s.place)
  nqueue_lt := fun _ ↦ hroom
  nread_le := fun _ hnread ↦ by cases hnread
  full := h.full
  arrived_eq := by
    simp only [unanswered, ahead_resumed, behind_resumed]
    exact h.arrived_eq
  signalled := fun hnonempty ↦ absurd hsocket hnonempty

/-- The handler reads a datagram into the slot after those of the queue. -/
theorem Consistent.handlerReads (h : Consistent early s) (hroom : s.nqueue < qsize)
    {datagram : Dg Address} {socket : List (Dg Address)} (hsocket : s.socket = datagram :: socket)
    {nread : ℕ} (hhandler : s.handler = some nread) :
    Consistent early { s with
      dg := Function.update s.dg s.iput (recvfrom datagram)
      nqueue := s.nqueue + 1
      iput := if qsize ≤ s.iput + 1 then 0 else s.iput + 1
      handler := some (nread + 1)
      socket := socket } := by
  have hbehind := h.behind_le
  have hput : s.iput < qsize := by
    rw [h.iput_eq]
    exact Nat.mod_lt _ (by decide)
  have hcount : s.nqueue + 1 - s.place.behind = s.nqueue - s.place.behind + 1 := by omega
  exact
    { iget_lt := h.iget_lt
      iput_eq := by
        rw [wrap_eq_mod hput, h.iput_eq, Nat.mod_add_mod, hcount, ← Nat.add_assoc]
      nqueue_le := hroom
      behind_le := Nat.le_succ_of_le hbehind
      holdsOne := fun _ ↦ Nat.succ_pos _
      nothing_held := fun _ hnone ↦ by cases hnone
      nqueue_lt := fun hnone ↦ by cases hnone
      nread_le := by
        rintro _ ⟨rfl⟩
        exact Nat.succ_le_succ (h.nread_le nread hhandler)
      full := by
        intro hfull
        have := h.full hfull
        omega
      arrived_eq := by
        have hupdate := contents_update (show s.nqueue - s.place.behind < qsize by omega) s.dg
          (s.iget + s.place.ahead) (recvfrom datagram)
        rw [← h.iput_eq] at hupdate
        have harrived := h.arrived_eq
        rw [hsocket, List.map_cons] at harrived
        simp only [unanswered, hcount]
        rw [hupdate, harrived, unanswered]
        simp only [List.append_assoc, List.singleton_append]
      signalled := fun _ ↦ .inr (.inl (by simp)) }

/-- A round of the handler's loop. -/
theorem Consistent.sigIoRound (h : Consistent early s) {nread : ℕ} (hhandler : s.handler = some nread) :
    Consistent early (sigIoRound s nread) := by
  unfold DatagramQueue.sigIoRound
  by_cases hfull : qsize ≤ s.nqueue
  · rw [if_pos hfull]
    exact { h with full := fun _ ↦ Nat.le_antisymm h.nqueue_le hfull }
  · rw [if_neg hfull]
    split
    · next hsocket => exact h.handlerReturns (Nat.lt_of_not_le hfull) hsocket _
    · next datagram socket hsocket =>
      exact h.handlerReads (Nat.lt_of_not_le hfull) hsocket hhandler

/-- The main loop goes on to a place with the same view of the queue. -/
theorem Consistent.move (h : Consistent early s) {place : MainPlace}
    (hahead : place.ahead = s.place.ahead) (hbehind : place.behind = s.place.behind)
    (hholds : place.holdsOne = true → 0 < s.nqueue) (hnothing : place = .suspended → s.nqueue = 0) :
    Consistent early { s with place := place } where
  iget_lt := h.iget_lt
  iput_eq := by
    rw [hahead, hbehind]
    exact h.iput_eq
  nqueue_le := h.nqueue_le
  behind_le := by
    rw [hbehind]
    exact h.behind_le
  holdsOne := hholds
  nothing_held := fun hplace _ ↦ hnothing hplace
  nqueue_lt := h.nqueue_lt
  nread_le := h.nread_le
  full := h.full
  arrived_eq := by
    simp only [unanswered, hahead, hbehind]
    exact h.arrived_eq
  signalled := h.signalled

/-- The oldest datagram is answered. -/
theorem Consistent.send (h : Consistent early s) (hplace : s.place = .sending) :
    Consistent early { s with answered := s.answered ++ [s.dg s.iget], place := .advancing } := by
  have hpos : 0 < s.nqueue := h.holdsOne (by rw [hplace]; rfl)
  have hput := h.iput_eq
  have harrived := h.arrived_eq
  simp only [unanswered, hplace, MainPlace.ahead, MainPlace.behind, Nat.add_zero, Nat.sub_zero]
    at hput harrived
  exact
    { h with
      iput_eq := by
        simp only [MainPlace.ahead, MainPlace.behind]
        rw [hput]
        congr 1
        omega
      behind_le := hpos
      holdsOne := fun hholds ↦ by cases hholds
      nothing_held := fun hsuspended ↦ by cases hsuspended
      arrived_eq := by
        obtain ⟨count, hcount⟩ : ∃ count, s.nqueue = count + 1 := ⟨s.nqueue - 1, by omega⟩
        rw [hcount, contents_succ, Nat.mod_eq_of_lt h.iget_lt] at harrived
        simp only [unanswered, MainPlace.ahead, MainPlace.behind, hcount, Nat.add_sub_cancel]
        rw [harrived]
        simp only [List.append_assoc, List.cons_append, List.nil_append] }

/-- `iget` passes the slot that has been answered. -/
theorem Consistent.advance (h : Consistent early s) (hplace : s.place = .advancing) :
    Consistent early
      { s with iget := if qsize ≤ s.iget + 1 then 0 else s.iget + 1, place := .blocking } := by
  have hput := h.iput_eq
  have hbehind := h.behind_le
  have harrived := h.arrived_eq
  simp only [unanswered, hplace, MainPlace.ahead, MainPlace.behind] at hput hbehind harrived
  rw [wrap_eq_mod h.iget_lt]
  exact
    { h with
      iget_lt := Nat.mod_lt _ (by decide)
      iput_eq := by
        simp only [MainPlace.ahead, MainPlace.behind, Nat.add_zero]
        rw [hput, Nat.mod_add_mod]
      behind_le := hbehind
      holdsOne := fun hholds ↦ by cases hholds
      nothing_held := fun hsuspended ↦ by cases hsuspended
      arrived_eq := by
        simp only [unanswered, MainPlace.ahead, MainPlace.behind, Nat.add_zero, contents_mod]
        exact harrived }

/-- `nqueue` no longer counts the datagram that has been answered. -/
theorem Consistent.count (h : Consistent early s) (hplace : s.place = .counting)
    (hhandler : s.handler = none) (hrunning : s.overflowed = false) :
    Consistent early { s with nqueue := s.nqueue - 1, place := .testing } := by
  have hput := h.iput_eq
  have harrived := h.arrived_eq
  simp only [unanswered, hplace, MainPlace.ahead, MainPlace.behind] at hput harrived
  exact
    { h with
      iput_eq := hput
      nqueue_le := Nat.le_trans (Nat.sub_le _ _) h.nqueue_le
      behind_le := Nat.zero_le _
      holdsOne := fun hholds ↦ by cases hholds
      nothing_held := fun hsuspended ↦ by cases hsuspended
      nqueue_lt := fun _ ↦ Nat.lt_of_le_of_lt (Nat.sub_le _ _) (h.nqueue_lt hhandler)
      nread_le := by
        rw [hhandler]
        rintro _ ⟨⟩
      full := by
        rw [hrunning]
        rintro ⟨⟩
      arrived_eq := harrived }

/-- A statement of the main loop, which runs only outside of the handler. -/
theorem Consistent.mainRound (h : Consistent early s) (hhandler : s.handler = none)
    (hrunning : s.overflowed = false) (htaken : mainRound s = some next) : Consistent early next := by
  cases hplace : s.place with
  | testing =>
    simp only [DatagramQueue.mainRound, hplace, Option.some.injEq] at htaken
    subst htaken
    by_cases hempty : s.nqueue = 0
    · rw [if_pos hempty]
      exact h.move (by rw [hplace]; rfl) (by rw [hplace]; rfl) (fun hholds ↦ by cases hholds)
        fun _ ↦ hempty
    · rw [if_neg hempty]
      exact h.move (by rw [hplace]; rfl) (by rw [hplace]; rfl)
        (fun _ ↦ Nat.pos_of_ne_zero hempty) fun hsuspended ↦ by cases hsuspended
  | suspended => simp only [DatagramQueue.mainRound, hplace, reduceCtorEq] at htaken
  | unblocking =>
    simp only [DatagramQueue.mainRound, hplace, Option.some.injEq] at htaken
    subst htaken
    exact h.move (by rw [hplace]; rfl) (by rw [hplace]; rfl)
      (fun _ ↦ h.holdsOne (by rw [hplace]; rfl)) fun hsuspended ↦ by cases hsuspended
  | sending =>
    simp only [DatagramQueue.mainRound, hplace, Option.some.injEq] at htaken
    subst htaken
    exact h.send hplace
  | advancing =>
    simp only [DatagramQueue.mainRound, hplace, Option.some.injEq] at htaken
    subst htaken
    exact h.advance hplace
  | blocking =>
    simp only [DatagramQueue.mainRound, hplace, Option.some.injEq] at htaken
    subst htaken
    exact h.move (by rw [hplace]; rfl) (by rw [hplace]; rfl) (fun hholds ↦ by cases hholds)
      fun hsuspended ↦ by cases hsuspended
  | counting =>
    simp only [DatagramQueue.mainRound, hplace, Option.some.injEq] at htaken
    subst htaken
    exact h.count hplace hhandler hrunning

/-- Every step of the process and the kernel. -/
theorem Consistent.serverStep (h : Consistent early s) (event : ServerEvent Address)
    (htaken : serverStep s event = some next) : Consistent early next := by
  obtain ⟨hrunning, ⟨datagram, -, rfl⟩ | ⟨-, rfl⟩ | ⟨nread, -, hhandler, rfl⟩ |
    ⟨-, hhandler, hround⟩⟩ := serverStep_cases htaken
  · exact h.arrive datagram
  · exact h.deliver
  · exact h.sigIoRound hhandler
  · exact h.mainRound hhandler hrunning hround

end Consistent

variable {dg : ℕ → Dg Address} {early : List (Dg Address)} {s : Server Address}

theorem consistent_of_run (hrun : Reachable serverStep (.start dg early) s) : Consistent early s :=
  hrun.invariant (.start dg early) fun _ event _ h _ htaken ↦ h.serverStep event htaken

/-! ### Order, and what is left in the socket -/

/-- The main loop sleeps, no handler runs and no signal is pending. -/
def Idle (s : Server Address) : Prop :=
  s.place = .suspended ∧ s.handler = none ∧ s.pending = false

/-- In every state the datagrams that came in are those answered, then those in the queue, then those
in the socket, in this order; and where the server is idle all are answered, as soon as one has come
in with a signal. -/
theorem echoes_in_order (hrun : Reachable serverStep (.start dg early) s) :
    s.arrived.map recvfrom = s.answered ++ unanswered s ++ s.socket.map recvfrom ∧
      (Idle s → s.arrived ≠ early → s.answered = s.arrived.map recvfrom) := by
  have h := consistent_of_run hrun
  refine ⟨h.arrived_eq, ?_⟩
  rintro ⟨hplace, hhandler, hpending⟩ hlater
  have hsocket : s.socket = [] := by
    by_contra hnonempty
    rcases h.signalled hnonempty with hsignal | hsignal | hsignal
    · rw [hpending] at hsignal
      cases hsignal
    · exact hsignal hhandler
    · exact hlater hsignal
  have hqueue : unanswered s = [] := by
    rw [unanswered, h.nothing_held hplace hhandler, Nat.zero_sub, contents_zero]
  have harrived := h.arrived_eq
  rw [hsocket, hqueue, List.map_nil, List.append_nil, List.append_nil] at harrived
  exact harrived.symm

/-- A datagram of one byte from a numbered client. -/
def ping (client : ℕ) : Dg ℕ := ⟨[BitVec.ofNat 8 client], client⟩

/-- A second datagram comes in while the handler reads the first. -/
def twoPings : List (ServerEvent ℕ) :=
  [.mainLoop, .arrive (ping 1), .deliver, .sigIo, .arrive (ping 2), .sigIo, .sigIo, .mainLoop,
    .mainLoop]

/-- Both are answered and the server sleeps: the signal of the second finds nothing to read. -/
def twoEchoes : List (ServerEvent ℕ) :=
  twoPings ++ .deliver :: .sigIo :: List.replicate 11 .mainLoop

/-- The server after some events, or at its start if they cannot be taken. -/
def after (events : List (ServerEvent ℕ)) : Server ℕ :=
  (execute serverStep anyEvent (.start (fun _ ↦ ping 0) []) events).getD (.start (fun _ ↦ ping 0) [])

theorem run_after {events : List (ServerEvent ℕ)}
    (hsome : (execute serverStep anyEvent (.start (fun _ ↦ ping 0) []) events).isSome = true) :
    Reachable serverStep (.start (fun _ ↦ ping 0) []) (after events) := by
  obtain ⟨s, hs⟩ := Option.isSome_iff_exists.mp hsome
  rw [after, hs]
  exact run_of_execute hs

theorem echoes_in_order_twoEchoes :
    (after twoEchoes).answered = (after twoEchoes).arrived.map recvfrom :=
  (echoes_in_order (run_after (by decide))).2 ⟨by decide, by decide, by decide⟩ (by decide)

/-! ### The bounds of the arrays, and the slot that is being sent -/

/-- A round of the handler's loop leaves the oldest entry of the queue as it is. -/
theorem dg_iget_sigIoRound (h : Consistent early s) (hplace : s.place.ahead = 0)
    (hpos : 0 < s.nqueue) (hbehind : s.place.behind = 0) (nread : ℕ) :
    (sigIoRound s nread).dg s.iget = s.dg s.iget := by
  unfold sigIoRound
  by_cases hfull : qsize ≤ s.nqueue
  · rw [if_pos hfull]
  rw [if_neg hfull]
  split
  · rfl
  · refine Function.update_of_ne ?_ _ _
    have hput := h.iput_eq
    have hget := h.iget_lt
    rw [hplace, hbehind, Nat.add_zero, Nat.sub_zero] at hput
    rw [hput]
    intro hsame
    rcases (last_eq_first_iff hget h.nqueue_le).mp hsame.symm with hempty | hall
    · omega
    · omega

/-- The indices into `dg` and into `cntread`, which has one entry more, are within their arrays, and
while a datagram is being sent no round of the handler changes its slot. -/
theorem indices_in_range (hrun : Reachable serverStep (.start dg early) s) :
    s.iget < qsize ∧ s.iput < qsize ∧ (∀ nread ∈ s.handler, nread < qsize + 1) ∧
      (s.place = .sending → ∀ next, serverStep s .sigIo = some next →
        next.dg s.iget = s.dg s.iget) := by
  have h := consistent_of_run hrun
  refine ⟨h.iget_lt, ?_, fun nread hnread ↦ ?_, fun hplace next htaken ↦ ?_⟩
  · rw [h.iput_eq]
    exact Nat.mod_lt _ (by decide)
  · exact Nat.lt_succ_of_le (Nat.le_trans (h.nread_le nread hnread) h.nqueue_le)
  · have hpos := h.holdsOne (by rw [hplace]; rfl)
    obtain ⟨-, ⟨_, heq, -⟩ | ⟨heq, -⟩ | ⟨nread, -, -, rfl⟩ | ⟨heq, -⟩⟩ := serverStep_cases htaken
    · cases heq
    · cases heq
    · exact dg_iget_sigIoRound h (by rw [hplace]; rfl) hpos (by rw [hplace]; rfl) nread
    · cases heq

/-- The signal of the second datagram comes while the first is being sent, and a third is read. -/
theorem indices_in_range_twoPings :
    let s := after (twoPings ++ [.arrive (ping 3), .deliver])
    ∀ next, serverStep s .sigIo = some next → next.dg s.iget = s.dg s.iget :=
  (indices_in_range (run_after (by decide))).2.2.2 (by decide)

/-! ### The eighth datagram -/

/-- The handler reads a datagram only where that leaves a slot of the queue free. -/
def Roomy (s : Server Address) : ServerEvent Address → Prop
  | .sigIo => s.socket ≠ [] → s.nqueue + 1 < qsize
  | _ => True

theorem nqueue_mainRound_le {next : Server Address} (htaken : mainRound s = some next) :
    next.nqueue ≤ s.nqueue := by
  unfold mainRound at htaken
  split at htaken
  all_goals cases htaken
  all_goals simp only [Nat.sub_le, Nat.le_refl]

theorem nqueue_lt_sigIoRound_iff (nread : ℕ) :
    (sigIoRound s nread).nqueue < qsize ↔ s.nqueue < qsize ∧ Roomy s .sigIo := by
  unfold sigIoRound
  by_cases hfull : qsize ≤ s.nqueue
  · rw [if_pos hfull]
    exact iff_of_false (Nat.not_lt.mpr hfull) fun hboth ↦ Nat.not_lt.mpr hfull hboth.1
  rw [if_neg hfull]
  have hlt := Nat.lt_of_not_le hfull
  cases hsocket : s.socket with
  | nil => exact ⟨fun _ ↦ ⟨hlt, fun hnonempty ↦ absurd hsocket hnonempty⟩, fun _ ↦ hlt⟩
  | cons datagram socket =>
    refine ⟨fun hnext ↦ ⟨hlt, fun _ ↦ hnext⟩, fun hboth ↦ hboth.2 ?_⟩
    rw [hsocket]
    exact List.cons_ne_nil _ _

/-- A step leaves fewer than eight datagrams counted if fewer were and the handler had room. -/
theorem nqueue_lt_iff {next : Server Address} {event : ServerEvent Address} (h : Consistent early s)
    (htaken : serverStep s event = some next) :
    next.nqueue < qsize ↔ s.nqueue < qsize ∧ Roomy s event := by
  obtain ⟨-, ⟨_, rfl, rfl⟩ | ⟨rfl, rfl⟩ | ⟨nread, rfl, -, rfl⟩ | ⟨rfl, hhandler, hround⟩⟩ :=
    serverStep_cases htaken
  · exact (and_iff_left trivial).symm
  · exact (and_iff_left trivial).symm
  · exact nqueue_lt_sigIoRound_iff nread
  · have hbefore := h.nqueue_lt hhandler
    exact iff_of_true (Nat.lt_of_le_of_lt (nqueue_mainRound_le hround) hbefore) ⟨hbefore, trivial⟩

/-- From eight datagrams on no step answers one. -/
theorem answered_eq_of_full {next : Server Address} {event : ServerEvent Address}
    (h : Consistent early s) (hfull : s.nqueue = qsize) (htaken : serverStep s event = some next) :
    next.answered = s.answered ∧ next.nqueue = qsize := by
  obtain ⟨-, ⟨_, -, rfl⟩ | ⟨-, rfl⟩ | ⟨nread, -, -, rfl⟩ | ⟨-, hhandler, -⟩⟩ := serverStep_cases htaken
  · exact ⟨rfl, hfull⟩
  · exact ⟨rfl, hfull⟩
  · unfold sigIoRound
    rw [if_pos hfull.ge]
    exact ⟨rfl, hfull⟩
  · have := h.nqueue_lt hhandler
    omega

/-- With eight datagrams counted the handler is in its loop, so neither the main loop nor another
signal gets a turn, and the next round of that loop is "receive overflow". -/
theorem ends_of_full (h : Consistent early s) (hfull : s.nqueue = qsize)
    (hover : s.overflowed = false) :
    serverStep s .sigIo = some { s with overflowed := true } ∧ serverStep s .mainLoop = none ∧
      serverStep s .deliver = none := by
  have hhandler : s.handler ≠ none := by
    intro hnone
    have hlt := h.nqueue_lt hnone
    omega
  obtain ⟨nread, hnread⟩ := Option.ne_none_iff_exists'.mp hhandler
  simp only [serverStep, hover, hnread, Bool.false_eq_true, if_false, reduceCtorEq, false_and,
    and_false, Option.map_some, sigIoRound, if_pos hfull.ge, and_self]

/-- Fewer than eight datagrams are counted as long as each that was read left a slot of the queue
free. The server ends itself exactly when eight are counted, which its slots hold: the handler's next
round, which no other step of the process comes before, is the last, and none is answered any more. -/
theorem fewer_iff_roomy (hrun : Reachable serverStep (.start dg early) s) :
    (s.nqueue < qsize ↔ Run serverStep Roomy (.start dg early) s) ∧
      (s.overflowed = true → s.nqueue = qsize) ∧
      (s.nqueue = qsize →
        (s.overflowed = true ∨ serverStep s .sigIo = some { s with overflowed := true } ∧
          serverStep s .mainLoop = none ∧ serverStep s .deliver = none) ∧
        ∀ later, Reachable serverStep s later →
          later.answered = s.answered ∧ later.nqueue = qsize) := by
  have h := consistent_of_run hrun
  refine ⟨?_, h.full, fun hfull ↦ ⟨?_, ?_⟩⟩
  · exact run_iff (fun _ ↦ consistent_of_run) (Nat.succ_pos 7)
      (fun _ _ _ h htaken ↦ nqueue_lt_iff h htaken) hrun
  · rcases hover : s.overflowed with _ | _
    · exact .inr (ends_of_full h hfull hover)
    · exact .inl rfl
  · intro later hlater
    induction hlater with
    | refl => exact ⟨rfl, hfull⟩
    | tail event hmiddle _ htaken ih =>
      have h := consistent_of_run (hrun.trans hmiddle)
      obtain ⟨hanswered, hcount⟩ := answered_eq_of_full h ih.2 htaken
      exact ⟨hanswered.trans ih.1, hcount⟩

/-- Eight datagrams are read by one handler: no more came, and none is ever answered. -/
def eightPings : List (ServerEvent ℕ) :=
  .mainLoop :: (List.range 8).map (fun client ↦ .arrive (ping client)) ++
    .deliver :: List.replicate 8 .sigIo

theorem fewer_iff_roomy_eightPings :
    serverStep (after eightPings) .sigIo = some { after eightPings with overflowed := true } := by
  have hrun : Reachable serverStep (.start (fun _ ↦ ping 0) []) (after eightPings) :=
    run_after (by decide)
  rcases ((fewer_iff_roomy hrun).2.2 (by decide)).1 with hover | hnext
  · exact absurd hover (by decide)
  · exact hnext.1

end CppLearn.Unp.DatagramQueue
