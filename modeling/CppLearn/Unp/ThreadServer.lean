import CppLearn.Foundation.CircularBuffer
import CppLearn.Foundation.GuardedRun
import CppLearn.Foundation.ThreadTable

/-!
# The prethreaded server

The main thread accepts connections and puts them into a circular buffer, from which the threads of a
pool take them, under a mutex and with a condition variable. `poolStep` interleaves their statements: a
wait releases the mutex and falls asleep in one step, a signal wakes one sleeping thread if there is one,
and a sleeping thread can also wake without a signal. A thread that serves a client waits for what the
client does, which can be a request that ends the process.

In every state the connections accepted are those taken, then those in the buffer, then the one in the
hands of the main thread, and each is closed by the thread that took it (`served_in_order`). No wakeup
is lost: what is left to do without new connections comes to an end, and then every thread serves a
client or sleeps, and none sleeps while a connection waits (`pool_settles`). The main thread ends the
process when 32 connections are waiting, which is when its buffer of 32 slots has just been filled
(`quits_iff`).
-/

set_option autoImplicit false
set_option relaxedAutoImplicit false

namespace CppLearn.Unp.ThreadServer

open Foundation.CircularBuffer Foundation.GuardedRun Foundation.ThreadTable

variable {Connection : Type*}

/-! ### The threads -/

/-- `MAXNCLI`. -/
def maxncli : ℕ := 32

/-- Where the main thread stands: in `Accept`, before `Pthread_mutex_lock`, before the connection is
stored, before the test of the two indices, before `Pthread_cond_signal`, before
`Pthread_mutex_unlock`, or past `err_quit`. -/
inductive Acceptor (Connection : Type*)
  | accepting
  | locking (connfd : Connection)
  | storing (connfd : Connection)
  | testing
  | signalling
  | unlocking
  | quit

/-- Where a thread stands in `thread_main`: before `Pthread_mutex_lock`, at the test of the loop, asleep
in `Pthread_cond_wait`, woken there and before its return, before a connection is taken, before
`Pthread_mutex_unlock`, or serving a connection. -/
inductive Worker (Connection : Type*)
  | locking
  | testing
  | asleep
  | woken
  | taking
  | unlocking (connfd : Connection)
  | serving (connfd : Connection)

/-- The threads and what they share. `accepted` lists the connections, `taken` and `closed` with the
thread that took and closed each, and `exited` says that a thread has ended the process. -/
structure Pool (Connection : Type*) where
  clifd : ℕ → Connection
  iget : ℕ
  iput : ℕ
  locked : Bool
  acceptor : Acceptor Connection
  threads : List (Worker Connection)
  accepted : List Connection
  taken : List (ℕ × Connection)
  closed : List (ℕ × Connection)
  exited : Bool

/-- `nthreads` threads before any connection. -/
def Pool.start (clifd : ℕ → Connection) (nthreads : ℕ) : Pool Connection :=
  { clifd := clifd
    iget := 0
    iput := 0
    locked := false
    acceptor := .accepting
    threads := List.replicate nthreads .locking
    accepted := []
    taken := []
    closed := []
    exited := false }

/-- `Accept` returns, the main thread moves on, it signals and wakes a thread or none, a thread wakes
without a signal, or a thread moves on. In `web_child` a thread waits for its client, who closes the
connection or asks for what ends the process. -/
inductive PoolEvent (Connection : Type*)
  | accept (connfd : Connection)
  | main
  | signal (woken : Option ℕ)
  | wake (thread : ℕ)
  | thread (thread : ℕ)
  | clientCloses (thread : ℕ)
  | clientRefused (thread : ℕ)

/-- The thread sleeps. -/
def Worker.isAsleep : Worker Connection → Bool
  | .asleep => true
  | _ => false

/-- A statement of the main thread. A lock waits while the mutex is taken. -/
def mainStep (s : Pool Connection) : Option (Pool Connection) :=
  match s.acceptor with
  | .locking connfd =>
    if s.locked then none else some { s with locked := true, acceptor := .storing connfd }
  | .storing connfd =>
    some { s with
      clifd := Function.update s.clifd s.iput connfd
      iput := if s.iput + 1 = maxncli then 0 else s.iput + 1
      acceptor := .testing }
  | .testing => some { s with acceptor := if s.iput = s.iget then .quit else .signalling }
  | .unlocking => some { s with locked := false, acceptor := .accepting }
  | .accepting | .signalling | .quit => none

/-- A statement of a thread outside of `web_child`. -/
def threadStep (s : Pool Connection) (thread : ℕ) : Option (Pool Connection) :=
  match s.threads[thread]? with
  | some .locking | some .woken =>
    if s.locked then none
    else some { s with locked := true, threads := s.threads.set thread .testing }
  | some .testing =>
    if s.iget = s.iput then
      some { s with locked := false, threads := s.threads.set thread .asleep }
    else some { s with threads := s.threads.set thread .taking }
  | some .taking =>
    some { s with
      iget := if s.iget + 1 = maxncli then 0 else s.iget + 1
      threads := s.threads.set thread (.unlocking (s.clifd s.iget))
      taken := s.taken ++ [(thread, s.clifd s.iget)] }
  | some (.unlocking connfd) =>
    some { s with locked := false, threads := s.threads.set thread (.serving connfd) }
  | some .asleep | some (.serving _) | none => none

/-- `web_child` returns, and the thread closes the connection. -/
def closeStep (s : Pool Connection) (thread : ℕ) : Option (Pool Connection) :=
  match s.threads[thread]? with
  | some (.serving connfd) =>
    some { s with
      threads := s.threads.set thread .locking
      closed := s.closed ++ [(thread, connfd)] }
  | _ => none

/-- `err_quit` in `web_child`, or the error of a call there, ends the process with all its threads. -/
def errQuitStep (s : Pool Connection) (thread : ℕ) : Option (Pool Connection) :=
  match s.threads[thread]? with
  | some (.serving _) => some { s with exited := true }
  | _ => none

/-- `Accept` returns. -/
def acceptStep (s : Pool Connection) (connfd : Connection) : Option (Pool Connection) :=
  match s.acceptor with
  | .accepting =>
    some { s with acceptor := .locking connfd, accepted := s.accepted ++ [connfd] }
  | _ => none

/-- A thread that sleeps is woken. -/
def wakeStep (s : Pool Connection) (thread : ℕ) : Option (Pool Connection) :=
  match s.threads[thread]? with
  | some .asleep => some { s with threads := s.threads.set thread .woken }
  | _ => none

/-- `Pthread_cond_signal`: one thread is woken, unless none sleeps. -/
def signalStep (s : Pool Connection) (woken : Option ℕ) : Option (Pool Connection) :=
  match s.acceptor, woken with
  | .signalling, none =>
    if s.threads.any Worker.isAsleep then none else some { s with acceptor := .unlocking }
  | .signalling, some thread => wakeStep { s with acceptor := .unlocking } thread
  | _, _ => none

/-- The main thread has ended the process. -/
def Acceptor.isQuit : Acceptor Connection → Bool
  | .quit => true
  | _ => false

/-- A thread has ended the process. -/
def Pool.hasEnded (s : Pool Connection) : Bool := s.acceptor.isQuit || s.exited

/-- One step of one thread. After `err_quit` there is none. -/
def poolStep (s : Pool Connection) (event : PoolEvent Connection) : Option (Pool Connection) :=
  if s.hasEnded then none
  else
    match event with
    | .accept connfd => acceptStep s connfd
    | .main => mainStep s
    | .signal woken => signalStep s woken
    | .wake thread => wakeStep s thread
    | .thread thread => threadStep s thread
    | .clientCloses thread => closeStep s thread
    | .clientRefused thread => errQuitStep s thread

/-! ### The moves -/

/-- What a step can be, with the test that leads there and the state that it leaves. -/
inductive PoolMove (s : Pool Connection) : PoolEvent Connection → Pool Connection → Prop
  | accept (connfd : Connection) (hplace : s.acceptor = .accepting) :
      PoolMove s (.accept connfd)
        { s with acceptor := .locking connfd, accepted := s.accepted ++ [connfd] }
  | lock (connfd : Connection) (hplace : s.acceptor = .locking connfd) (hfree : s.locked = false) :
      PoolMove s .main { s with locked := true, acceptor := .storing connfd }
  | store (connfd : Connection) (hplace : s.acceptor = .storing connfd) :
      PoolMove s .main { s with
        clifd := Function.update s.clifd s.iput connfd
        iput := if s.iput + 1 = maxncli then 0 else s.iput + 1
        acceptor := .testing }
  | quit (hplace : s.acceptor = .testing) (hsame : s.iput = s.iget) :
      PoolMove s .main { s with acceptor := .quit }
  | goOn (hplace : s.acceptor = .testing) (hother : s.iput ≠ s.iget) :
      PoolMove s .main { s with acceptor := .signalling }
  | unlock (hplace : s.acceptor = .unlocking) :
      PoolMove s .main { s with locked := false, acceptor := .accepting }
  | signalNone (hplace : s.acceptor = .signalling) (hnone : s.threads.any Worker.isAsleep = false) :
      PoolMove s (.signal none) { s with acceptor := .unlocking }
  | signal (thread : ℕ) (hplace : s.acceptor = .signalling)
      (hthread : s.threads[thread]? = some .asleep) :
      PoolMove s (.signal (some thread))
        { s with threads := s.threads.set thread .woken, acceptor := .unlocking }
  | wake (thread : ℕ) (hthread : s.threads[thread]? = some .asleep) :
      PoolMove s (.wake thread) { s with threads := s.threads.set thread .woken }
  | threadLock (thread : ℕ) (hthread : s.threads[thread]? = some .locking)
      (hfree : s.locked = false) :
      PoolMove s (.thread thread) { s with
        locked := true
        threads := s.threads.set thread .testing }
  | threadRelock (thread : ℕ) (hthread : s.threads[thread]? = some .woken)
      (hfree : s.locked = false) :
      PoolMove s (.thread thread) { s with
        locked := true
        threads := s.threads.set thread .testing }
  | sleep (thread : ℕ) (hthread : s.threads[thread]? = some .testing) (hsame : s.iget = s.iput) :
      PoolMove s (.thread thread) { s with
        locked := false
        threads := s.threads.set thread .asleep }
  | find (thread : ℕ) (hthread : s.threads[thread]? = some .testing) (hother : s.iget ≠ s.iput) :
      PoolMove s (.thread thread) { s with threads := s.threads.set thread .taking }
  | take (thread : ℕ) (hthread : s.threads[thread]? = some .taking) :
      PoolMove s (.thread thread) { s with
        iget := if s.iget + 1 = maxncli then 0 else s.iget + 1
        threads := s.threads.set thread (.unlocking (s.clifd s.iget))
        taken := s.taken ++ [(thread, s.clifd s.iget)] }
  | threadUnlock (thread : ℕ) (connfd : Connection)
      (hthread : s.threads[thread]? = some (.unlocking connfd)) :
      PoolMove s (.thread thread) { s with
        locked := false
        threads := s.threads.set thread (.serving connfd) }
  | close (thread : ℕ) (connfd : Connection)
      (hthread : s.threads[thread]? = some (.serving connfd)) :
      PoolMove s (.clientCloses thread) { s with
        threads := s.threads.set thread .locking
        closed := s.closed ++ [(thread, connfd)] }
  | exit (thread : ℕ) (connfd : Connection)
      (hthread : s.threads[thread]? = some (.serving connfd)) :
      PoolMove s (.clientRefused thread) { s with exited := true }

theorem poolMove_of_mainStep {s next : Pool Connection} (htaken : mainStep s = some next) :
    PoolMove s .main next := by
  unfold mainStep at htaken
  split at htaken
  · next connfd hplace =>
    split_ifs at htaken with hlocked
    cases htaken
    exact .lock connfd hplace (Bool.eq_false_of_not_eq_true hlocked)
  · next connfd hplace =>
    cases htaken
    exact .store connfd hplace
  · next hplace =>
    cases htaken
    by_cases hsame : s.iput = s.iget
    · rw [if_pos hsame]
      exact .quit hplace hsame
    · rw [if_neg hsame]
      exact .goOn hplace hsame
  · next hplace =>
    cases htaken
    exact .unlock hplace
  all_goals cases htaken

theorem poolMove_of_threadStep {s next : Pool Connection} {thread : ℕ}
    (htaken : threadStep s thread = some next) : PoolMove s (.thread thread) next := by
  unfold threadStep at htaken
  split at htaken
  · next hthread =>
    split_ifs at htaken with hlocked
    cases htaken
    exact .threadLock thread hthread (Bool.eq_false_of_not_eq_true hlocked)
  · next hthread =>
    split_ifs at htaken with hlocked
    cases htaken
    exact .threadRelock thread hthread (Bool.eq_false_of_not_eq_true hlocked)
  · next hthread =>
    split_ifs at htaken with hsame
    · cases htaken
      exact .sleep thread hthread hsame
    · cases htaken
      exact .find thread hthread hsame
  · next hthread =>
    cases htaken
    exact .take thread hthread
  · next connfd hthread =>
    cases htaken
    exact .threadUnlock thread connfd hthread
  all_goals cases htaken

theorem poolMove_of_signalStep {s next : Pool Connection} {woken : Option ℕ}
    (htaken : signalStep s woken = some next) : PoolMove s (.signal woken) next := by
  unfold signalStep at htaken
  split at htaken
  · next _ hplace =>
    split_ifs at htaken with hany
    cases htaken
    exact .signalNone hplace (Bool.eq_false_of_not_eq_true hany)
  · next thread hplace =>
    unfold wakeStep at htaken
    split at htaken
    · next hthread =>
      cases htaken
      exact .signal thread hplace hthread
    · cases htaken
  · cases htaken

theorem poolMove_of_poolStep {s next : Pool Connection} {event : PoolEvent Connection}
    (htaken : poolStep s event = some next) :
    s.hasEnded = false ∧ PoolMove s event next := by
  unfold poolStep at htaken
  by_cases hended : s.hasEnded = true
  · rw [if_pos hended] at htaken
    cases htaken
  rw [if_neg hended] at htaken
  refine ⟨Bool.eq_false_of_not_eq_true hended, ?_⟩
  cases event with
  | accept connfd =>
    simp only [acceptStep] at htaken
    split at htaken
    · next hplace =>
      cases htaken
      exact .accept connfd hplace
    · cases htaken
  | main => exact poolMove_of_mainStep htaken
  | signal woken => exact poolMove_of_signalStep htaken
  | wake thread =>
    simp only [wakeStep] at htaken
    split at htaken
    · next hthread =>
      cases htaken
      exact .wake thread hthread
    · cases htaken
  | thread thread => exact poolMove_of_threadStep htaken
  | clientCloses thread =>
    simp only [closeStep] at htaken
    split at htaken
    · next connfd hthread =>
      cases htaken
      exact .close thread connfd hthread
    · cases htaken
  | clientRefused thread =>
    simp only [errQuitStep] at htaken
    split at htaken
    · next connfd hthread =>
      cases htaken
      exact .exit thread connfd hthread
    · cases htaken

/-! ### The mutex -/

/-- The thread is between lock and unlock. -/
def Worker.holds : Worker Connection → ℕ
  | .testing | .taking | .unlocking _ => 1
  | _ => 0

/-- The main thread is between lock and unlock; `err_quit` comes before the unlock. -/
def Acceptor.holds : Acceptor Connection → ℕ
  | .accepting | .locking _ => 0
  | _ => 1

/-- One thread is between lock and unlock while the mutex is taken, and none else. -/
def Exclusive (s : Pool Connection) : Prop :=
  total Worker.holds s.threads + s.acceptor.holds = s.locked.toNat

variable {s next : Pool Connection} {event : PoolEvent Connection}

/-- A step of a thread by itself changes the count by what it holds. -/
theorem Exclusive.set (h : Exclusive s) {thread : ℕ} {old new : Worker Connection}
    (hthread : s.threads[thread]? = some old) {locked : Bool}
    (hlocked : locked.toNat + old.holds = s.locked.toNat + new.holds) :
    total Worker.holds (s.threads.set thread new) + s.acceptor.holds = locked.toNat := by
  have htotal := total_set Worker.holds hthread new
  have hcount : total Worker.holds s.threads + s.acceptor.holds = s.locked.toNat := h
  omega

/-- A thread between lock and unlock keeps the main thread out, and the mutex is taken. -/
theorem Exclusive.of_holds (h : Exclusive s) {thread : ℕ} {worker : Worker Connection}
    (hthread : s.threads[thread]? = some worker) (hholds : worker.holds = 1) :
    s.acceptor.holds = 0 ∧ s.locked = true := by
  have hle := weight_le_total Worker.holds (List.mem_of_getElem? hthread)
  have hcount : total Worker.holds s.threads + s.acceptor.holds = s.locked.toNat := h
  have hbound := Bool.toNat_le s.locked
  refine ⟨by omega, ?_⟩
  cases hlocked : s.locked with
  | true => rfl
  | false =>
    rw [hlocked, Bool.toNat_false] at hcount
    omega

/-- No two threads are between lock and unlock. -/
theorem Exclusive.eq_of_holds (h : Exclusive s) {first second : ℕ} {worker other : Worker Connection}
    (hfirst : s.threads[first]? = some worker) (hworker : worker.holds = 1)
    (hsecond : s.threads[second]? = some other) (hother : other.holds = 1) : first = second := by
  by_contra hne
  have hle := weight_add_weight_le_total Worker.holds hfirst hsecond hne
  have hcount : total Worker.holds s.threads + s.acceptor.holds = s.locked.toNat := h
  have hbound := Bool.toNat_le s.locked
  omega

theorem Exclusive.move (h : Exclusive s) (move : PoolMove s event next) : Exclusive next := by
  have hcount : total Worker.holds s.threads + s.acceptor.holds = s.locked.toNat := h
  unfold Exclusive
  cases move with
  | accept connfd hplace =>
    rw [hplace] at hcount
    exact hcount
  | lock connfd hplace hfree =>
    rw [hplace, hfree] at hcount
    simp only [Acceptor.holds, Bool.toNat_false, Bool.toNat_true] at hcount ⊢
    omega
  | store connfd hplace =>
    rw [hplace] at hcount
    exact hcount
  | quit hplace hsame =>
    rw [hplace] at hcount
    exact hcount
  | goOn hplace hother =>
    rw [hplace] at hcount
    exact hcount
  | unlock hplace =>
    rw [hplace] at hcount
    have hbound := Bool.toNat_le s.locked
    simp only [Acceptor.holds, Bool.toNat_false] at hcount ⊢
    omega
  | signalNone hplace hnone =>
    rw [hplace] at hcount
    exact hcount
  | signal thread hplace hthread =>
    have hset : total Worker.holds (s.threads.set thread .woken) + s.acceptor.holds =
        s.locked.toNat := h.set hthread rfl
    rw [hplace] at hset
    exact hset
  | wake thread hthread => exact h.set hthread rfl
  | threadLock thread hthread hfree => exact h.set hthread (by rw [hfree]; rfl)
  | threadRelock thread hthread hfree => exact h.set hthread (by rw [hfree]; rfl)
  | sleep thread hthread hsame =>
    exact h.set hthread (by rw [(h.of_holds hthread rfl).2]; rfl)
  | find thread hthread hother => exact h.set hthread rfl
  | take thread hthread => exact h.set hthread rfl
  | threadUnlock thread connfd hthread =>
    exact h.set hthread (by rw [(h.of_holds hthread rfl).2]; rfl)
  | close thread connfd hthread => exact h.set hthread rfl
  | exit thread connfd hthread => exact hcount

/-! ### The buffer -/

/-- The connection in the hands of the main thread. -/
def Acceptor.inHand : Acceptor Connection → List Connection
  | .locking connfd | .storing connfd => [connfd]
  | _ => []

/-- The main thread has stored a connection and not passed the test of the indices. -/
def Acceptor.tests : Acceptor Connection → Bool
  | .testing | .quit => true
  | _ => false

theorem Exclusive.tests_eq_false (h : Exclusive s) {thread : ℕ} {worker : Worker Connection}
    (hthread : s.threads[thread]? = some worker) (hholds : worker.holds = 1) :
    s.acceptor.tests = false := by
  have hout := (h.of_holds hthread hholds).1
  cases hplace : s.acceptor with
  | testing | quit =>
    rw [hplace] at hout
    cases hout
  | _ => rfl

theorem Acceptor.tests_of_isQuit {acceptor : Acceptor Connection} (hquit : acceptor.isQuit = true) :
    acceptor.tests = true := by
  cases acceptor with
  | quit => rfl
  | _ => cases hquit

/-- The connections that are stored and not taken. -/
def queued (s : Pool Connection) : ℕ :=
  s.accepted.length - s.acceptor.inHand.length - s.taken.length

/-- The buffer holds `count` connections. -/
structure Buffered (s : Pool Connection) (count : ℕ) : Prop where
  iget_lt : s.iget < maxncli
  iput_eq : s.iput = (s.iget + count) % maxncli
  count_le : count ≤ maxncli
  count_lt : s.acceptor.tests = false → count < maxncli
  count_pos : s.acceptor.tests = true → 0 < count
  found : ∀ thread : ℕ, s.threads[thread]? = some .taking → 0 < count
  quit_full : s.acceptor.isQuit = true → count = maxncli
  accepted_eq : s.accepted =
    s.taken.map Prod.snd ++ contents maxncli s.clifd s.iget count ++ s.acceptor.inHand

theorem Buffered.queued_eq {count : ℕ} (h : Buffered s count) : queued s = count := by
  have hlength := congrArg List.length h.accepted_eq
  simp only [List.length_append, List.length_map, length_contents] at hlength
  unfold queued
  omega

/-- The indices are the same if the buffer is empty or full. -/
theorem Buffered.same_iff {count : ℕ} (h : Buffered s count) :
    s.iput = s.iget ↔ count = 0 ∨ count = maxncli := by
  rw [h.iput_eq]
  exact last_eq_first_iff h.iget_lt h.count_le

/-- A thread that does not begin to take leaves the buffer as it is. -/
theorem Buffered.set {count : ℕ} (h : Buffered s count) (thread : ℕ) {new : Worker Connection}
    (hnew : new = .taking → 0 < count) (locked : Bool) :
    Buffered { s with locked := locked, threads := s.threads.set thread new } count where
  iget_lt := h.iget_lt
  iput_eq := h.iput_eq
  count_le := h.count_le
  count_lt := h.count_lt
  count_pos := h.count_pos
  found := by
    intro other hother
    rcases getElem?_set_cases hother with hold | ⟨-, heq⟩
    · exact h.found other hold.2
    · exact hnew heq
  quit_full := h.quit_full
  accepted_eq := h.accepted_eq

/-- The main thread moves on without touching the buffer. -/
theorem Buffered.place {count : ℕ} (h : Buffered s count) {acceptor : Acceptor Connection}
    (locked : Bool) (hhand : acceptor.inHand = s.acceptor.inHand)
    (htests : acceptor.tests = s.acceptor.tests ∨ acceptor.tests = false ∧ count < maxncli)
    (hquit : acceptor.isQuit = true → count = maxncli) :
    Buffered { s with locked := locked, acceptor := acceptor } count where
  iget_lt := h.iget_lt
  iput_eq := h.iput_eq
  count_le := h.count_le
  count_lt := by
    intro hfalse
    rcases htests with hsame | ⟨-, hlt⟩
    · exact h.count_lt (hsame ▸ hfalse)
    · exact hlt
  count_pos := by
    intro htrue
    rcases htests with hsame | ⟨hfalse, -⟩
    · exact h.count_pos (hsame ▸ htrue)
    · simp only at htrue
      rw [hfalse] at htrue
      cases htrue
  found := h.found
  quit_full := hquit
  accepted_eq := by
    rw [hhand]
    exact h.accepted_eq

/-- A connection is stored in the slot after the last. -/
theorem Buffered.store {count : ℕ} (h : Buffered s count) {connfd : Connection}
    (hplace : s.acceptor = .storing connfd) :
    Buffered { s with
      clifd := Function.update s.clifd s.iput connfd
      iput := if s.iput + 1 = maxncli then 0 else s.iput + 1
      acceptor := .testing } (count + 1) where
  iget_lt := h.iget_lt
  iput_eq := by
    have hput : s.iput < maxncli := by
      rw [h.iput_eq]
      exact Nat.mod_lt _ (by decide)
    rw [wrap_eq_mod_of_eq hput, h.iput_eq, Nat.mod_add_mod, Nat.add_assoc]
  count_le := h.count_lt (by rw [hplace]; rfl)
  count_lt := fun hfalse ↦ by cases hfalse
  count_pos := fun _ ↦ Nat.succ_pos count
  found := fun _ _ ↦ Nat.succ_pos count
  quit_full := fun hquit ↦ by cases hquit
  accepted_eq := by
    have hlt : count < maxncli := h.count_lt (by rw [hplace]; rfl)
    have haccepted := h.accepted_eq
    rw [hplace] at haccepted
    rw [h.iput_eq, contents_update hlt]
    simpa only [Acceptor.inHand, List.append_nil, List.append_assoc] using haccepted

/-- The oldest connection is taken. -/
theorem Buffered.take {count : ℕ} (h : Buffered s count) (hexclusive : Exclusive s) {thread : ℕ}
    (hthread : s.threads[thread]? = some .taking) :
    Buffered { s with
      iget := if s.iget + 1 = maxncli then 0 else s.iget + 1
      threads := s.threads.set thread (.unlocking (s.clifd s.iget))
      taken := s.taken ++ [(thread, s.clifd s.iget)] } (count - 1) := by
  have hpos := h.found thread hthread
  have hput := h.iput_eq
  have haccepted := h.accepted_eq
  obtain ⟨left, rfl⟩ : ∃ left, count = left + 1 := ⟨count - 1, by omega⟩
  have htests := hexclusive.tests_eq_false hthread rfl
  rw [contents_succ, Nat.mod_eq_of_lt h.iget_lt] at haccepted
  rw [wrap_eq_mod_of_eq h.iget_lt]
  exact
    { iget_lt := Nat.mod_lt _ (by decide)
      iput_eq := by
        rw [hput, Nat.add_sub_cancel, Nat.mod_add_mod]
        congr 1
        omega
      count_le := Nat.le_of_succ_le h.count_le
      count_lt := fun _ ↦ h.count_le
      count_pos := by
        intro htrue
        rw [htests] at htrue
        cases htrue
      found := by
        intro other hother
        rcases getElem?_set_cases hother with ⟨hne, hold⟩ | ⟨-, heq⟩
        · exact absurd (hexclusive.eq_of_holds hthread rfl hold rfl) (Ne.symm hne)
        · cases heq
      quit_full := by
        intro hquit
        rw [Acceptor.tests_of_isQuit hquit] at htests
        cases htests
      accepted_eq := by
        rw [contents_mod, haccepted]
        simp only [Nat.add_sub_cancel, List.map_append, List.map_cons, List.map_nil,
          List.append_assoc, List.cons_append, List.nil_append] }

theorem Buffered.move {count : ℕ} (h : Buffered s count) (hexclusive : Exclusive s)
    (move : PoolMove s event next) : ∃ count, Buffered next count := by
  cases move with
  | accept connfd hplace =>
    have haccepted := h.accepted_eq
    rw [hplace] at haccepted
    refine ⟨count, { h with count_lt := ?_, count_pos := ?_, quit_full := ?_, accepted_eq := ?_ }⟩
    · exact fun _ ↦ h.count_lt (by rw [hplace]; rfl)
    · exact fun htrue ↦ by cases htrue
    · exact fun hquit ↦ by cases hquit
    · rw [haccepted]
      simp only [Acceptor.inHand, List.append_nil]
  | lock connfd hplace hfree =>
    exact ⟨count, h.place true (by rw [hplace]; rfl) (.inl (by rw [hplace]; rfl))
      fun hquit ↦ by cases hquit⟩
  | store connfd hplace => exact ⟨count + 1, h.store hplace⟩
  | quit hplace hsame =>
    have hpos := h.count_pos (by rw [hplace]; rfl)
    refine ⟨count, h.place s.locked (by rw [hplace]; rfl) (.inl (by rw [hplace]; rfl)) fun _ ↦ ?_⟩
    rcases h.same_iff.mp hsame with hempty | hfull
    · omega
    · exact hfull
  | goOn hplace hother =>
    have hlt : count < maxncli := by
      refine Nat.lt_of_le_of_ne h.count_le fun hfull ↦ hother ?_
      exact h.same_iff.mpr (.inr hfull)
    exact ⟨count, h.place s.locked (by rw [hplace]; rfl) (.inr ⟨rfl, hlt⟩)
      fun hquit ↦ by cases hquit⟩
  | unlock hplace =>
    exact ⟨count, h.place false (by rw [hplace]; rfl) (.inl (by rw [hplace]; rfl))
      fun hquit ↦ by cases hquit⟩
  | signalNone hplace hnone =>
    exact ⟨count, h.place s.locked (by rw [hplace]; rfl) (.inl (by rw [hplace]; rfl))
      fun hquit ↦ by cases hquit⟩
  | signal thread hplace hthread =>
    have hset := h.set thread (fun heq : Worker.woken = .taking ↦ by cases heq) s.locked
    exact ⟨count, hset.place s.locked (by rw [hplace]; rfl) (.inl (by rw [hplace]; rfl))
      fun hquit ↦ by cases hquit⟩
  | wake thread hthread => exact ⟨count, h.set thread (fun heq ↦ by cases heq) s.locked⟩
  | threadLock thread hthread hfree => exact ⟨count, h.set thread (fun heq ↦ by cases heq) true⟩
  | threadRelock thread hthread hfree => exact ⟨count, h.set thread (fun heq ↦ by cases heq) true⟩
  | sleep thread hthread hsame => exact ⟨count, h.set thread (fun heq ↦ by cases heq) false⟩
  | find thread hthread hother =>
    refine ⟨count, h.set thread (fun _ ↦ Nat.pos_of_ne_zero fun hempty ↦ hother ?_) s.locked⟩
    exact (h.same_iff.mpr (.inl hempty)).symm
  | take thread hthread => exact ⟨count - 1, h.take hexclusive hthread⟩
  | threadUnlock thread connfd hthread =>
    exact ⟨count, h.set thread (fun heq ↦ by cases heq) false⟩
  | close thread connfd hthread =>
    exact ⟨count, { h.set thread (fun heq : Worker.locking = .taking ↦ by cases heq) s.locked with }⟩
  | exit thread connfd hthread => exact ⟨count, { h with }⟩

/-! ### Who serves a connection -/

/-- The connection in the hands of a thread. -/
def Worker.inHand : Worker Connection → List Connection
  | .unlocking connfd | .serving connfd => [connfd]
  | _ => []

/-- The entries of a log that belong to a thread. -/
def entriesOf (thread : ℕ) (log : List (ℕ × Connection)) : List Connection :=
  (log.filter fun entry ↦ entry.1 = thread).map Prod.snd

theorem entriesOf_append_self (thread : ℕ) (log : List (ℕ × Connection)) (connfd : Connection) :
    entriesOf thread (log ++ [(thread, connfd)]) = entriesOf thread log ++ [connfd] := by
  simp [entriesOf]

theorem entriesOf_append_of_ne {thread other : ℕ} (hne : other ≠ thread)
    (log : List (ℕ × Connection)) (connfd : Connection) :
    entriesOf other (log ++ [(thread, connfd)]) = entriesOf other log := by
  simp [entriesOf, Ne.symm hne]

/-- What a thread has taken it has closed, but for the connection in its hands. -/
structure Attributed (threads : List (Worker Connection)) (taken closed : List (ℕ × Connection)) :
    Prop where
  taken_eq : ∀ (thread : ℕ) (worker : Worker Connection), threads[thread]? = some worker →
    entriesOf thread taken = entriesOf thread closed ++ worker.inHand
  taken_lt : ∀ entry ∈ taken, entry.1 < threads.length

section Attributed

variable {threads : List (Worker Connection)} {taken closed : List (ℕ × Connection)} {thread : ℕ}

/-- A thread moves on with the same connection, or none. -/
theorem Attributed.set (h : Attributed threads taken closed) {old new : Worker Connection}
    (hthread : threads[thread]? = some old) (hhand : new.inHand = old.inHand) :
    Attributed (threads.set thread new) taken closed where
  taken_eq := by
    intro other worker hother
    rcases getElem?_set_cases hother with ⟨-, hold⟩ | ⟨rfl, rfl⟩
    · exact h.taken_eq other worker hold
    · rw [hhand]
      exact h.taken_eq other old hthread
  taken_lt := by
    intro entry hentry
    rw [List.length_set]
    exact h.taken_lt entry hentry

theorem Attributed.take (h : Attributed threads taken closed)
    (hthread : threads[thread]? = some .taking) (connfd : Connection) :
    Attributed (threads.set thread (.unlocking connfd)) (taken ++ [(thread, connfd)]) closed where
  taken_eq := by
    intro other worker hother
    rcases getElem?_set_cases hother with ⟨hne, hold⟩ | ⟨rfl, rfl⟩
    · rw [entriesOf_append_of_ne hne]
      exact h.taken_eq other worker hold
    · have htaken := h.taken_eq other .taking hthread
      simp only [Worker.inHand, List.append_nil] at htaken
      rw [entriesOf_append_self, htaken]
      rfl
  taken_lt := by
    intro entry hentry
    rw [List.length_set]
    rcases List.mem_append.mp hentry with hold | hnew
    · exact h.taken_lt entry hold
    · obtain rfl := List.mem_singleton.mp hnew
      exact (List.getElem?_eq_some_iff.mp hthread).1

theorem Attributed.close (h : Attributed threads taken closed) {connfd : Connection}
    (hthread : threads[thread]? = some (.serving connfd)) :
    Attributed (threads.set thread .locking) taken (closed ++ [(thread, connfd)]) where
  taken_eq := by
    intro other worker hother
    rcases getElem?_set_cases hother with ⟨hne, hold⟩ | ⟨rfl, rfl⟩
    · rw [entriesOf_append_of_ne hne]
      exact h.taken_eq other worker hold
    · rw [entriesOf_append_self, h.taken_eq other (.serving connfd) hthread]
      simp only [Worker.inHand, List.append_nil]
  taken_lt := by
    intro entry hentry
    rw [List.length_set]
    exact h.taken_lt entry hentry

end Attributed

theorem Attributed.move (h : Attributed s.threads s.taken s.closed) (move : PoolMove s event next) :
    Attributed next.threads next.taken next.closed := by
  cases move with
  | take thread hthread => exact h.take hthread _
  | close thread connfd hthread => exact h.close hthread
  | signal thread hplace hthread | wake thread hthread => exact h.set hthread rfl
  | threadLock thread hthread hfree | threadRelock thread hthread hfree => exact h.set hthread rfl
  | sleep thread hthread hsame => exact h.set hthread rfl
  | find thread hthread hother => exact h.set hthread rfl
  | threadUnlock thread connfd hthread => exact h.set hthread rfl
  | _ => exact h

/-! ### Wakeups -/

/-- The thread sleeps in `Pthread_cond_wait`. -/
def Worker.sleeps : Worker Connection → ℕ
  | .asleep => 1
  | _ => 0

/-- The thread is on its way to take a connection. -/
def Worker.comes : Worker Connection → ℕ
  | .locking | .testing | .woken | .taking => 1
  | _ => 0

/-- The main thread has stored a connection and not signalled. -/
def Acceptor.signals : Acceptor Connection → ℕ
  | .testing | .signalling | .quit => 1
  | _ => 0

/-- No thread sleeps, or there is a thread on its way, or a signal to come, for every connection in the
buffer. -/
def Awake (s : Pool Connection) (count : ℕ) : Prop :=
  total Worker.sleeps s.threads = 0 ∨
    count ≤ total Worker.comes s.threads + s.acceptor.signals

theorem total_sleeps_eq_zero {threads : List (Worker Connection)}
    (hnone : threads.any Worker.isAsleep = false) : total Worker.sleeps threads = 0 := by
  refine total_eq_zero fun worker hworker ↦ ?_
  have hawake := List.any_eq_false.mp hnone worker hworker
  cases worker with
  | asleep => exact absurd rfl hawake
  | _ => rfl

/-- A thread that stays on its way, or begins to sleep with an empty buffer, or wakes. -/
theorem Awake.set {count : ℕ} (h : Awake s count) {thread : ℕ} {old new : Worker Connection}
    (hthread : s.threads[thread]? = some old) {count' : ℕ}
    (hweights : count' = 0 ∨
      new.sleeps ≤ old.sleeps ∧ count' + old.comes ≤ count + new.comes) :
    total Worker.sleeps (s.threads.set thread new) = 0 ∨
      count' ≤ total Worker.comes (s.threads.set thread new) + s.acceptor.signals := by
  have hsleeps := total_set Worker.sleeps hthread new
  have hcomes := total_set Worker.comes hthread new
  unfold Awake at h
  omega

theorem Awake.move {count count' : ℕ} (h : Awake s count) (hexclusive : Exclusive s)
    (hbuffered : Buffered s count) (hnext : Buffered next count') (move : PoolMove s event next) :
    Awake next count' := by
  have hcount := hbuffered.queued_eq
  have hcount' := hnext.queued_eq
  have hawake : total Worker.sleeps s.threads = 0 ∨
    count ≤ total Worker.comes s.threads + s.acceptor.signals := h
  unfold queued at hcount hcount'
  unfold Awake
  cases move with
  | accept connfd hplace =>
    simp only [hplace, Acceptor.signals, Acceptor.inHand, List.length_append, List.length_cons,
      List.length_nil] at hawake hcount hcount' ⊢
    omega
  | lock connfd hplace hfree =>
    simp only [hplace, Acceptor.signals, Acceptor.inHand] at hawake hcount hcount' ⊢
    omega
  | store connfd hplace =>
    simp only [hplace, Acceptor.signals, Acceptor.inHand, List.length_cons, List.length_nil]
      at hawake hcount hcount' ⊢
    omega
  | quit hplace hsame =>
    simp only [hplace, Acceptor.signals, Acceptor.inHand] at hawake hcount hcount' ⊢
    omega
  | goOn hplace hother =>
    simp only [hplace, Acceptor.signals, Acceptor.inHand] at hawake hcount hcount' ⊢
    omega
  | unlock hplace =>
    simp only [hplace, Acceptor.signals, Acceptor.inHand] at hawake hcount hcount' ⊢
    omega
  | signalNone hplace hnone => exact .inl (total_sleeps_eq_zero hnone)
  | signal thread hplace hthread =>
    have hsleeps := total_set Worker.sleeps hthread .woken
    have hcomes := total_set Worker.comes hthread .woken
    simp only [hplace, Acceptor.signals, Acceptor.inHand, Worker.sleeps, Worker.comes]
      at hawake hcount hcount' hsleeps hcomes ⊢
    omega
  | wake thread hthread =>
    refine h.set hthread (.inr ⟨Nat.zero_le _, ?_⟩)
    simp only [Worker.comes] at hcount' ⊢
    omega
  | threadLock thread hthread hfree =>
    refine h.set hthread (.inr ⟨Nat.le_refl _, ?_⟩)
    simp only [Worker.comes] at hcount' ⊢
    omega
  | threadRelock thread hthread hfree =>
    refine h.set hthread (.inr ⟨Nat.le_refl _, ?_⟩)
    simp only [Worker.comes] at hcount' ⊢
    omega
  | sleep thread hthread hsame =>
    refine h.set hthread (.inl ?_)
    have hlt := hbuffered.count_lt (hexclusive.tests_eq_false hthread rfl)
    rcases hbuffered.same_iff.mp hsame.symm with hempty | hfull
    · simp only at hcount'
      omega
    · omega
  | find thread hthread hother =>
    refine h.set hthread (.inr ⟨Nat.le_refl _, ?_⟩)
    simp only [Worker.comes] at hcount' ⊢
    omega
  | take thread hthread =>
    have hpos := hbuffered.found thread hthread
    refine h.set hthread (.inr ⟨Nat.le_refl _, ?_⟩)
    simp only [Worker.comes, List.length_append, List.length_cons, List.length_nil] at hcount' ⊢
    omega
  | threadUnlock thread connfd hthread =>
    refine h.set hthread (.inr ⟨Nat.le_refl _, ?_⟩)
    simp only [Worker.comes] at hcount' ⊢
    omega
  | close thread connfd hthread =>
    refine h.set hthread (.inr ⟨Nat.le_refl _, ?_⟩)
    simp only [Worker.comes] at hcount' ⊢
    omega
  | exit thread connfd hthread =>
    simp only at hcount' ⊢
    omega

/-! ### Runs -/

/-- What holds in every state of a pool of `nthreads` threads. -/
structure Consistent (nthreads : ℕ) (s : Pool Connection) : Prop where
  exclusive : Exclusive s
  buffered : Buffered s (queued s)
  attributed : Attributed s.threads s.taken s.closed
  awake : Awake s (queued s)
  length_eq : s.threads.length = nthreads

variable {nthreads : ℕ} {clifd : ℕ → Connection}

theorem Consistent.start (clifd : ℕ → Connection) (nthreads : ℕ) :
    Consistent nthreads (.start clifd nthreads) where
  exclusive := by
    rw [Exclusive, Pool.start, total_replicate]
    rfl
  buffered :=
    { iget_lt := Nat.succ_pos 31
      iput_eq := rfl
      count_le := Nat.zero_le _
      count_lt := fun _ ↦ Nat.succ_pos 31
      count_pos := fun htests ↦ by cases htests
      found := by
        intro thread hthread
        cases List.eq_of_mem_replicate (List.mem_of_getElem? hthread)
      quit_full := fun hquit ↦ by cases hquit
      accepted_eq := rfl }
  attributed :=
    { taken_eq := by
        intro thread worker hthread
        rw [List.eq_of_mem_replicate (List.mem_of_getElem? hthread)]
        rfl
      taken_lt := fun _ hentry ↦ absurd hentry List.not_mem_nil }
  awake := .inl (total_replicate _ _ _)
  length_eq := List.length_replicate

theorem length_threads_of_move (move : PoolMove s event next) :
    next.threads.length = s.threads.length := by
  cases move <;> simp only [List.length_set]

theorem Consistent.step (h : Consistent nthreads s) (htaken : poolStep s event = some next) :
    Consistent nthreads next := by
  obtain ⟨-, move⟩ := poolMove_of_poolStep htaken
  obtain ⟨count, hcount⟩ := h.buffered.move h.exclusive move
  have hbuffered : Buffered next (queued next) := by
    rw [hcount.queued_eq]
    exact hcount
  exact
    { exclusive := h.exclusive.move move
      buffered := hbuffered
      attributed := h.attributed.move move
      awake := h.awake.move h.exclusive h.buffered hbuffered move
      length_eq := (length_threads_of_move move).trans h.length_eq }

theorem consistent_of_run (hrun : Reachable poolStep (.start clifd nthreads) s) :
    Consistent nthreads s :=
  hrun.invariant (.start clifd nthreads) fun _ _ _ h _ htaken ↦ h.step htaken

/-! ### Order, and who serves a connection -/

/-- In every state the connections accepted are those taken, then those in the buffer from `iget` to
`iput`, then the one in the hands of the main thread; each was taken by one thread of the pool, and a
thread has closed what it took, in this order, but for the connection in its hands. -/
theorem served_in_order (hrun : Reachable poolStep (.start clifd nthreads) s) :
    s.accepted =
        s.taken.map Prod.snd ++ contents maxncli s.clifd s.iget (queued s) ++ s.acceptor.inHand ∧
      s.iput = (s.iget + queued s) % maxncli ∧
      (∀ entry ∈ s.taken, entry.1 < nthreads) ∧
      ∀ (thread : ℕ) (worker : Worker Connection), s.threads[thread]? = some worker →
        entriesOf thread s.taken = entriesOf thread s.closed ++ worker.inHand := by
  have h := consistent_of_run hrun
  exact ⟨h.buffered.accepted_eq, h.buffered.iput_eq, h.length_eq ▸ h.attributed.taken_lt,
    h.attributed.taken_eq⟩

/-- A pool of two threads after some events, or at its start if they cannot be taken. -/
def after (events : List (PoolEvent ℕ)) : Pool ℕ :=
  (execute poolStep anyEvent (.start (fun _ ↦ 0) 2) events).getD (.start (fun _ ↦ 0) 2)

theorem run_after {events : List (PoolEvent ℕ)}
    (hsome : (execute poolStep anyEvent (.start (fun _ ↦ 0) 2) events).isSome = true) :
    Reachable poolStep (.start (fun _ ↦ 0) 2) (after events) := by
  obtain ⟨s, hs⟩ := Option.isSome_iff_exists.mp hsome
  rw [after, hs]
  exact run_of_execute hs

/-- A connection that comes while no thread sleeps. -/
def connect (connfd : ℕ) : List (PoolEvent ℕ) :=
  [.accept connfd, .main, .main, .main, .signal none, .main]

/-- Two connections, of which the second thread takes the first. -/
theorem served_in_order_connect :
    let s := after (connect 7 ++ connect 8 ++ List.replicate 3 (.thread 1))
    s.taken = [(1, 7)] ∧
      s.accepted =
        s.taken.map Prod.snd ++ contents maxncli s.clifd s.iget (queued s) ++ s.acceptor.inHand :=
  ⟨by decide, (served_in_order (run_after (by decide))).1⟩

/-! ### What is left to do -/

/-- A step that the threads take by themselves, without a new connection, without a wakeup for no
reason and without a client. -/
def PoolEvent.isOwn : PoolEvent Connection → Bool
  | .accept _ | .wake _ | .clientCloses _ | .clientRefused _ => false
  | _ => true

/-- A step that does a part of what is left to do: such a step, or the end of a service. -/
def PoolEvent.isProgress : PoolEvent Connection → Bool
  | .accept _ | .wake _ | .clientRefused _ => false
  | _ => true

/-- What a thread has left to do. -/
def Worker.work : Worker Connection → ℕ
  | .asleep => 0
  | .taking => 1
  | .testing => 2
  | .locking | .woken => 3
  | .serving _ => 4
  | .unlocking _ => 5

/-- What the main thread has left to do, with the thread that it wakes and the connection that it
stores. -/
def Acceptor.work : Acceptor Connection → ℕ
  | .accepting | .quit => 0
  | .unlocking => 1
  | .signalling => 5
  | .testing => 6
  | .storing _ => 13
  | .locking _ => 14

/-- What all have left to do. -/
def work (s : Pool Connection) : ℕ :=
  total Worker.work s.threads + 5 * queued s + s.acceptor.work

/-- A thread does a part of its work, and the rest stays as it is. -/
theorem work_set_lt {thread : ℕ} {old new : Worker Connection}
    (hthread : s.threads[thread]? = some old) (hless : new.work < old.work) (rest rest' : ℕ) :
    total Worker.work (s.threads.set thread new) + rest + rest' <
      total Worker.work s.threads + rest + rest' := by
  have htotal := total_set Worker.work hthread new
  omega

/-- The main thread does a part of its work. -/
theorem work_lt_of_place {acceptor : Acceptor Connection} (hhand : acceptor.inHand = s.acceptor.inHand)
    (hless : acceptor.work < s.acceptor.work) (locked : Bool) :
    work { s with locked := locked, acceptor := acceptor } < work s := by
  simp only [work, queued, hhand]
  omega

theorem work_lt_of_move (h : Consistent nthreads s) (hprogress : event.isProgress = true)
    (move : PoolMove s event next) : work next < work s := by
  cases move with
  | accept connfd hplace => cases hprogress
  | wake thread hthread => cases hprogress
  | exit thread connfd hthread => cases hprogress
  | lock connfd hplace hfree =>
    exact work_lt_of_place (by rw [hplace]; rfl) (by simp only [hplace, Acceptor.work]; omega) true
  | store connfd hplace =>
    simp only [work, queued, hplace, Acceptor.inHand, Acceptor.work, List.length_cons,
      List.length_nil]
    omega
  | quit hplace hsame =>
    exact work_lt_of_place (by rw [hplace]; rfl) (by simp only [hplace, Acceptor.work]; omega) s.locked
  | goOn hplace hother =>
    exact work_lt_of_place (by rw [hplace]; rfl) (by simp only [hplace, Acceptor.work]; omega) s.locked
  | unlock hplace =>
    exact work_lt_of_place (by rw [hplace]; rfl) (by simp only [hplace, Acceptor.work]; omega) false
  | signalNone hplace hnone =>
    exact work_lt_of_place (by rw [hplace]; rfl) (by simp only [hplace, Acceptor.work]; omega) s.locked
  | signal thread hplace hthread =>
    have htotal := total_set Worker.work hthread .woken
    simp only [work, queued, hplace, Acceptor.inHand, Acceptor.work, Worker.work] at htotal ⊢
    omega
  | threadLock thread hthread hfree =>
    exact work_set_lt hthread (by simp only [Worker.work, Nat.reduceLT]) _ _
  | threadRelock thread hthread hfree =>
    exact work_set_lt hthread (by simp only [Worker.work, Nat.reduceLT]) _ _
  | sleep thread hthread hsame =>
    exact work_set_lt hthread (by simp only [Worker.work, Nat.reduceLT]) _ _
  | find thread hthread hother =>
    exact work_set_lt hthread (by simp only [Worker.work, Nat.reduceLT]) _ _
  | take thread hthread =>
    have hpos := h.buffered.found thread hthread
    have htotal := total_set Worker.work hthread (.unlocking (s.clifd s.iget))
    simp only [work, queued, Worker.work, List.length_append, List.length_cons, List.length_nil]
      at hpos htotal ⊢
    omega
  | threadUnlock thread connfd hthread =>
    exact work_set_lt hthread (by simp only [Worker.work, Nat.reduceLT]) _ _
  | close thread connfd hthread =>
    exact work_set_lt hthread (by simp only [Worker.work, Nat.reduceLT]) _ _

theorem Worker.eq_asleep {worker : Worker Connection} (hasleep : worker.isAsleep = true) :
    worker = .asleep := by
  cases worker with
  | asleep => rfl
  | _ => cases hasleep

/-- The thread serves a client. -/
def Worker.isServing : Worker Connection → Bool
  | .serving _ => true
  | _ => false

/-- The thread waits for a signal or for its client. -/
def Worker.Idle (worker : Worker Connection) : Prop :=
  worker.isAsleep = true ∨ worker.isServing = true

theorem Worker.Idle.weights {worker : Worker Connection} (hidle : worker.Idle) :
    worker.holds = 0 ∧ worker.comes = 0 := by
  cases worker with
  | asleep | serving connfd => exact ⟨rfl, rfl⟩
  | _ => cases hidle with
    | inl hasleep => cases hasleep
    | inr hserving => cases hserving

/-- A thread that cannot move sleeps, serves a client, or waits for the mutex. -/
theorem idle_or_waiting {thread : ℕ} {worker : Worker Connection}
    (hthread : s.threads[thread]? = some worker) (hnone : threadStep s thread = none) :
    worker.Idle ∨ s.locked = true ∧ worker.holds = 0 := by
  cases worker with
  | asleep => exact .inl (.inl rfl)
  | serving connfd => exact .inl (.inr rfl)
  | locking | woken =>
    simp only [threadStep, hthread] at hnone
    split_ifs at hnone with hlocked
    exact .inr ⟨hlocked, rfl⟩
  | testing =>
    simp only [threadStep, hthread] at hnone
    split_ifs at hnone
  | taking | unlocking connfd => simp only [threadStep, hthread, reduceCtorEq] at hnone

/-- Where no thread can move by itself all of the pool sleep or serve clients, the mutex is free and
the main thread is in `Accept`. -/
theorem idle_of_stuck (hexclusive : Exclusive s) (hrunning : s.hasEnded = false)
    (hstuck : ∀ event : PoolEvent Connection, event.isOwn = true → poolStep s event = none) :
    s.acceptor = .accepting ∧ ∀ worker ∈ s.threads, worker.Idle := by
  have hthreads (thread : ℕ) : threadStep s thread = none := by
    have hnone := hstuck (.thread thread) rfl
    simpa only [poolStep, hrunning, Bool.false_eq_true, if_false] using hnone
  have hmain : mainStep s = none := by
    have hnone := hstuck .main rfl
    simpa only [poolStep, hrunning, Bool.false_eq_true, if_false] using hnone
  have hsignal (woken : Option ℕ) : signalStep s woken = none := by
    have hnone := hstuck (.signal woken) rfl
    simpa only [poolStep, hrunning, Bool.false_eq_true, if_false] using hnone
  have hcases (worker : Worker Connection) (hworker : worker ∈ s.threads) :
      worker.Idle ∨ s.locked = true ∧ worker.holds = 0 := by
    obtain ⟨thread, hthread⟩ := List.mem_iff_getElem?.mp hworker
    exact idle_or_waiting hthread (hthreads thread)
  have hnoneHolds : total Worker.holds s.threads = 0 := by
    refine total_eq_zero fun worker hworker ↦ ?_
    rcases hcases worker hworker with hidle | ⟨-, hzero⟩
    · exact hidle.weights.1
    · exact hzero
  have hcount : total Worker.holds s.threads + s.acceptor.holds = s.locked.toNat := hexclusive
  rw [hnoneHolds, Nat.zero_add] at hcount
  cases hplace : s.acceptor with
  | accepting =>
    rw [hplace] at hcount
    refine ⟨rfl, fun worker hworker ↦ ?_⟩
    rcases hcases worker hworker with hidle | ⟨hlocked, -⟩
    · exact hidle
    · rw [hlocked] at hcount
      cases hcount
  | locking connfd =>
    rw [hplace] at hcount
    simp only [mainStep, hplace] at hmain
    split_ifs at hmain with hlocked
    rw [hlocked] at hcount
    cases hcount
  | storing connfd | testing | unlocking => simp only [mainStep, hplace, reduceCtorEq] at hmain
  | signalling =>
    by_cases hany : s.threads.any Worker.isAsleep = true
    · obtain ⟨worker, hworker, hasleep⟩ := List.any_eq_true.mp hany
      obtain ⟨thread, hthread⟩ := List.mem_iff_getElem?.mp hworker
      have hnone := hsignal (some thread)
      cases worker with
      | asleep => simp only [signalStep, hplace, wakeStep, hthread, reduceCtorEq] at hnone
      | _ => cases hasleep
    · have hnone := hsignal none
      simp only [signalStep, hplace, hany, Bool.false_eq_true, if_false, reduceCtorEq] at hnone
  | quit =>
    rw [Pool.hasEnded, hplace] at hrunning
    cases hrunning

/-- Where one thread of a pool that cannot move sleeps, no connection waits. -/
theorem accepted_eq_of_idle (h : Consistent nthreads s) (hplace : s.acceptor = .accepting)
    (hidle : ∀ worker ∈ s.threads, worker.Idle)
    (hasleep : ∃ worker ∈ s.threads, worker.isAsleep = true) :
    s.accepted = s.taken.map Prod.snd := by
  have hcomes : total Worker.comes s.threads = 0 :=
    total_eq_zero fun worker hworker ↦ (hidle worker hworker).weights.2
  obtain ⟨worker, hworker, hsleeping⟩ := hasleep
  have hsleeps := weight_le_total Worker.sleeps hworker
  rw [worker.eq_asleep hsleeping] at hsleeps
  have hempty : queued s = 0 := by
    rcases h.awake with hnone | hfew
    · rw [hnone] at hsleeps
      cases hsleeps
    · rw [hcomes, hplace] at hfew
      exact Nat.le_zero.mp hfew
  have haccepted := h.buffered.accepted_eq
  rw [hempty, hplace, contents_zero] at haccepted
  simpa only [Acceptor.inHand, List.append_nil] using haccepted

/-- The steps that the threads take by themselves, together with the ends of services, are no more than
they have left to do. Where none is left of their own, and the process has not ended, the main thread is
in `Accept`, every thread serves a client or sleeps, and no connection waits if one sleeps. So with any
threads at all, and no client any more, every connection has been taken and closed. -/
theorem pool_settles (hrun : Reachable poolStep (.start clifd nthreads) s) :
    (∀ (events : List (PoolEvent Connection)) (finish : Pool Connection),
        execute poolStep (fun _ event ↦ event.isProgress = true) s events = some finish →
          events.length ≤ work s) ∧
      (s.hasEnded = false →
        (∀ event : PoolEvent Connection, event.isOwn = true → poolStep s event = none) →
          s.acceptor = .accepting ∧ (∀ worker ∈ s.threads, worker.Idle) ∧
            ((∃ worker ∈ s.threads, worker.isAsleep = true) →
              s.accepted = s.taken.map Prod.snd) ∧
            (0 < nthreads → (∀ worker ∈ s.threads, worker.isServing = false) →
              s.accepted = s.taken.map Prod.snd ∧
                ∀ thread < nthreads, entriesOf thread s.taken = entriesOf thread s.closed)) := by
  have h := consistent_of_run hrun
  constructor
  · intro events finish hexecute
    refine length_le_of_measure work (fun _ _ _ hknown htaken ↦ Consistent.step hknown htaken)
      (fun _ _ _ hknown hprogress htaken ↦ ?_) h hexecute
    exact work_lt_of_move hknown hprogress (poolMove_of_poolStep htaken).2
  · intro hrunning hstuck
    obtain ⟨hplace, hidle⟩ := idle_of_stuck h.exclusive hrunning hstuck
    refine ⟨hplace, hidle, accepted_eq_of_idle h hplace hidle, fun hthreads hnone ↦ ?_⟩
    have hasleep (worker : Worker Connection) (hworker : worker ∈ s.threads) :
        worker.isAsleep = true := by
      rcases hidle worker hworker with hasleep | hserving
      · exact hasleep
      · cases (hnone worker hworker).symm.trans hserving
    obtain ⟨worker, hworker⟩ := List.exists_mem_of_length_pos (h.length_eq.symm ▸ hthreads)
    refine ⟨accepted_eq_of_idle h hplace hidle ⟨worker, hworker, hasleep worker hworker⟩,
      fun thread hthread ↦ ?_⟩
    rw [← h.length_eq] at hthread
    have hget := List.getElem?_eq_getElem hthread
    rw [Worker.eq_asleep (hasleep _ (List.getElem_mem hthread))] at hget
    simpa only [Worker.inHand, List.append_nil] using h.attributed.taken_eq thread .asleep hget

/-- The first thread serves a connection until the client closes it, and both fall asleep. -/
def servedOne : List (PoolEvent ℕ) :=
  connect 7 ++ List.replicate 4 (.thread 0) ++ .clientCloses 0 :: List.replicate 2 (.thread 0) ++
    List.replicate 2 (.thread 1)

theorem pool_settles_servedOne :
    (after servedOne).accepted = (after servedOne).taken.map Prod.snd ∧
      ∀ thread < 2, entriesOf thread (after servedOne).taken =
        entriesOf thread (after servedOne).closed := by
  have hstuck : ∀ event : PoolEvent ℕ, event.isOwn = true → poolStep (after servedOne) event = none := by
    intro event hown
    rcases event with connfd | _ | (_ | thread) | thread | thread | thread | thread
    · cases hown
    · rfl
    · rfl
    · rfl
    · cases hown
    · rcases thread with _ | _ | thread
      · rfl
      · rfl
      · rfl
    · cases hown
    · cases hown
  have hnone : ∀ worker ∈ (after servedOne).threads, worker.isServing = false := by
    intro worker hworker
    obtain rfl : worker = .asleep := List.eq_of_mem_replicate (n := 2) hworker
    rfl
  exact ((pool_settles (run_after (by decide))).2 (by decide) hstuck).2.2.2 (by decide) hnone

/-! ### The full buffer -/

/-- The main thread is about to store a connection. -/
def Acceptor.stores : Acceptor Connection → Bool
  | .storing _ => true
  | _ => false

/-- The main thread stores a connection only where that leaves a slot free. -/
def Roomy (s : Pool Connection) : PoolEvent Connection → Prop
  | .main => s.acceptor.stores = true → queued s + 1 < maxncli
  | _ => True

theorem queued_lt_iff (h : Consistent nthreads s) (move : PoolMove s event next) :
    queued next < maxncli ↔ queued s < maxncli ∧ Roomy s event := by
  cases move with
  | store connfd hplace =>
    rw [(h.buffered.store hplace).queued_eq]
    simp only [Roomy, hplace, Acceptor.stores, forall_const]
    omega
  | take thread hthread =>
    have hlt := h.buffered.count_lt (h.exclusive.tests_eq_false hthread rfl)
    refine iff_of_true ?_ ⟨hlt, trivial⟩
    simp only [queued, List.length_append, List.length_cons, List.length_nil] at hlt ⊢
    omega
  | accept connfd hplace =>
    simp only [Roomy, queued, hplace, Acceptor.inHand, List.length_append, List.length_cons,
      List.length_nil, and_true]
    omega
  | lock connfd hplace hfree | quit hplace hsame | goOn hplace hother | unlock hplace =>
    simp only [Roomy, queued, hplace, Acceptor.inHand, Acceptor.stores, Bool.false_eq_true,
      false_implies, and_true]
  | signalNone hplace hnone | signal thread hplace hthread =>
    simp only [Roomy, queued, hplace, Acceptor.inHand, and_true]
  | _ => exact (and_iff_left trivial).symm

/-- The buffer holds fewer than 32 connections as long as each was stored with a slot to spare. The main
thread ends the process exactly when it holds 32, which is as many as it has slots, unless a thread has
just ended it. -/
theorem quits_iff (hrun : Reachable poolStep (.start clifd nthreads) s) :
    (queued s < maxncli ↔ Run poolStep Roomy (.start clifd nthreads) s) ∧
      (s.acceptor.isQuit = true → queued s = maxncli) ∧
      (queued s = maxncli →
        s.acceptor.isQuit = true ∨ s.exited = true ∨
          poolStep s .main = some { s with acceptor := .quit }) := by
  have h := consistent_of_run hrun
  refine ⟨?_, h.buffered.quit_full, fun hfull ↦ ?_⟩
  · exact run_iff (fun _ ↦ consistent_of_run) (Nat.succ_pos 31)
      (fun _ _ _ hknown htaken ↦ queued_lt_iff hknown (poolMove_of_poolStep htaken).2) hrun
  · cases hplace : s.acceptor with
    | testing =>
      have hsame := h.buffered.same_iff.mpr (.inr hfull)
      refine .inr ?_
      cases hexited : s.exited with
      | true => exact .inl rfl
      | false =>
        refine .inr ?_
        simp only [poolStep, Pool.hasEnded, mainStep, hplace, hexited, Acceptor.isQuit, hsame,
          Bool.or_self, Bool.false_eq_true, if_false, if_true]
    | quit => exact .inl rfl
    | _ =>
      have hlt := h.buffered.count_lt (by rw [hplace]; rfl)
      omega

/-- 32 connections come before a thread has taken one. -/
def fillUp : List (PoolEvent ℕ) :=
  (List.range 31).flatMap connect ++ [.accept 31, .main, .main]

theorem quits_iff_fillUp :
    poolStep (after fillUp) .main = some { after fillUp with acceptor := .quit } := by
  have hrun : Reachable poolStep (.start (fun _ ↦ 0) 2) (after fillUp) := run_after (by decide)
  rcases (quits_iff hrun).2.2 (by decide) with hquit | hexited | hnext
  · exact absurd hquit (by decide)
  · exact absurd hexited (by decide)
  · exact hnext

end CppLearn.Unp.ThreadServer
