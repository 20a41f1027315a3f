import CppLearn.Foundation.GuardedRun
import CppLearn.Foundation.ThreadTable
import Mathlib.Algebra.Ring.Int.Defs

/-!
# A web client with a thread for every file

`main` starts a thread for each file, at most `maxnconn` at a time. A thread marks its file as done and
then counts itself, under a mutex and with a signal; `main` waits until the count is not zero and joins
every thread whose file is marked, with the mutex in its hands. `webStep` interleaves their statements.

There are never more than `maxnconn` threads, and when `main` ends it has joined them all
(`connections_bounded`). But a thread can be joined between its mark and its count: then it waits for
the mutex of the one that waits for it. So the client is sure to come to its end only if it never has
two threads at a time (`finishes_iff`).
-/

set_option autoImplicit false
set_option relaxedAutoImplicit false

namespace CppLearn.Unp.WebThreads

open Foundation.GuardedRun Foundation.ThreadTable

/-! ### The threads -/

/-- `F_DONE`. -/
def fDone : ℕ := 4

/-- A file without a thread, the places of its thread in `do_get_read`: before the connection is made,
before the end of file, before `Pthread_mutex_lock`, before the count, before the signal, before
`Pthread_mutex_unlock`, and past its return; and a file whose thread has been joined. -/
inductive FileThread
  | unstarted
  | connecting
  | reading
  | locking
  | counting
  | signalling
  | unlocking
  | returned
  | joined
  deriving DecidableEq

/-- `f_flags`: zero, `F_CONNECTING`, `F_READING`, `F_DONE` or `F_JOINED`. -/
def FileThread.fFlags : FileThread → ℕ
  | .unstarted => 0
  | .connecting => 1
  | .reading => 2
  | .locking | .counting | .signalling | .unlocking | .returned => fDone
  | .joined => 8

/-- Where `main` stands: at the outer loop, at the loop that starts threads, before
`Pthread_mutex_lock`, at the test of `ndone`, asleep in `Pthread_cond_wait`, woken there, in the loop
over the files, in `Pthread_join`, before `Pthread_mutex_unlock`, or past `exit` or `err_quit`. -/
inductive MainPlace
  | top
  | filling
  | locking
  | testing
  | asleep
  | woken
  | scanning (i : ℕ)
  | joining (i : ℕ)
  | unlocking
  | finished
  | failed
  deriving DecidableEq

/-- The threads and the counters. -/
structure Web where
  main : MainPlace
  files : List FileThread
  locked : Bool
  nconn : ℤ
  nlefttoconn : ℤ
  nlefttoread : ℤ
  ndone : ℤ

/-- `nfiles` files to be read. -/
def Web.start (nfiles : ℕ) : Web :=
  { main := .top
    files := List.replicate nfiles .unstarted
    locked := false
    nconn := 0
    nlefttoconn := nfiles
    nlefttoread := nfiles
    ndone := 0 }

/-- `main` moves, it wakes without a signal, or the thread of a file moves. -/
inductive WebEvent
  | main
  | wake
  | thread (i : ℕ)

/-- A file that no thread has been started for. -/
def isUnstarted (file : FileThread) : Bool := file.fFlags == 0

/-- A file marked as done. -/
def isDone (file : FileThread) : Bool := file.fFlags &&& fDone != 0

/-- A statement of `main`. -/
def mainStep (maxnconn : ℤ) (s : Web) : Option Web :=
  match s.main with
  | .top => some { s with main := if 0 < s.nlefttoread then .filling else .finished }
  | .filling =>
    if s.nconn < maxnconn ∧ 0 < s.nlefttoconn then
      match s.files.findIdx? isUnstarted with
      | none => some { s with main := .failed }
      | some i =>
        some { s with
          files := s.files.set i .connecting
          nconn := s.nconn + 1
          nlefttoconn := s.nlefttoconn - 1 }
    else some { s with main := .locking }
  | .locking | .woken => if s.locked then none else some { s with locked := true, main := .testing }
  | .testing =>
    if s.ndone = 0 then some { s with locked := false, main := .asleep }
    else some { s with main := .scanning 0 }
  | .scanning i =>
    match s.files[i]? with
    | some file => some { s with main := if isDone file then .joining i else .scanning (i + 1) }
    | none => some { s with main := .unlocking }
  | .joining i =>
    match s.files[i]? with
    | some .returned =>
      some { s with
        files := s.files.set i .joined
        ndone := s.ndone - 1
        nconn := s.nconn - 1
        nlefttoread := s.nlefttoread - 1
        main := .scanning (i + 1) }
    | _ => none
  | .unlocking => some { s with locked := false, main := .top }
  | .asleep | .finished | .failed => none

/-- `main` after a signal, or a wakeup without one. -/
def MainPlace.wakened : MainPlace → MainPlace
  | .asleep => .woken
  | place => place

/-- A statement of the thread of a file. -/
def threadStep (s : Web) (i : ℕ) : Option Web :=
  match s.files[i]? with
  | some .connecting => some { s with files := s.files.set i .reading }
  | some .reading => some { s with files := s.files.set i .locking }
  | some .locking =>
    if s.locked then none else some { s with locked := true, files := s.files.set i .counting }
  | some .counting => some { s with ndone := s.ndone + 1, files := s.files.set i .signalling }
  | some .signalling => some { s with main := s.main.wakened, files := s.files.set i .unlocking }
  | some .unlocking => some { s with locked := false, files := s.files.set i .returned }
  | _ => none

/-- One step of one thread. -/
def webStep (maxnconn : ℤ) (s : Web) : WebEvent → Option Web
  | .main => mainStep maxnconn s
  | .wake => if s.main = .asleep then some { s with main := .woken } else none
  | .thread i => threadStep s i

/-- From every state that it can reach, the client can come to its end. -/
def Finishes (maxnconn : ℤ) (nfiles : ℕ) : Prop :=
  ∀ s, Reachable (webStep maxnconn) (.start nfiles) s →
    ∃ finish, Reachable (webStep maxnconn) s finish ∧ finish.main = .finished

/-! ### The moves -/

/-- A statement of the thread of a file that touches no more than its own place and the mutex. -/
inductive PlainMove : FileThread → Bool → FileThread → Bool → Prop
  | connect (locked : Bool) : PlainMove .connecting locked .reading locked
  | endOfFile (locked : Bool) : PlainMove .reading locked .locking locked
  | lock : PlainMove .locking false .counting true
  | unlock (locked : Bool) : PlainMove .unlocking locked .returned false

/-- What a step can be, with the test that leads there and the state that it leaves. -/
inductive WebMove (maxnconn : ℤ) (s : Web) : Web → Prop
  | enter (hmain : s.main = .top) (hleft : 0 < s.nlefttoread) :
      WebMove maxnconn s { s with main := .filling }
  | finish (hmain : s.main = .top) (hleft : ¬ 0 < s.nlefttoread) :
      WebMove maxnconn s { s with main := .finished }
  | fail (hmain : s.main = .filling) (hroom : s.nconn < maxnconn ∧ 0 < s.nlefttoconn)
      (hnone : s.files.findIdx? isUnstarted = none) : WebMove maxnconn s { s with main := .failed }
  | fill (i : ℕ) (hmain : s.main = .filling) (hroom : s.nconn < maxnconn ∧ 0 < s.nlefttoconn)
      (hfind : s.files.findIdx? isUnstarted = some i) :
      WebMove maxnconn s { s with
        main := .filling
        files := s.files.set i .connecting
        nconn := s.nconn + 1
        nlefttoconn := s.nlefttoconn - 1 }
  | leave (hmain : s.main = .filling) (hdone : maxnconn ≤ s.nconn ∨ s.nlefttoconn ≤ 0) :
      WebMove maxnconn s { s with main := .locking }
  | lock (hmain : s.main = .locking ∨ s.main = .woken) (hfree : s.locked = false) :
      WebMove maxnconn s { s with locked := true, main := .testing }
  | sleep (hmain : s.main = .testing) (hzero : s.ndone = 0) :
      WebMove maxnconn s { s with locked := false, main := .asleep }
  | scan (hmain : s.main = .testing) (hsome : s.ndone ≠ 0) :
      WebMove maxnconn s { s with main := .scanning 0 }
  | find (i : ℕ) (file : FileThread) (hmain : s.main = .scanning i) (hfile : s.files[i]? = some file)
      (hdone : isDone file = true) : WebMove maxnconn s { s with main := .joining i }
  | pass (i : ℕ) (file : FileThread) (hmain : s.main = .scanning i) (hfile : s.files[i]? = some file)
      (hdone : isDone file = false) : WebMove maxnconn s { s with main := .scanning (i + 1) }
  | scanned (i : ℕ) (hmain : s.main = .scanning i) (hfile : s.files[i]? = none) :
      WebMove maxnconn s { s with main := .unlocking }
  | join (i : ℕ) (hmain : s.main = .joining i) (hfile : s.files[i]? = some .returned) :
      WebMove maxnconn s { s with
        files := s.files.set i .joined
        ndone := s.ndone - 1
        nconn := s.nconn - 1
        nlefttoread := s.nlefttoread - 1
        main := .scanning (i + 1) }
  | unlock (hmain : s.main = .unlocking) : WebMove maxnconn s { s with locked := false, main := .top }
  | wake (hmain : s.main = .asleep) : WebMove maxnconn s { s with main := .woken }
  | plain (i : ℕ) (old new : FileThread) (locked : Bool) (hfile : s.files[i]? = some old)
      (hmove : PlainMove old s.locked new locked) :
      WebMove maxnconn s { s with locked := locked, files := s.files.set i new }
  | count (i : ℕ) (hfile : s.files[i]? = some .counting) :
      WebMove maxnconn s { s with ndone := s.ndone + 1, files := s.files.set i .signalling }
  | signal (i : ℕ) (hfile : s.files[i]? = some .signalling) :
      WebMove maxnconn s { s with main := s.main.wakened, files := s.files.set i .unlocking }

theorem webMove_of_mainStep {maxnconn : ℤ} {s next : Web} (htaken : mainStep maxnconn s = some next) :
    WebMove maxnconn s next := by
  cases hmain : s.main with
  | top =>
    simp only [mainStep, hmain, Option.some.injEq] at htaken
    subst htaken
    by_cases hleft : 0 < s.nlefttoread
    · rw [if_pos hleft]
      exact .enter hmain hleft
    · rw [if_neg hleft]
      exact .finish hmain hleft
  | filling =>
    simp only [mainStep, hmain] at htaken
    by_cases hroom : s.nconn < maxnconn ∧ 0 < s.nlefttoconn
    · rw [if_pos hroom] at htaken
      cases hfind : s.files.findIdx? isUnstarted with
      | none =>
        simp only [hfind, Option.some.injEq] at htaken
        subst htaken
        exact .fail hmain hroom hfind
      | some i =>
        simp only [hfind, Option.some.injEq] at htaken
        subst htaken
        exact .fill i hmain hroom hfind
    · rw [if_neg hroom, Option.some.injEq] at htaken
      subst htaken
      exact .leave hmain (by omega)
  | locking =>
    simp only [mainStep, hmain] at htaken
    split_ifs at htaken with hlocked
    cases htaken
    exact .lock (.inl hmain) (Bool.eq_false_of_not_eq_true hlocked)
  | woken =>
    simp only [mainStep, hmain] at htaken
    split_ifs at htaken with hlocked
    cases htaken
    exact .lock (.inr hmain) (Bool.eq_false_of_not_eq_true hlocked)
  | testing =>
    simp only [mainStep, hmain] at htaken
    split_ifs at htaken with hzero
    · cases htaken
      exact .sleep hmain hzero
    · cases htaken
      exact .scan hmain hzero
  | scanning i =>
    cases hfile : s.files[i]? with
    | some file =>
      simp only [mainStep, hmain, hfile, Option.some.injEq] at htaken
      subst htaken
      by_cases hdone : isDone file = true
      · rw [if_pos hdone]
        exact .find i file hmain hfile hdone
      · rw [if_neg hdone]
        exact .pass i file hmain hfile (Bool.eq_false_of_not_eq_true hdone)
    | none =>
      simp only [mainStep, hmain, hfile, Option.some.injEq] at htaken
      subst htaken
      exact .scanned i hmain hfile
  | joining i =>
    simp only [mainStep, hmain] at htaken
    split at htaken
    · next hfile =>
      cases htaken
      exact .join i hmain hfile
    · cases htaken
  | unlocking =>
    simp only [mainStep, hmain, Option.some.injEq] at htaken
    subst htaken
    exact .unlock hmain
  | asleep | finished | failed => simp only [mainStep, hmain, reduceCtorEq] at htaken

theorem webMove_of_threadStep {maxnconn : ℤ} {s next : Web} {i : ℕ}
    (htaken : threadStep s i = some next) : WebMove maxnconn s next := by
  unfold threadStep at htaken
  split at htaken
  · next hfile =>
    cases htaken
    exact .plain i .connecting .reading s.locked hfile (.connect s.locked)
  · next hfile =>
    cases htaken
    exact .plain i .reading .locking s.locked hfile (.endOfFile s.locked)
  · next hfile =>
    split_ifs at htaken with hlocked
    cases htaken
    refine .plain i .locking .counting true hfile ?_
    rw [Bool.eq_false_of_not_eq_true hlocked]
    exact .lock
  · next hfile =>
    cases htaken
    exact .count i hfile
  · next hfile =>
    cases htaken
    exact .signal i hfile
  · next hfile =>
    cases htaken
    exact .plain i .unlocking .returned false hfile (.unlock s.locked)
  · cases htaken

theorem webMove_of_webStep {maxnconn : ℤ} {s next : Web} {event : WebEvent}
    (htaken : webStep maxnconn s event = some next) : WebMove maxnconn s next := by
  cases event with
  | main => exact webMove_of_mainStep htaken
  | wake =>
    simp only [webStep] at htaken
    split_ifs at htaken with hmain
    cases htaken
    exact .wake hmain
  | thread i => exact webMove_of_threadStep htaken

/-- Every move is a step. -/
theorem exists_webStep_of_webMove {maxnconn : ℤ} {s next : Web} (move : WebMove maxnconn s next) :
    ∃ event, webStep maxnconn s event = some next := by
  cases move with
  | enter hmain hleft => exact ⟨.main, by simp only [webStep, mainStep, hmain, if_pos hleft]⟩
  | finish hmain hleft => exact ⟨.main, by simp only [webStep, mainStep, hmain, if_neg hleft]⟩
  | fail hmain hroom hnone =>
    exact ⟨.main, by simp only [webStep, mainStep, hmain, if_pos hroom, hnone]⟩
  | fill i hmain hroom hfind =>
    exact ⟨.main, by simp only [webStep, mainStep, hmain, if_pos hroom, hfind]⟩
  | leave hmain hdone =>
    have hroom : ¬ (s.nconn < maxnconn ∧ 0 < s.nlefttoconn) := by omega
    exact ⟨.main, by simp only [webStep, mainStep, hmain, if_neg hroom]⟩
  | lock hmain hfree =>
    refine ⟨.main, ?_⟩
    rcases hmain with hmain | hmain
    · simp only [webStep, mainStep, hmain, hfree, Bool.false_eq_true, if_false]
    · simp only [webStep, mainStep, hmain, hfree, Bool.false_eq_true, if_false]
  | sleep hmain hzero => exact ⟨.main, by simp only [webStep, mainStep, hmain, if_pos hzero]⟩
  | scan hmain hsome => exact ⟨.main, by simp only [webStep, mainStep, hmain, if_neg hsome]⟩
  | find i file hmain hfile hdone =>
    exact ⟨.main, by simp only [webStep, mainStep, hmain, hfile, if_pos hdone]⟩
  | pass i file hmain hfile hdone =>
    exact ⟨.main, by simp only [webStep, mainStep, hmain, hfile, hdone, Bool.false_eq_true, if_false]⟩
  | scanned i hmain hfile => exact ⟨.main, by simp only [webStep, mainStep, hmain, hfile]⟩
  | join i hmain hfile => exact ⟨.main, by simp only [webStep, mainStep, hmain, hfile]⟩
  | unlock hmain => exact ⟨.main, by simp only [webStep, mainStep, hmain]⟩
  | wake hmain => exact ⟨.wake, by simp only [webStep, if_pos hmain]⟩
  | plain i old new locked hfile hmove =>
    refine ⟨.thread i, ?_⟩
    generalize hbefore : s.locked = before at hmove
    cases hmove with
    | connect | endOfFile => simp only [webStep, threadStep, hfile, hbefore]
    | lock => simp only [webStep, threadStep, hfile, hbefore, Bool.false_eq_true, if_false]
    | unlock => simp only [webStep, threadStep, hfile]
  | count i hfile => exact ⟨.thread i, by simp only [webStep, threadStep, hfile]⟩
  | signal i hfile => exact ⟨.thread i, by simp only [webStep, threadStep, hfile]⟩

theorem run_of_webMove {maxnconn : ℤ} {s next : Web} (move : WebMove maxnconn s next) :
    Reachable (webStep maxnconn) s next := by
  obtain ⟨event, htaken⟩ := exists_webStep_of_webMove move
  exact .tail event .refl trivial htaken

/-! ### The counters and the mutex -/

/-- The file has a thread that is not joined. -/
def FileThread.active : FileThread → ℕ
  | .unstarted | .joined => 0
  | _ => 1

/-- The file has no thread yet. -/
def FileThread.fresh : FileThread → ℕ
  | .unstarted => 1
  | _ => 0

/-- The thread has counted itself and is not joined. -/
def FileThread.counted : FileThread → ℕ
  | .signalling | .unlocking | .returned => 1
  | _ => 0

/-- The thread has counted itself and not signalled. -/
def FileThread.signals : FileThread → ℕ
  | .signalling => 1
  | _ => 0

/-- The thread is between lock and unlock. -/
def FileThread.holds : FileThread → ℕ
  | .counting | .signalling | .unlocking => 1
  | _ => 0

/-- `main` is between lock and unlock. -/
def MainPlace.holds : MainPlace → ℕ
  | .testing | .scanning _ | .joining _ | .unlocking => 1
  | _ => 0

/-- `main` waits for a thread to be done. -/
def MainPlace.waits : MainPlace → Bool
  | .locking | .testing | .asleep | .woken => true
  | _ => false

/-- What holds in every state of the client. -/
structure Consistent (maxnconn : ℤ) (nfiles : ℕ) (s : Web) : Prop where
  exclusive : total FileThread.holds s.files + s.main.holds = s.locked.toNat
  nconn_eq : s.nconn = total FileThread.active s.files
  nlefttoconn_eq : s.nlefttoconn = total FileThread.fresh s.files
  nlefttoread_eq : s.nlefttoread = total FileThread.fresh s.files + total FileThread.active s.files
  ndone_eq : s.ndone = total FileThread.counted s.files
  nconn_le : s.nconn ≤ max maxnconn 0
  length_eq : s.files.length = nfiles
  not_failed : s.main ≠ .failed
  finished : s.main = .finished → s.nlefttoread ≤ 0
  waiting : s.main.waits = true → 0 < s.nlefttoread ∧ (maxnconn ≤ s.nconn ∨ s.nlefttoconn ≤ 0)
  filling : s.main = .filling → 0 < s.nlefttoread
  asleep : s.main = .asleep → s.ndone = total FileThread.signals s.files

section Consistent

variable {maxnconn : ℤ} {nfiles : ℕ} {s next : Web}

theorem Consistent.start (maxnconn : ℤ) (nfiles : ℕ) : Consistent maxnconn nfiles (.start nfiles) where
  exclusive := by
    rw [Web.start, total_replicate]
    rfl
  nconn_eq := by
    rw [Web.start, total_replicate]
    rfl
  nlefttoconn_eq := by
    rw [Web.start, total_replicate, FileThread.fresh, Nat.mul_one]
  nlefttoread_eq := by
    rw [Web.start, total_replicate, total_replicate, FileThread.fresh, FileThread.active, Nat.mul_one,
      Nat.mul_zero, Int.natCast_zero, Int.add_zero]
  ndone_eq := by
    rw [Web.start, total_replicate]
    rfl
  nconn_le := Int.le_max_right maxnconn 0
  length_eq := List.length_replicate
  not_failed := fun h ↦ by cases h
  finished := fun h ↦ by cases h
  waiting := fun h ↦ by cases h
  filling := fun h ↦ by cases h
  asleep := fun h ↦ by cases h

/-- `main` moves on without touching the files or the counters. -/
theorem Consistent.place (h : Consistent maxnconn nfiles s) {place : MainPlace} {locked : Bool}
    (hlocked : place.holds + s.locked.toNat = s.main.holds + locked.toNat)
    (hfailed : place ≠ .failed) (hfinished : place = .finished → s.nlefttoread ≤ 0)
    (hwaiting : place.waits = true →
      0 < s.nlefttoread ∧ (maxnconn ≤ s.nconn ∨ s.nlefttoconn ≤ 0))
    (hfilling : place = .filling → 0 < s.nlefttoread)
    (hasleep : place = .asleep → s.ndone = total FileThread.signals s.files) :
    Consistent maxnconn nfiles { s with locked := locked, main := place } where
  exclusive := by
    have hexclusive := h.exclusive
    simp only
    omega
  nconn_eq := h.nconn_eq
  nlefttoconn_eq := h.nlefttoconn_eq
  nlefttoread_eq := h.nlefttoread_eq
  ndone_eq := h.ndone_eq
  nconn_le := h.nconn_le
  length_eq := h.length_eq
  not_failed := hfailed
  finished := hfinished
  waiting := hwaiting
  filling := hfilling
  asleep := hasleep

/-- While `main` holds the mutex it is taken. -/
theorem Consistent.locked_of_holds (h : Consistent maxnconn nfiles s) (hholds : s.main.holds = 1) :
    s.locked.toNat = 1 := by
  have hexclusive := h.exclusive
  have hbound := Bool.toNat_le s.locked
  omega

theorem isUnstarted_iff (file : FileThread) : isUnstarted file = true ↔ file = .unstarted := by
  cases file <;> decide

/-- The file that is found has no thread. -/
theorem unstarted_of_findIdx? {i : ℕ} (hfind : s.files.findIdx? isUnstarted = some i) :
    s.files[i]? = some .unstarted := by
  obtain ⟨hlt, hfirst, -⟩ := List.findIdx?_eq_some_iff_getElem.mp hfind
  rw [List.getElem?_eq_getElem hlt, (isUnstarted_iff _).mp hfirst]

theorem fresh_eq_zero_of_findIdx? (hnone : s.files.findIdx? isUnstarted = none) :
    total FileThread.fresh s.files = 0 := by
  refine total_eq_zero fun file hfile ↦ ?_
  have hother := List.findIdx?_eq_none_iff.mp hnone file hfile
  cases file with
  | unstarted => cases hother
  | _ => rfl

/-- A thread is started. -/
theorem Consistent.fill (h : Consistent maxnconn nfiles s) {i : ℕ} (hmain : s.main = .filling)
    (hroom : s.nconn < maxnconn) (hfile : s.files[i]? = some .unstarted) :
    Consistent maxnconn nfiles { s with
      main := .filling
      files := s.files.set i .connecting
      nconn := s.nconn + 1
      nlefttoconn := s.nlefttoconn - 1 } := by
  have hactive := total_set FileThread.active hfile .connecting
  have hfresh := total_set FileThread.fresh hfile .connecting
  have hcounted := total_set FileThread.counted hfile .connecting
  have hholds := total_set FileThread.holds hfile .connecting
  simp only [FileThread.active, FileThread.fresh, FileThread.counted, FileThread.holds]
    at hactive hfresh hcounted hholds
  have hexclusive := h.exclusive
  rw [hmain] at hexclusive
  exact
    { exclusive := by
        simp only
        omega
      nconn_eq := by
        have := h.nconn_eq
        simp only
        omega
      nlefttoconn_eq := by
        have := h.nlefttoconn_eq
        simp only
        omega
      nlefttoread_eq := by
        have := h.nlefttoread_eq
        simp only
        omega
      ndone_eq := by
        have := h.ndone_eq
        simp only
        omega
      nconn_le := by
        simp only
        omega
      length_eq := by
        rw [List.length_set]
        exact h.length_eq
      not_failed := fun h ↦ by cases h
      finished := fun h ↦ by cases h
      waiting := fun h ↦ by cases h
      filling := fun _ ↦ h.filling hmain
      asleep := fun h ↦ by cases h }

/-- A thread that has returned is joined. -/
theorem Consistent.join (h : Consistent maxnconn nfiles s) {i : ℕ} (hmain : s.main = .joining i)
    (hfile : s.files[i]? = some .returned) :
    Consistent maxnconn nfiles { s with
      files := s.files.set i .joined
      ndone := s.ndone - 1
      nconn := s.nconn - 1
      nlefttoread := s.nlefttoread - 1
      main := .scanning (i + 1) } := by
  have hactive := total_set FileThread.active hfile .joined
  have hfresh := total_set FileThread.fresh hfile .joined
  have hcounted := total_set FileThread.counted hfile .joined
  have hholds := total_set FileThread.holds hfile .joined
  simp only [FileThread.active, FileThread.fresh, FileThread.counted, FileThread.holds]
    at hactive hfresh hcounted hholds
  have hexclusive := h.exclusive
  rw [hmain] at hexclusive
  simp only [MainPlace.holds] at hexclusive
  exact
    { exclusive := by
        simp only [MainPlace.holds]
        omega
      nconn_eq := by
        have := h.nconn_eq
        simp only
        omega
      nlefttoconn_eq := by
        have := h.nlefttoconn_eq
        simp only
        omega
      nlefttoread_eq := by
        have := h.nlefttoread_eq
        simp only
        omega
      ndone_eq := by
        have := h.ndone_eq
        simp only
        omega
      nconn_le := by
        have := h.nconn_le
        simp only
        omega
      length_eq := by
        rw [List.length_set]
        exact h.length_eq
      not_failed := fun h ↦ by cases h
      finished := fun h ↦ by cases h
      waiting := fun h ↦ by cases h
      filling := fun h ↦ by cases h
      asleep := fun h ↦ by cases h }

/-- The weights of a thread that moves on by itself. -/
structure KeepsTally (old new : FileThread) : Prop where
  active_eq : new.active = old.active
  fresh_eq : new.fresh = old.fresh

/-- The thread of a file moves on: it stays active, and the counter of those that are done follows it. -/
theorem Consistent.thread (h : Consistent maxnconn nfiles s) {i : ℕ} {old new : FileThread}
    (hfile : s.files[i]? = some old) (hkeeps : KeepsTally old new) {place : MainPlace} {locked : Bool}
    {ndone : ℤ} (hplace : place = s.main ∨ s.main = .asleep ∧ place = .woken)
    (hlocked : new.holds + s.locked.toNat = old.holds + locked.toNat)
    (hdone : ndone + old.counted = s.ndone + new.counted)
    (hsignals : place = .asleep → ndone + old.signals = s.ndone + new.signals) :
    Consistent maxnconn nfiles { s with
      main := place
      files := s.files.set i new
      locked := locked
      ndone := ndone } := by
  have hactive := total_set FileThread.active hfile new
  have hfresh := total_set FileThread.fresh hfile new
  have hcounted := total_set FileThread.counted hfile new
  have hholds := total_set FileThread.holds hfile new
  have hsignalling := total_set FileThread.signals hfile new
  have hexclusive := h.exclusive
  rw [hkeeps.active_eq] at hactive
  rw [hkeeps.fresh_eq] at hfresh
  exact
    { exclusive := by
        rcases hplace with rfl | ⟨hasleep, rfl⟩
        · simp only
          omega
        · rw [hasleep] at hexclusive
          simp only [MainPlace.holds] at hexclusive ⊢
          omega
      nconn_eq := by
        have := h.nconn_eq
        simp only
        omega
      nlefttoconn_eq := by
        have := h.nlefttoconn_eq
        simp only
        omega
      nlefttoread_eq := by
        have := h.nlefttoread_eq
        simp only
        omega
      ndone_eq := by
        have := h.ndone_eq
        simp only
        omega
      nconn_le := h.nconn_le
      length_eq := by
        rw [List.length_set]
        exact h.length_eq
      not_failed := by
        rcases hplace with rfl | ⟨-, rfl⟩
        · exact h.not_failed
        · exact fun heq ↦ by cases heq
      finished := by
        rcases hplace with rfl | ⟨-, rfl⟩
        · exact h.finished
        · exact fun heq ↦ by cases heq
      waiting := by
        rcases hplace with rfl | ⟨hasleep, rfl⟩
        · exact h.waiting
        · exact fun _ ↦ h.waiting (by rw [hasleep]; rfl)
      filling := by
        rcases hplace with rfl | ⟨-, rfl⟩
        · exact h.filling
        · exact fun heq ↦ by cases heq
      asleep := by
        rcases hplace with rfl | ⟨-, rfl⟩
        · intro hasleep
          have hdone' := h.asleep hasleep
          have hsignals' := hsignals hasleep
          simp only
          omega
        · exact fun heq ↦ by cases heq }

theorem PlainMove.keepsTally {old new : FileThread} {locked locked' : Bool}
    (hmove : PlainMove old locked new locked') :
    KeepsTally old new ∧ new.counted = old.counted ∧ new.signals = old.signals := by
  cases hmove <;> exact ⟨⟨rfl, rfl⟩, rfl, rfl⟩

theorem PlainMove.active_pos {old new : FileThread} {locked locked' : Bool}
    (hmove : PlainMove old locked new locked') : 0 < old.active := by
  cases hmove <;> exact Nat.one_pos

theorem PlainMove.ne_returned {old new : FileThread} {locked locked' : Bool}
    (hmove : PlainMove old locked new locked') : old ≠ .returned := by
  cases hmove <;> decide

theorem Consistent.step (h : Consistent maxnconn nfiles s) (move : WebMove maxnconn s next) :
    Consistent maxnconn nfiles next := by
  cases move with
  | enter hmain hleft =>
    exact h.place (by rw [hmain]; rfl) (fun heq ↦ by cases heq) (fun heq ↦ by cases heq)
      (fun heq ↦ by cases heq) (fun _ ↦ hleft) fun heq ↦ by cases heq
  | finish hmain hleft =>
    exact h.place (by rw [hmain]; rfl) (fun heq ↦ by cases heq) (fun _ ↦ Int.not_lt.mp hleft)
      (fun heq ↦ by cases heq) (fun heq ↦ by cases heq) fun heq ↦ by cases heq
  | fail hmain hroom hnone =>
    have hfresh := h.nlefttoconn_eq
    rw [fresh_eq_zero_of_findIdx? hnone] at hfresh
    omega
  | fill i hmain hroom hfind => exact h.fill hmain hroom.1 (unstarted_of_findIdx? hfind)
  | leave hmain hdone =>
    exact h.place (by rw [hmain]; rfl) (fun heq ↦ by cases heq) (fun heq ↦ by cases heq)
      (fun _ ↦ ⟨h.filling hmain, hdone⟩) (fun heq ↦ by cases heq) fun heq ↦ by cases heq
  | lock hmain hfree =>
    have hwaits : s.main.waits = true := by rcases hmain with heq | heq <;> rw [heq] <;> rfl
    have hholds : s.main.holds = 0 := by rcases hmain with heq | heq <;> rw [heq] <;> rfl
    exact h.place (by rw [hholds, hfree]; rfl) (fun heq ↦ by cases heq) (fun heq ↦ by cases heq)
      (fun _ ↦ h.waiting hwaits) (fun heq ↦ by cases heq) fun heq ↦ by cases heq
  | sleep hmain hzero =>
    have hlocked := h.locked_of_holds (by rw [hmain]; rfl)
    refine h.place (by rw [hmain, hlocked]; rfl) (fun heq ↦ by cases heq) (fun heq ↦ by cases heq)
      (fun _ ↦ h.waiting (by rw [hmain]; rfl)) (fun heq ↦ by cases heq) fun _ ↦ ?_
    -- a thread that is signalling holds the mutex, and so does `main`
    have hexclusive := h.exclusive
    rw [hmain] at hexclusive
    have hle : total FileThread.signals s.files ≤ total FileThread.holds s.files :=
      total_le_total fun file _ ↦ by cases file <;> decide
    simp only [MainPlace.holds] at hexclusive
    omega
  | scan hmain hsome =>
    exact h.place (by rw [hmain]; rfl) (fun heq ↦ by cases heq) (fun heq ↦ by cases heq)
      (fun heq ↦ by cases heq) (fun heq ↦ by cases heq) fun heq ↦ by cases heq
  | find i file hmain hfile hdone =>
    exact h.place (by rw [hmain]; rfl) (fun heq ↦ by cases heq) (fun heq ↦ by cases heq)
      (fun heq ↦ by cases heq) (fun heq ↦ by cases heq) fun heq ↦ by cases heq
  | pass i file hmain hfile hdone =>
    exact h.place (by rw [hmain]; rfl) (fun heq ↦ by cases heq) (fun heq ↦ by cases heq)
      (fun heq ↦ by cases heq) (fun heq ↦ by cases heq) fun heq ↦ by cases heq
  | scanned i hmain hfile =>
    exact h.place (by rw [hmain]; rfl) (fun heq ↦ by cases heq) (fun heq ↦ by cases heq)
      (fun heq ↦ by cases heq) (fun heq ↦ by cases heq) fun heq ↦ by cases heq
  | join i hmain hfile => exact h.join hmain hfile
  | unlock hmain =>
    have hlocked := h.locked_of_holds (by rw [hmain]; rfl)
    exact h.place (by rw [hmain, hlocked]; rfl) (fun heq ↦ by cases heq) (fun heq ↦ by cases heq)
      (fun heq ↦ by cases heq) (fun heq ↦ by cases heq) fun heq ↦ by cases heq
  | wake hmain =>
    exact h.place (by rw [hmain]; rfl) (fun heq ↦ by cases heq) (fun heq ↦ by cases heq)
      (fun _ ↦ h.waiting (by rw [hmain]; rfl)) (fun heq ↦ by cases heq) fun heq ↦ by cases heq
  | plain i old new locked hfile hmove =>
    obtain ⟨hkeeps, hcounted, hsignals⟩ := hmove.keepsTally
    refine h.thread hfile hkeeps (.inl rfl) ?_ (by rw [hcounted]) fun _ ↦ by rw [hsignals]
    -- only the lock and the unlock change what the thread holds
    have hle := weight_le_total FileThread.holds (List.mem_of_getElem? hfile)
    have hexclusive := h.exclusive
    have hbound := Bool.toNat_le s.locked
    generalize s.locked = before at hmove hexclusive hbound ⊢
    cases hmove with
    | connect | endOfFile | lock => rfl
    | unlock =>
      simp only [FileThread.holds, Bool.toNat_false] at hle ⊢
      omega
  | count i hfile =>
    have hkeeps : KeepsTally .counting .signalling := ⟨rfl, rfl⟩
    refine h.thread hfile hkeeps (.inl rfl) rfl ?_ fun _ ↦ ?_
    · simp only [FileThread.counted]
      omega
    · simp only [FileThread.signals]
      omega
  | signal i hfile =>
    have hkeeps : KeepsTally .signalling .unlocking := ⟨rfl, rfl⟩
    refine h.thread hfile hkeeps ?_ rfl rfl fun hasleep ↦ ?_
    · cases hmain : s.main with
      | asleep => exact .inr ⟨rfl, rfl⟩
      | _ => exact .inl rfl
    · cases hmain : s.main with
      | asleep =>
        rw [hmain] at hasleep
        cases hasleep
      | _ =>
        rw [hmain] at hasleep
        cases hasleep

theorem consistent_of_run (hrun : Reachable (webStep maxnconn) (.start nfiles) s) :
    Consistent maxnconn nfiles s :=
  hrun.invariant (.start maxnconn nfiles) fun _ _ _ h _ htaken ↦ h.step (webMove_of_webStep htaken)

end Consistent

/-- There are never more threads than `maxnconn`, a file to be read is always found, and when `main`
ends it has joined the thread of every file. -/
theorem connections_bounded {maxnconn : ℤ} {nfiles : ℕ} {s : Web}
    (hrun : Reachable (webStep maxnconn) (.start nfiles) s) :
    (total FileThread.active s.files : ℤ) ≤ max maxnconn 0 ∧ s.main ≠ .failed ∧
      (s.main = .finished → ∀ file ∈ s.files, file = .joined) := by
  have h := consistent_of_run hrun
  refine ⟨h.nconn_eq ▸ h.nconn_le, h.not_failed, fun hfinished file hfile ↦ ?_⟩
  have hleft := h.finished hfinished
  have hread := h.nlefttoread_eq
  have hfresh := weight_le_total FileThread.fresh hfile
  have hactive := weight_le_total FileThread.active hfile
  cases file with
  | joined => rfl
  | unstarted =>
    simp only [FileThread.fresh] at hfresh
    omega
  | _ =>
    simp only [FileThread.active] at hactive
    omega

/-- The state after a list of events, with two files and two connections. -/
def after (events : List WebEvent) : Web :=
  (execute (webStep 2) anyEvent (.start 2) events).getD (.start 2)

theorem run_after {events : List WebEvent}
    (hsome : (execute (webStep 2) anyEvent (.start 2) events).isSome = true) :
    Reachable (webStep 2) (.start 2) (after events) := by
  obtain ⟨s, hs⟩ := Option.isSome_iff_exists.mp hsome
  rw [after, hs]
  exact run_of_execute hs

/-- Two files are read at once, and `main` joins both threads in one loop. -/
def bothRead : List WebEvent :=
  List.replicate 4 .main ++ List.replicate 6 (.thread 1) ++ List.replicate 6 (.thread 0) ++
    List.replicate 9 .main

theorem connections_bounded_bothRead : (after bothRead).files = List.replicate 2 .joined :=
  List.eq_replicate_iff.mpr ⟨rfl, (connections_bounded (run_after (by decide))).2.2 (by decide)⟩

/-! ### A limit of no connections -/

variable {maxnconn : ℤ} {nfiles : ℕ} {s : Web}

/-- Without a connection allowed no file is ever touched. -/
theorem files_eq_of_nonpos (hmax : maxnconn ≤ 0)
    (hrun : Reachable (webStep maxnconn) (.start nfiles) s) :
    s.files = List.replicate nfiles .unstarted := by
  induction hrun with
  | refl => rfl
  | @tail before _ event hbefore _ htaken hfiles =>
    have h := consistent_of_run hbefore
    have hunstarted (i : ℕ) (file : FileThread) (hfile : before.files[i]? = some file) :
        file = .unstarted := by
      rw [hfiles] at hfile
      exact List.eq_of_mem_replicate (List.mem_of_getElem? hfile)
    cases webMove_of_webStep htaken with
    | fill i hmain hroom hfind =>
      have hnconn := h.nconn_eq
      omega
    | join i hmain hfile => cases hunstarted i _ hfile
    | plain i old new locked hfile hmove =>
      obtain rfl := hunstarted i old hfile
      cases hmove
    | count i hfile => cases hunstarted i _ hfile
    | signal i hfile => cases hunstarted i _ hfile
    | _ => exact hfiles

theorem not_finishes_of_nonpos (hmax : maxnconn ≤ 0) (hfiles : 0 < nfiles) :
    ¬ Finishes maxnconn nfiles := by
  intro hfinishes
  obtain ⟨finish, hrun, hfinished⟩ := hfinishes _ .refl
  have hjoined := (connections_bounded hrun).2.2 hfinished
  rw [files_eq_of_nonpos hmax hrun] at hjoined
  cases hjoined .unstarted (List.mem_replicate.mpr ⟨hfiles.ne', rfl⟩)

/-! ### A thread that waits for the one that waits for it -/

/-- `main` joins a thread that has marked its file and waits for the mutex. -/
def Jammed (i : ℕ) (s : Web) : Prop :=
  s.main = .joining i ∧ s.files[i]? = some .locking

/-- No step gets the two threads apart. -/
theorem Jammed.step {i : ℕ} {next : Web} (hjammed : Jammed i s) (h : Consistent maxnconn nfiles s)
    (move : WebMove maxnconn s next) : Jammed i next := by
  obtain ⟨hmain, hfile⟩ := hjammed
  have hlocked := h.locked_of_holds (by rw [hmain]; rfl)
  have hother {j : ℕ} {file new : FileThread} (hj : s.files[j]? = some file) (hne : file ≠ .locking) :
      (s.files.set j new)[i]? = some .locking := by
    rw [List.getElem?_set_ne, hfile]
    rintro rfl
    exact hne (Option.some.inj (hj.symm.trans hfile))
  cases move with
  | join j hjoining hj =>
    obtain rfl : i = j := MainPlace.joining.inj (hmain.symm.trans hjoining)
    cases hfile.symm.trans hj
  | lock hwaiting _ =>
    rw [hmain] at hwaiting
    rcases hwaiting with hwaiting | hwaiting
    · cases hwaiting
    · cases hwaiting
  | plain j old new locked hj hmove =>
    refine ⟨hmain, hother hj ?_⟩
    rintro rfl
    -- the thread that waits for the mutex cannot lock it
    generalize s.locked = before at hmove hlocked
    cases hmove
    cases hlocked
  | count j hj => exact ⟨hmain, hother hj (by decide)⟩
  | signal j hj =>
    refine ⟨?_, hother hj (by decide)⟩
    rw [hmain]
    rfl
  | enter hplace _ | finish hplace _ | leave hplace _ => cases hmain.symm.trans hplace
  | sleep hplace _ | scan hplace _ => cases hmain.symm.trans hplace
  | unlock hplace | wake hplace => cases hmain.symm.trans hplace
  | fail hplace _ _ | scanned _ hplace _ => cases hmain.symm.trans hplace
  | fill _ hplace _ _ | find _ _ hplace _ _ | pass _ _ hplace _ _ => cases hmain.symm.trans hplace

theorem jammed_of_run {i : ℕ} {later : Web} (hrun : Reachable (webStep maxnconn) (.start nfiles) s)
    (hjammed : Jammed i s) (hlater : Reachable (webStep maxnconn) s later) : Jammed i later := by
  induction hlater with
  | refl => exact hjammed
  | tail event hmiddle _ htaken ih =>
    exact ih.step (consistent_of_run (hrun.trans hmiddle)) (webMove_of_webStep htaken)

/-- The file that `main` looks for is there. -/
theorem Consistent.exists_unstarted (h : Consistent maxnconn nfiles s) (hleft : 0 < s.nlefttoconn) :
    ∃ i, s.files.findIdx? isUnstarted = some i := by
  cases hfind : s.files.findIdx? isUnstarted with
  | some i => exact ⟨i, rfl⟩
  | none =>
    have hfresh := h.nlefttoconn_eq
    rw [fresh_eq_zero_of_findIdx? hfind] at hfresh
    omega

/-- `main` starts threads until it may start no more, and leaves those alone that are started. -/
theorem exists_filled (hmain : s.main = .filling) (h : Consistent maxnconn nfiles s) :
    ∃ filled, Reachable (webStep maxnconn) s filled ∧ filled.main = .locking ∧
      filled.locked = s.locked ∧ filled.ndone = s.ndone ∧
      ∀ (i : ℕ) (file : FileThread), s.files[i]? = some file → file ≠ .unstarted →
        filled.files[i]? = some file := by
  induction hsize : total FileThread.fresh s.files using Nat.strongRecOn generalizing s with
  | _ size ih =>
    by_cases hroom : s.nconn < maxnconn ∧ 0 < s.nlefttoconn
    · obtain ⟨j, hfind⟩ := h.exists_unstarted hroom.2
      have hfile := unstarted_of_findIdx? hfind
      have hless := total_set FileThread.fresh hfile .connecting
      simp only [FileThread.fresh] at hless
      obtain ⟨filled, hrun, hplace, hlocked, hndone, hkept⟩ :=
        ih (total FileThread.fresh (s.files.set j .connecting)) (by omega) rfl
          (h.fill hmain hroom.1 hfile) rfl
      refine ⟨filled, (run_of_webMove (.fill j hmain hroom hfind)).trans hrun, hplace, hlocked, hndone,
        fun i file hget hne ↦ hkept i file ?_ hne⟩
      rw [List.getElem?_set_ne, hget]
      rintro rfl
      exact hne (Option.some.inj (hget.symm.trans hfile))
    · exact ⟨_, run_of_webMove (.leave hmain (by omega)), rfl, rfl, rfl, fun _ _ hget _ ↦ hget⟩

/-- The client with its first two threads started and at some places, and the others not. -/
def twoStarted (left : ℕ) (first second : FileThread) (locked : Bool) (ndone : ℤ) : Web :=
  { main := .filling
    files := first :: second :: List.replicate left .unstarted
    locked := locked
    nconn := 0 + 1 + 1
    nlefttoconn := (left + 2 : ℕ) - 1 - 1
    nlefttoread := (left + 2 : ℕ)
    ndone := ndone }

theorem run_twoStarted (hmax : 2 ≤ maxnconn) (left : ℕ) :
    Reachable (webStep maxnconn) (.start (left + 2)) (twoStarted left .connecting .connecting false 0) := by
  have henter : WebMove maxnconn (.start (left + 2)) { Web.start (left + 2) with main := .filling } :=
    .enter rfl (by simp only [Web.start]; omega)
  have hfirst : WebMove maxnconn { Web.start (left + 2) with main := .filling }
      { Web.start (left + 2) with
        main := .filling
        files := .connecting :: .unstarted :: List.replicate left .unstarted
        nconn := 0 + 1
        nlefttoconn := (left + 2 : ℕ) - 1 } :=
    .fill 0 rfl (by simp only [Web.start]; omega) rfl
  refine (run_of_webMove henter).trans ((run_of_webMove hfirst).trans (run_of_webMove ?_))
  exact .fill 1 rfl (by simp only; omega) rfl

/-- The first thread comes to its end, and the second marks its file as done. -/
theorem run_oneReturned (left : ℕ) :
    Reachable (webStep maxnconn) (twoStarted left .connecting .connecting false 0)
      (twoStarted left .returned .locking false (0 + 1)) := by
  have hconnect : Reachable (webStep maxnconn) (twoStarted left .connecting .connecting false 0)
      (twoStarted left .reading .connecting false 0) :=
    run_of_webMove (.plain 0 .connecting .reading false rfl (.connect false))
  have hread : Reachable (webStep maxnconn) (twoStarted left .reading .connecting false 0)
      (twoStarted left .locking .connecting false 0) :=
    run_of_webMove (.plain 0 .reading .locking false rfl (.endOfFile false))
  have hlock : Reachable (webStep maxnconn) (twoStarted left .locking .connecting false 0)
      (twoStarted left .counting .connecting true 0) :=
    run_of_webMove (.plain 0 .locking .counting true rfl .lock)
  have hcount : Reachable (webStep maxnconn) (twoStarted left .counting .connecting true 0)
      (twoStarted left .signalling .connecting true (0 + 1)) := run_of_webMove (.count 0 rfl)
  have hsignal : Reachable (webStep maxnconn) (twoStarted left .signalling .connecting true (0 + 1))
      (twoStarted left .unlocking .connecting true (0 + 1)) := run_of_webMove (.signal 0 rfl)
  have hunlock : Reachable (webStep maxnconn) (twoStarted left .unlocking .connecting true (0 + 1))
      (twoStarted left .returned .connecting false (0 + 1)) :=
    run_of_webMove (.plain 0 .unlocking .returned false rfl (.unlock true))
  have hconnect' : Reachable (webStep maxnconn) (twoStarted left .returned .connecting false (0 + 1))
      (twoStarted left .returned .reading false (0 + 1)) :=
    run_of_webMove (.plain 1 .connecting .reading false rfl (.connect false))
  have hread' : Reachable (webStep maxnconn) (twoStarted left .returned .reading false (0 + 1))
      (twoStarted left .returned .locking false (0 + 1)) :=
    run_of_webMove (.plain 1 .reading .locking false rfl (.endOfFile false))
  exact hconnect.trans (hread.trans (hlock.trans (hcount.trans (hsignal.trans (hunlock.trans
    (hconnect'.trans hread'))))))

/-- `main` locks the mutex, finds the count, joins the first thread and goes on to the second. -/
theorem exists_jammed_of_locking (hmain : s.main = .locking) (hfree : s.locked = false)
    (hndone : s.ndone ≠ 0) (hfirst : s.files[0]? = some .returned)
    (hsecond : s.files[1]? = some .locking) :
    ∃ jammed, Reachable (webStep maxnconn) s jammed ∧ Jammed 1 jammed := by
  have hlock : WebMove maxnconn s { s with locked := true, main := .testing } :=
    .lock (.inl hmain) hfree
  have hscan : WebMove maxnconn { s with locked := true, main := .testing }
      { s with locked := true, main := .scanning 0 } := .scan rfl hndone
  have hfind : WebMove maxnconn { s with locked := true, main := .scanning 0 }
      { s with locked := true, main := .joining 0 } := .find 0 .returned rfl hfirst rfl
  have hjoin : WebMove maxnconn { s with locked := true, main := .joining 0 } { s with
      files := s.files.set 0 .joined
      locked := true
      ndone := s.ndone - 1
      nconn := s.nconn - 1
      nlefttoread := s.nlefttoread - 1
      main := .scanning 1 } := .join 0 rfl hfirst
  have hother : (s.files.set 0 .joined)[1]? = some .locking := by
    rw [List.getElem?_set_ne (by decide), hsecond]
  refine ⟨_, (run_of_webMove hlock).trans ((run_of_webMove hscan).trans ((run_of_webMove hfind).trans
    ((run_of_webMove hjoin).trans (run_of_webMove (.find 1 .locking rfl hother rfl))))), rfl, hother⟩

theorem not_finishes_of_two (hmax : 2 ≤ maxnconn) (hfiles : 2 ≤ nfiles) : ¬ Finishes maxnconn nfiles := by
  intro hfinishes
  obtain ⟨left, rfl⟩ : ∃ left, nfiles = left + 2 := ⟨nfiles - 2, by omega⟩
  have hstarted := (run_twoStarted hmax left).trans (run_oneReturned left)
  obtain ⟨filled, hrun, hmain, hlocked, hndone, hkept⟩ :=
    exists_filled rfl (consistent_of_run hstarted)
  obtain ⟨jammed, hjam, hjammed⟩ := exists_jammed_of_locking hmain hlocked
    (by rw [hndone]; simp only [twoStarted]; omega) (hkept 0 .returned rfl (by decide))
    (hkept 1 .locking rfl (by decide))
  have hreached := (hstarted.trans hrun).trans hjam
  obtain ⟨finish, hlater, hfinished⟩ := hfinishes jammed hreached
  have hstill := (jammed_of_run hreached hjammed hlater).1
  cases hfinished.symm.trans hstill

/-! ### One thread at a time -/

/-- The place of the files that `main` has come to. -/
def MainPlace.scans : MainPlace → Option ℕ
  | .scanning i | .joining i => some i
  | _ => none

/-- With one thread at a time, `main` looks through the files only when that thread has returned, and
has not passed it. -/
structure Scanned (s : Web) : Prop where
  returned : ∀ i ∈ s.main.scans, ∀ (j : ℕ) (file : FileThread), s.files[j]? = some file →
    0 < file.active → file = .returned ∧ i ≤ j
  joined : s.main = .unlocking → total FileThread.active s.files = 0
  joining : ∀ i, s.main = .joining i → ∃ file, s.files[i]? = some file ∧ 0 < file.active

theorem active_of_isDone {file : FileThread} (hdone : isDone file = true) : 0 < file.active := by
  cases file with
  | unstarted | joined => cases hdone
  | _ => exact Nat.one_pos

/-- A state in which `main` does not look through the files. -/
theorem scanned_of_scans_eq_none (hscans : s.main.scans = none) (hplace : s.main ≠ .unlocking) :
    Scanned s where
  returned := by
    intro i hi
    rw [hscans] at hi
    cases hi
  joined := fun heq ↦ absurd heq hplace
  joining := by
    intro i hi
    rw [hi] at hscans
    cases hscans

/-- As long as a thread has not returned `main` does not look through the files. -/
theorem Scanned.not_scanning (hscanned : Scanned s) {i : ℕ} {file : FileThread}
    (hfile : s.files[i]? = some file) (hactive : 0 < file.active) (hreturned : file ≠ .returned) :
    s.main.scans = none ∧ s.main ≠ .unlocking := by
  constructor
  · cases hscans : s.main.scans with
    | none => rfl
    | some j => exact absurd (hscanned.returned j hscans i file hfile hactive).1 hreturned
  · intro hplace
    have hle := weight_le_total FileThread.active (List.mem_of_getElem? hfile)
    rw [hscanned.joined hplace] at hle
    omega

/-- Where a thread has counted itself and `main` holds the mutex, the only thread has returned. -/
theorem returned_of_counted (h : Consistent maxnconn nfiles s)
    (hone : total FileThread.active s.files ≤ 1) (hmain : s.main.holds = 1) (hsome : s.ndone ≠ 0)
    {j : ℕ} {file : FileThread} (hfile : s.files[j]? = some file) (hactive : 0 < file.active) :
    file = .returned := by
  have hcounted : 0 < total FileThread.counted s.files := by
    have := h.ndone_eq
    omega
  obtain ⟨i, counted, hi, hpos⟩ := exists_of_total_pos hcounted
  have hexclusive := h.exclusive
  have hbound := Bool.toNat_le s.locked
  have hholds := weight_le_total FileThread.holds (List.mem_of_getElem? hi)
  have hsame : i = j := by
    by_contra hne
    have htwo := weight_add_weight_le_total FileThread.active hi hfile hne
    cases counted with
    | signalling | unlocking | returned =>
      simp only [FileThread.active] at htwo hactive
      omega
    | _ => cases hpos
  subst hsame
  obtain rfl := Option.some.inj (hi.symm.trans hfile)
  cases counted with
  | returned => rfl
  | signalling | unlocking =>
    simp only [FileThread.holds] at hholds
    omega
  | _ => cases hpos

/-- Past the last file there is no thread left. -/
theorem Scanned.none_active (hscanned : Scanned s) {i : ℕ} (hmain : s.main = .scanning i)
    (hfile : s.files[i]? = none) : total FileThread.active s.files = 0 := by
  by_contra hne
  obtain ⟨j, file, hj, hactive⟩ := exists_of_total_pos (Nat.pos_of_ne_zero hne)
  have hle := (hscanned.returned i (by rw [hmain]; rfl) j file hj hactive).2
  have hlt := (List.getElem?_eq_some_iff.mp hj).1
  have hge := List.getElem?_eq_none_iff.mp hfile
  omega

theorem Scanned.step {next : Web} (hscanned : Scanned s) (h : Consistent maxnconn nfiles s)
    (hone : total FileThread.active s.files ≤ 1) (move : WebMove maxnconn s next) : Scanned next := by
  cases move with
  | enter | finish | fail | fill | leave | lock | sleep | unlock | wake =>
    exact scanned_of_scans_eq_none rfl fun heq ↦ by cases heq
  | scan hmain hsome =>
    refine ⟨?_, (fun heq ↦ by cases heq), fun i heq ↦ by cases heq⟩
    rintro i ⟨rfl⟩ j file hfile hactive
    exact ⟨returned_of_counted h hone (by rw [hmain]; rfl) hsome hfile hactive, Nat.zero_le j⟩
  | find i file hmain hfile hdone =>
    refine ⟨?_, (fun heq ↦ by cases heq), ?_⟩
    · rintro _ ⟨rfl⟩
      exact hscanned.returned i (by rw [hmain]; rfl)
    · rintro _ ⟨rfl⟩
      exact ⟨file, hfile, active_of_isDone hdone⟩
  | pass i file hmain hfile hdone =>
    refine ⟨?_, (fun heq ↦ by cases heq), fun i heq ↦ by cases heq⟩
    rintro _ ⟨rfl⟩ j other hother hactive
    obtain ⟨rfl, hle⟩ := hscanned.returned i (by rw [hmain]; rfl) j other hother hactive
    refine ⟨rfl, Nat.lt_of_le_of_ne hle ?_⟩
    rintro rfl
    obtain rfl := Option.some.inj (hfile.symm.trans hother)
    cases hdone
  | scanned i hmain hfile =>
    refine ⟨(fun i hi ↦ by cases hi), fun _ ↦ ?_, fun i heq ↦ by cases heq⟩
    exact hscanned.none_active hmain hfile
  | join i hmain hfile =>
    refine ⟨?_, (fun heq ↦ by cases heq), fun i heq ↦ by cases heq⟩
    rintro _ ⟨rfl⟩ j file hj hactive
    rcases getElem?_set_cases hj with ⟨hne, hold⟩ | ⟨-, rfl⟩
    · have htwo := weight_add_weight_le_total FileThread.active hold hfile hne
      have hjoined : FileThread.returned.active = 1 := rfl
      omega
    · cases hactive
  | plain i old new locked hfile hmove =>
    obtain ⟨hscans, hplace⟩ := hscanned.not_scanning hfile hmove.active_pos hmove.ne_returned
    exact scanned_of_scans_eq_none hscans hplace
  | count i hfile =>
    obtain ⟨hscans, hplace⟩ := hscanned.not_scanning hfile (by decide) (by decide)
    exact scanned_of_scans_eq_none hscans hplace
  | signal i hfile =>
    obtain ⟨hscans, hplace⟩ := hscanned.not_scanning hfile (by decide) (by decide)
    refine scanned_of_scans_eq_none ?_ ?_
    · cases hmain : s.main with
      | scanning i | joining i =>
        rw [hmain] at hscans
        cases hscans
      | _ => rfl
    · cases hmain : s.main with
      | unlocking => exact absurd hmain hplace
      | _ => exact fun heq ↦ by cases heq

/-- What the thread of a file has left to do, and `main` about it. -/
def FileThread.work : FileThread → ℕ
  | .unstarted => 9
  | .connecting => 8
  | .reading => 7
  | .locking => 6
  | .counting => 5
  | .signalling => 4
  | .unlocking => 3
  | .returned => 2
  | .joined => 0

/-- What `main` has left to do before it starts, joins or ends. With a thread to be joined the loop over
the files comes after the wait for it, and else before the next round of the outer loop. -/
def MainPlace.work (nfiles active : ℕ) : MainPlace → ℕ
  | .top => 2 * nfiles + 28
  | .filling => 2 * nfiles + 27
  | .locking => 2 * nfiles + 26
  | .woken => 2 * nfiles + 25
  | .testing => 2 * nfiles + 24
  | .asleep => 2 * nfiles + 23
  | .scanning i => if active = 0 then 2 * nfiles + 30 + 2 * (nfiles - i) else 2 * (nfiles - i) + 3
  | .joining i => 2 * (nfiles - i) + 2
  | .unlocking => 2 * nfiles + 29
  | .finished | .failed => 0

/-- What is left to do. -/
def work (nfiles : ℕ) (s : Web) : ℕ :=
  (2 * nfiles + 32) * total FileThread.work s.files +
    s.main.work nfiles (total FileThread.active s.files)

/-- A step that does a part of the work. -/
def Advances (maxnconn : ℤ) (nfiles : ℕ) (s : Web) : Prop :=
  ∃ next, WebMove maxnconn s next ∧ work nfiles next < work nfiles s

/-- A thread that moves on does a part of the work, whatever `main` does with it. -/
theorem work_lt_of_file {next : Web} {i : ℕ} {old new : FileThread}
    (hfile : s.files[i]? = some old) (hfiles : next.files = s.files.set i new)
    (hless : new.work < old.work)
    (hmain : next.main.work nfiles (total FileThread.active next.files) <
      s.main.work nfiles (total FileThread.active s.files) + (2 * nfiles + 32)) :
    work nfiles next < work nfiles s := by
  have htotal := total_set FileThread.work hfile new
  rw [← hfiles] at htotal
  have hmul : (2 * nfiles + 32) * (total FileThread.work next.files + 1) ≤
      (2 * nfiles + 32) * total FileThread.work s.files := Nat.mul_le_mul_left _ (by omega)
  rw [Nat.mul_succ] at hmul
  unfold work
  omega

theorem work_lt_of_thread {i : ℕ} {old : FileThread} {locked : Bool} {ndone : ℤ}
    (hfile : s.files[i]? = some old) (new : FileThread) (hactive : new.active = old.active)
    (hless : new.work < old.work)
    {place : MainPlace} (hplace : place = s.main ∨ s.main = .asleep ∧ place = .woken) :
    work nfiles { s with
      main := place
      files := s.files.set i new
      locked := locked
      ndone := ndone } < work nfiles s := by
  refine work_lt_of_file hfile rfl hless ?_
  have htotal := total_set FileThread.active hfile new
  have hsame : total FileThread.active (s.files.set i new) = total FileThread.active s.files := by omega
  rw [hsame]
  rcases hplace with rfl | ⟨hasleep, rfl⟩
  · exact Nat.lt_add_of_pos_right (Nat.succ_pos _)
  · rw [hasleep]
    simp only [MainPlace.work]
    omega

/-- `main` moves on without touching a file. -/
theorem advances_of_place {place : MainPlace} {locked : Bool}
    (move : WebMove maxnconn s { s with locked := locked, main := place })
    (hless : place.work nfiles (total FileThread.active s.files) <
      s.main.work nfiles (total FileThread.active s.files)) : Advances maxnconn nfiles s :=
  ⟨_, move, Nat.add_lt_add_left hless _⟩

theorem wakened_cases (place : MainPlace) :
    place.wakened = place ∨ place = .asleep ∧ place.wakened = .woken := by
  cases place with
  | asleep => exact .inr ⟨rfl, rfl⟩
  | _ => exact .inl rfl

/-- A thread that holds the mutex can move. -/
theorem advances_of_holds {i : ℕ} {file : FileThread} (hfile : s.files[i]? = some file)
    (hholds : 0 < file.holds) : Advances maxnconn nfiles s := by
  cases file with
  | counting =>
    exact ⟨_, .count i hfile, work_lt_of_thread hfile .signalling rfl (by decide) (.inl rfl)⟩
  | signalling =>
    exact ⟨_, .signal i hfile,
      work_lt_of_thread hfile .unlocking rfl (by decide) (wakened_cases s.main)⟩
  | unlocking =>
    exact ⟨_, .plain i _ _ false hfile (.unlock s.locked),
      work_lt_of_thread hfile .returned rfl (by decide) (.inl rfl)⟩
  | _ => cases hholds

/-- A thread that has not returned can move while the mutex is free. -/
theorem advances_of_free {i : ℕ} {file : FileThread} (hfile : s.files[i]? = some file)
    (hfree : s.locked = false) (hactive : 0 < file.active) (hreturned : file ≠ .returned) :
    Advances maxnconn nfiles s := by
  cases file with
  | unstarted | joined => cases hactive
  | returned => exact absurd rfl hreturned
  | connecting =>
    exact ⟨_, .plain i _ _ s.locked hfile (.connect s.locked),
      work_lt_of_thread hfile .reading rfl (by decide) (.inl rfl)⟩
  | reading =>
    exact ⟨_, .plain i _ _ s.locked hfile (.endOfFile s.locked),
      work_lt_of_thread hfile .locking rfl (by decide) (.inl rfl)⟩
  | locking =>
    refine ⟨_, .plain i .locking .counting true hfile ?_,
      work_lt_of_thread hfile .counting rfl (by decide) (.inl rfl)⟩
    rw [hfree]
    exact .lock
  | counting | signalling | unlocking => exact advances_of_holds hfile (by decide)

/-- Where `main` does not hold the mutex, the one that does can move. -/
theorem advances_of_locked (h : Consistent maxnconn nfiles s) (hmain : s.main.holds = 0)
    (hlocked : s.locked = true) : Advances maxnconn nfiles s := by
  have hexclusive := h.exclusive
  rw [hmain, hlocked] at hexclusive
  have hpos : 0 < total FileThread.holds s.files := by
    simp only [Bool.toNat_true] at hexclusive
    omega
  obtain ⟨i, file, hfile, hholds⟩ := exists_of_total_pos hpos
  exact advances_of_holds hfile hholds

/-- While `main` sleeps a thread can move: there is one, and it has not returned. -/
theorem advances_of_asleep (h : Consistent maxnconn nfiles s) (hmax : 1 ≤ maxnconn ∨ nfiles = 0)
    (hmain : s.main = .asleep) : Advances maxnconn nfiles s := by
  cases hlocked : s.locked with
  | true => exact advances_of_locked h (by rw [hmain]; rfl) hlocked
  | false =>
    obtain ⟨hleft, hfilled⟩ := h.waiting (by rw [hmain]; rfl)
    have hpos : 0 < total FileThread.active s.files := by
      have hnconn := h.nconn_eq
      have hread := h.nlefttoread_eq
      have hconn := h.nlefttoconn_eq
      have hlength := h.length_eq
      have hactive := total_le_length (fun file ↦ by cases file <;> decide :
        ∀ file : FileThread, file.active ≤ 1) s.files
      have hfresh := total_le_length (fun file ↦ by cases file <;> decide :
        ∀ file : FileThread, file.fresh ≤ 1) s.files
      omega
    obtain ⟨i, file, hfile, hactive⟩ := exists_of_total_pos hpos
    refine advances_of_free hfile hlocked hactive ?_
    rintro rfl
    -- a thread that has returned has been counted, and then `main` has been woken
    have hcounted := weight_le_total FileThread.counted (List.mem_of_getElem? hfile)
    have hndone := h.ndone_eq
    have hsignals := h.asleep hmain
    have hle : total FileThread.signals s.files ≤ total FileThread.holds s.files :=
      total_le_total fun file _ ↦ by cases file <;> decide
    have hexclusive := h.exclusive
    rw [hlocked] at hexclusive
    simp only [FileThread.counted, Bool.toNat_false] at hcounted hexclusive
    omega

/-- `main` can lock the mutex, or the one that holds it can move. -/
theorem advances_of_waiting (h : Consistent maxnconn nfiles s)
    (hmain : s.main = .locking ∨ s.main = .woken) : Advances maxnconn nfiles s := by
  cases hlocked : s.locked with
  | true =>
    refine advances_of_locked h ?_ hlocked
    rcases hmain with heq | heq <;> rw [heq] <;> rfl
  | false =>
    refine advances_of_place (.lock hmain hlocked) ?_
    rcases hmain with heq | heq <;> rw [heq] <;> simp only [MainPlace.work] <;> omega

/-- The thread that `main` joins has returned. -/
theorem advances_of_joining (hscanned : Scanned s) (hone : total FileThread.active s.files ≤ 1)
    {i : ℕ} (hmain : s.main = .joining i) : Advances maxnconn nfiles s := by
  obtain ⟨file, hfile, hactive⟩ := hscanned.joining i hmain
  obtain ⟨rfl, -⟩ := hscanned.returned i (by rw [hmain]; rfl) i file hfile hactive
  refine ⟨_, .join i hmain hfile, work_lt_of_file hfile rfl (by decide) ?_⟩
  have hset := total_set FileThread.active hfile .joined
  have hnone : total FileThread.active (s.files.set i .joined) = 0 := by
    have hreturned : FileThread.returned.active = 1 := rfl
    have hjoined : FileThread.joined.active = 0 := rfl
    omega
  rw [hnone, hmain]
  simp only [MainPlace.work, if_true]
  omega

/-- With one thread at a time a step can be taken in every state before the end. -/
theorem advances (h : Consistent maxnconn nfiles s) (hscanned : Scanned s)
    (hone : total FileThread.active s.files ≤ 1) (hmax : 1 ≤ maxnconn ∨ nfiles = 0)
    (hend : s.main ≠ .finished) :
    Advances maxnconn nfiles s := by
  cases hmain : s.main with
  | top =>
    by_cases hleft : 0 < s.nlefttoread
    · refine advances_of_place (.enter hmain hleft) ?_
      rw [hmain]
      simp only [MainPlace.work]
      omega
    · refine advances_of_place (.finish hmain hleft) ?_
      rw [hmain]
      simp only [MainPlace.work]
      omega
  | filling =>
    by_cases hroom : s.nconn < maxnconn ∧ 0 < s.nlefttoconn
    · obtain ⟨i, hfind⟩ := h.exists_unstarted hroom.2
      refine ⟨_, .fill i hmain hroom hfind,
        work_lt_of_file (unstarted_of_findIdx? hfind) rfl (by decide) ?_⟩
      rw [hmain]
      simp only [MainPlace.work]
      omega
    · refine advances_of_place (.leave hmain (by omega)) ?_
      rw [hmain]
      simp only [MainPlace.work]
      omega
  | locking => exact advances_of_waiting h (.inl hmain)
  | woken => exact advances_of_waiting h (.inr hmain)
  | testing =>
    by_cases hzero : s.ndone = 0
    · refine advances_of_place (.sleep hmain hzero) ?_
      rw [hmain]
      simp only [MainPlace.work]
      omega
    · refine advances_of_place (.scan hmain hzero) ?_
      have hle : total FileThread.counted s.files ≤ total FileThread.active s.files :=
        total_le_total fun file _ ↦ by cases file <;> decide
      have hndone := h.ndone_eq
      have hsome : total FileThread.active s.files ≠ 0 := by omega
      rw [hmain]
      simp only [MainPlace.work, if_neg hsome]
      omega
  | asleep => exact advances_of_asleep h hmax hmain
  | scanning i =>
    cases hfile : s.files[i]? with
    | none =>
      refine advances_of_place (.scanned i hmain hfile) ?_
      rw [hmain]
      simp only [MainPlace.work, if_pos (hscanned.none_active hmain hfile)]
      omega
    | some file =>
      have hlt : i < nfiles := h.length_eq ▸ (List.getElem?_eq_some_iff.mp hfile).1
      by_cases hdone : isDone file = true
      · refine advances_of_place (.find i file hmain hfile hdone) ?_
        have hle := weight_le_total FileThread.active (List.mem_of_getElem? hfile)
        have hactive := active_of_isDone hdone
        have hsome : total FileThread.active s.files ≠ 0 := by omega
        rw [hmain]
        simp only [MainPlace.work, if_neg hsome]
        omega
      · refine advances_of_place (.pass i file hmain hfile (Bool.eq_false_of_not_eq_true hdone)) ?_
        rw [hmain]
        simp only [MainPlace.work]
        split_ifs
        · omega
        · omega
  | joining i => exact advances_of_joining hscanned hone hmain
  | unlocking =>
    refine advances_of_place (.unlock hmain) ?_
    rw [hmain]
    simp only [MainPlace.work]
    omega
  | finished => exact absurd hmain hend
  | failed => exact absurd hmain h.not_failed

/-- With one connection allowed, or one file, there is one thread at a time. -/
theorem active_le_one (h : Consistent maxnconn nfiles s) (hsingle : maxnconn = 1 ∨ nfiles ≤ 1) :
    total FileThread.active s.files ≤ 1 := by
  rcases hsingle with rfl | hone
  · have hnconn := h.nconn_eq
    have hle := h.nconn_le
    omega
  · refine Nat.le_trans (total_le_length (fun file ↦ by cases file <;> decide) s.files) ?_
    rw [h.length_eq]
    exact hone

theorem finishes_of_single (hsingle : maxnconn = 1 ∨ nfiles ≤ 1) (hmax : 1 ≤ maxnconn ∨ nfiles = 0) :
    Finishes maxnconn nfiles := by
  have hstep : ∀ state event next, Consistent maxnconn nfiles state ∧ Scanned state →
      webStep maxnconn state event = some next → Consistent maxnconn nfiles next ∧ Scanned next := by
    rintro state event next ⟨h, hscanned⟩ htaken
    have move := webMove_of_webStep htaken
    exact ⟨h.step move, hscanned.step h (active_le_one h hsingle) move⟩
  intro s hrun
  have hknown : Consistent maxnconn nfiles s ∧ Scanned s := by
    refine hrun.invariant ⟨.start maxnconn nfiles, ?_⟩
      fun state event next hknown _ htaken ↦ hstep state event next hknown htaken
    exact scanned_of_scans_eq_none rfl fun heq ↦ by cases heq
  refine exists_run_of_measure (work nfiles) hstep ?_ s hknown
  rintro state ⟨h, hscanned⟩ hend
  obtain ⟨next, move, hless⟩ := advances h hscanned (active_le_one h hsingle) hmax hend
  obtain ⟨event, htaken⟩ := exists_webStep_of_webMove move
  exact ⟨event, next, htaken, hless⟩

/-- The client can always come to its end if it has nothing to read, or may make a connection and never
has two threads at a time. Otherwise it can get into a state from which it never ends. -/
theorem finishes_iff (maxnconn : ℤ) (nfiles : ℕ) :
    Finishes maxnconn nfiles ↔ nfiles = 0 ∨ maxnconn = 1 ∨ nfiles = 1 ∧ 1 ≤ maxnconn := by
  constructor
  · intro hfinishes
    by_contra hnone
    by_cases hmax : maxnconn ≤ 0
    · exact not_finishes_of_nonpos hmax (by omega) hfinishes
    · exact not_finishes_of_two (by omega) (by omega) hfinishes
  · rintro (rfl | rfl | ⟨rfl, hmax⟩)
    · exact finishes_of_single (.inr (Nat.zero_le 1)) (.inr rfl)
    · exact finishes_of_single (.inl rfl) (.inl (Int.le_refl 1))
    · exact finishes_of_single (.inr (Nat.le_refl 1)) (.inl hmax)

end CppLearn.Unp.WebThreads
