import CppLearn.Foundation.ByteOrder
import CppLearn.Foundation.ByteSource
import CppLearn.Foundation.GuardedRun
import Mathlib.Logic.Function.Basic

/-!
# Lines from a descriptor, a byte at a time and buffered

`readline` reads a line one byte after the other. Its fast version takes the bytes from a buffer that
`my_read` fills, and so it returns the same as the slow one however `read` cuts the stream
(`readline_eq_readlineSlow`); what it returns is the next line, or as much of it as there is room for,
and nothing of the stream is lost between two calls (`readline_spec`). A line that is cut is returned
with one more than its length.

There is one buffer for all descriptors. Each call stores bytes of its own descriptor as long as the
descriptor is changed only when the buffer is empty (`own_bytes`).
-/

set_option autoImplicit false
set_option relaxedAutoImplicit false

namespace CppLearn.Unp.ReadLine

open Foundation.ByteOrder Foundation.ByteSource Foundation.GuardedRun

/-- `MAXLINE`. -/
def maxline : ℕ := 4096

/-- `'\n'`. -/
def newline : Byte := 10

/-- The descriptors and the static variables: how many bytes of `read_buf` are left, and where the next
one is. -/
structure Reading where
  files : ℕ → Source Byte
  readCnt : ℤ
  readBuf : List Byte
  readPtr : ℕ

/-- What `my_read` returns: 1 and a byte, 0, or -1. -/
inductive MyRead
  | byte (c : Byte)
  | eof
  | error

/-- What `readline` returns, and the bytes that it stores before the null character. -/
structure LineResult where
  rc : ℤ
  stored : List Byte
  deriving DecidableEq

/-- `read_cnt = read(fd, read_buf, sizeof(read_buf))`, again as long as it is interrupted, and
`read_ptr = read_buf` if it gives bytes. -/
def fill (s : Reading) (fd : ℕ) : Reading :=
  match (s.files fd).readAgain maxline with
  | (none, rest) => { s with files := Function.update s.files fd rest, readCnt := -1 }
  | (some [], rest) => { s with files := Function.update s.files fd rest, readCnt := 0 }
  | (some (c :: data), rest) =>
    { files := Function.update s.files fd rest
      readCnt := (c :: data).length
      readBuf := c :: data
      readPtr := 0 }

/-- `read_cnt--; *ptr = *read_ptr++;`. -/
def takeByte (s : Reading) : MyRead × Reading :=
  (.byte (s.readBuf.getD s.readPtr 0),
    { s with readCnt := s.readCnt - 1, readPtr := s.readPtr + 1 })

/-- `my_read`. -/
def myRead (s : Reading) (fd : ℕ) : MyRead × Reading :=
  if s.readCnt ≤ 0 then
    let filled := fill s fd
    if filled.readCnt < 0 then (.error, filled)
    else if filled.readCnt = 0 then (.eof, filled)
    else takeByte filled
  else takeByte s

/-- The loop of `readline` with so many rounds left, from round `n` on. -/
def readlineLoop (fd : ℕ) : ℕ → ℕ → List Byte → Reading → LineResult × Reading
  | 0, n, stored, s => (⟨n, stored⟩, s)
  | rounds + 1, n, stored, s =>
    match myRead s fd with
    | (.byte c, s) =>
      if c = newline then (⟨n, stored ++ [c]⟩, s)
      else readlineLoop fd rounds (n + 1) (stored ++ [c]) s
    | (.eof, s) => (⟨n - 1, stored⟩, s)
    | (.error, s) => (⟨-1, stored⟩, s)

/-- `readline`. -/
def readline (fd maxlen : ℕ) (s : Reading) : LineResult × Reading :=
  readlineLoop fd (maxlen - 1) 1 [] s

/-- The loop of the slow `readline`, which reads one byte at a time. -/
def readlineSlowLoop : ℕ → ℕ → List Byte → Source Byte → LineResult × Source Byte
  | 0, n, stored, s => (⟨n, stored⟩, s)
  | rounds + 1, n, stored, s =>
    match s.readAgain 1 with
    | (some (c :: _), s) =>
      if c = newline then (⟨n, stored ++ [c]⟩, s)
      else readlineSlowLoop rounds (n + 1) (stored ++ [c]) s
    | (some [], s) => (⟨n - 1, stored⟩, s)
    | (none, s) => (⟨-1, stored⟩, s)

/-- The slow `readline`. -/
def readlineSlow (maxlen : ℕ) (s : Source Byte) : LineResult × Source Byte :=
  readlineSlowLoop (maxlen - 1) 1 [] s

/-! ### What is to be returned -/

/-- The bytes up to a newline, or as many as there is room for. -/
def takeLine : ℕ → List Byte → List Byte
  | 0, _ => []
  | _, [] => []
  | room + 1, c :: stream => if c = newline then [c] else c :: takeLine room stream

/-- There is no room for the end of the line, or it is not known that the line ends here. -/
def isCut : ℕ → List Byte → Bool
  | 0, _ => true
  | _, [] => false
  | room + 1, c :: stream => if c = newline then false else isCut room stream

/-- The next line of a stream, as `readline` returns it. -/
def lineOf (maxlen : ℕ) (stream : List Byte) : LineResult :=
  ⟨(takeLine (maxlen - 1) stream).length + (isCut (maxlen - 1) stream).toNat,
    takeLine (maxlen - 1) stream⟩

/-! ### One call of `my_read` -/

/-- The bytes that are left in the buffer. -/
def unread (s : Reading) : List Byte := if 0 < s.readCnt then s.readBuf.drop s.readPtr else []

/-- The bytes that calls on a descriptor get next. -/
def pending (s : Reading) (fd : ℕ) : List Byte := unread s ++ (s.files fd).stream

/-- The count is that of the bytes left in the buffer. -/
def Valid (s : Reading) : Prop := 0 < s.readCnt → (s.readPtr : ℤ) + s.readCnt = s.readBuf.length

/-- A call on a descriptor leaves all others as they are, and does not make it fail. -/
structure Framed (fd : ℕ) (s next : Reading) : Prop where
  valid : Valid next
  others : ∀ other, other ≠ fd → next.files other = s.files other
  sound : (s.files fd).Sound → (next.files fd).Sound

/-- What a caller knows of a result of `my_read`. -/
inductive MyReads (s : Reading) (fd : ℕ) : MyRead × Reading → Prop
  | byte (c : Byte) (next : Reading) (hframed : Framed fd s next)
      (hpending : pending s fd = c :: pending next fd) : MyReads s fd (.byte c, next)
  | eof (next : Reading) (hframed : Framed fd s next) (hpending : pending s fd = [])
      (hnext : pending next fd = []) : MyReads s fd (.eof, next)
  | error (next : Reading) (hframed : Framed fd s next) (hpending : pending next fd = pending s fd)
      (hunsound : ¬ (s.files fd).Sound) : MyReads s fd (.error, next)

theorem Framed.trans {fd : ℕ} {s middle next : Reading} (first : Framed fd s middle)
    (second : Framed fd middle next) : Framed fd s next where
  valid := second.valid
  others other hne := (second.others other hne).trans (first.others other hne)
  sound hsound := second.sound (first.sound hsound)

/-- A byte is taken from the buffer. -/
theorem myReads_takeByte {s : Reading} {fd : ℕ} (hvalid : Valid s) (hpos : 0 < s.readCnt) :
    MyReads s fd (takeByte s) := by
  have hcount := hvalid hpos
  have hlt : s.readPtr < s.readBuf.length := by omega
  have hdrop := List.drop_eq_getElem_cons hlt
  have hget : s.readBuf.getD s.readPtr 0 = s.readBuf[s.readPtr] := by
    rw [List.getD_eq_getElem?_getD, List.getElem?_eq_getElem hlt, Option.getD_some]
  refine .byte _ _ ⟨fun hleft ↦ ?_, fun _ _ ↦ rfl, id⟩ ?_
  · simp only [Nat.cast_add, Nat.cast_one]
    omega
  · have hunread : unread { s with readCnt := s.readCnt - 1, readPtr := s.readPtr + 1 } =
        s.readBuf.drop (s.readPtr + 1) := by
      simp only [unread]
      split_ifs with hleft
      · rfl
      · rw [List.drop_of_length_le (by omega)]
    rw [pending, pending, hunread, unread, if_pos hpos, hdrop, hget]
    rfl

theorem pending_of_le {s : Reading} (hle : s.readCnt ≤ 0) (fd : ℕ) :
    pending s fd = (s.files fd).stream := by
  rw [pending, unread, if_neg (by omega), List.nil_append]

theorem framed_update {s : Reading} {fd : ℕ} {rest : Source Byte} {readCnt : ℤ} {readBuf : List Byte}
    {readPtr : ℕ} (hvalid : Valid ⟨Function.update s.files fd rest, readCnt, readBuf, readPtr⟩)
    (hsound : (s.files fd).Sound → rest.Sound) :
    Framed fd s ⟨Function.update s.files fd rest, readCnt, readBuf, readPtr⟩ where
  valid := hvalid
  others other hne := Function.update_of_ne hne ..
  sound hbefore := by
    simp only [Function.update_self]
    exact hsound hbefore

/-- What a fill of the empty buffer can be. -/
inductive Fills (s : Reading) (fd : ℕ) : Reading → Prop
  | fails (next : Reading) (hframed : Framed fd s next) (hcount : next.readCnt < 0)
      (hpending : pending next fd = pending s fd) (hunsound : ¬ (s.files fd).Sound) : Fills s fd next
  | ends (next : Reading) (hframed : Framed fd s next) (hcount : next.readCnt = 0)
      (hpending : pending next fd = pending s fd) (hend : pending s fd = []) : Fills s fd next
  | gives (next : Reading) (hframed : Framed fd s next) (hcount : 0 < next.readCnt)
      (hpending : pending next fd = pending s fd) : Fills s fd next

theorem fills_fill {s : Reading} (hle : s.readCnt ≤ 0) (fd : ℕ) : Fills s fd (fill s fd) := by
  have hreads := reads_readAgain (by decide : 0 < maxline) (s.files fd)
  rw [fill]
  generalize (s.files fd).readAgain maxline = result at hreads ⊢
  cases hreads with
  | fails rest hstream hunsound =>
    have hvalid : Valid ⟨Function.update s.files fd rest, -1, s.readBuf, s.readPtr⟩ :=
      fun hpos ↦ by cases hpos
    refine .fails _ (framed_update hvalid fun hsound ↦ (hunsound hsound).elim)
      (Int.negSucc_lt_zero 0) ?_ hunsound
    rw [pending_of_le hle, pending_of_le (Int.negSucc_lt_zero 0).le]
    simp only [Function.update_self, hstream]
  | gives data rest hstream hend hlen hsound =>
    cases data with
    | nil =>
      have hvalid : Valid ⟨Function.update s.files fd rest, 0, s.readBuf, s.readPtr⟩ :=
        fun hpos ↦ by cases hpos
      refine .ends _ (framed_update hvalid hsound) rfl ?_ ?_
      · rw [pending_of_le hle, pending_of_le (Int.le_refl 0), ← hstream]
        simp only [Function.update_self, List.nil_append]
      · rw [pending_of_le hle, hend rfl]
    | cons c data =>
      have hvalid : Valid ⟨Function.update s.files fd rest, (c :: data).length, c :: data, 0⟩ :=
        fun _ ↦ by simp only [Nat.cast_zero, zero_add]
      have hpos : 0 < ((c :: data).length : ℤ) := Int.natCast_pos.mpr (Nat.succ_pos _)
      refine .gives _ (framed_update hvalid hsound) hpos ?_
      rw [pending_of_le hle, pending, unread, if_pos hpos, ← hstream]
      simp only [Function.update_self, List.drop_zero]

theorem MyReads.of_filled {s filled : Reading} {fd : ℕ} {out : MyRead × Reading}
    (hframed : Framed fd s filled) (hsame : pending filled fd = pending s fd)
    (hreads : MyReads filled fd out) : MyReads s fd out := by
  cases hreads with
  | byte c next hnext hpending => exact .byte c next (hframed.trans hnext) (hsame ▸ hpending)
  | eof next hnext hpending hend => exact .eof next (hframed.trans hnext) (hsame ▸ hpending) hend
  | error next hnext hpending hunsound =>
    exact .error next (hframed.trans hnext) (hpending.trans hsame) fun hsound ↦
      hunsound (hframed.sound hsound)

/-- A byte is taken, after the buffer has been filled if it is empty. -/
theorem myReads_myRead {s : Reading} (hvalid : Valid s) (fd : ℕ) : MyReads s fd (myRead s fd) := by
  by_cases hle : s.readCnt ≤ 0
  · have hfills := fills_fill hle fd
    rw [myRead, if_pos hle]
    simp only
    generalize fill s fd = filled at hfills ⊢
    cases hfills with
    | fails hframed hcount hpending hunsound =>
      rw [if_pos hcount]
      exact .error _ hframed hpending hunsound
    | ends hframed hcount hpending hend =>
      rw [if_neg (by omega), if_pos hcount]
      exact .eof _ hframed hend (hpending.trans hend)
    | gives hframed hcount hpending =>
      rw [if_neg (by omega), if_neg (by omega)]
      exact .of_filled hframed hpending (myReads_takeByte hframed.valid hcount)
  · rw [myRead, if_neg hle]
    exact myReads_takeByte hvalid (by omega)

/-! ### One call of `readline` -/

/-- What a caller knows of a result of `readline` with room for so many bytes after some that are stored
already: no byte is lost, and the line is the next one unless a read fails. -/
structure Answers (fd room : ℕ) (stored : List Byte) (s : Reading) (out : LineResult × Reading) :
    Prop where
  framed : Framed fd s out.2
  starts : stored <+: out.1.stored
  kept : out.1.stored ++ pending out.2 fd = stored ++ pending s fd
  answer : out.1 = ⟨stored.length + (lineOf (room + 1) (pending s fd)).rc,
      stored ++ (lineOf (room + 1) (pending s fd)).stored⟩ ∨
    out.1.rc = -1 ∧ ¬ (s.files fd).Sound

theorem answers_readlineLoop {fd rounds : ℕ} {stored : List Byte} {s : Reading} (hvalid : Valid s) :
    Answers fd rounds stored s (readlineLoop fd rounds (stored.length + 1) stored s) := by
  induction rounds generalizing stored s with
  | zero =>
    refine ⟨⟨hvalid, fun _ _ ↦ rfl, id⟩, List.prefix_refl _, rfl, .inl ?_⟩
    simp only [readlineLoop, lineOf, takeLine, isCut, Nat.sub_self, List.length_nil,
      Nat.cast_add, Nat.cast_one, Nat.cast_zero, zero_add, Bool.toNat_true, List.append_nil]
  | succ rounds ih =>
    have hreads := myReads_myRead hvalid fd
    rw [readlineLoop]
    generalize myRead s fd = result at hreads ⊢
    cases hreads with
    | byte c next hframed hpending =>
      simp only
      by_cases hnewline : c = newline
      · rw [if_pos hnewline]
        refine ⟨hframed, List.prefix_append .., ?_, .inl ?_⟩
        · rw [hpending, List.append_assoc, List.singleton_append]
        · simp only [hpending, lineOf, Nat.add_sub_cancel, takeLine, isCut, if_pos hnewline,
            List.length_singleton, Bool.toNat_false, Nat.cast_add, Nat.cast_one, Nat.cast_zero, add_zero]
      · rw [if_neg hnewline]
        have hlength : stored.length + 1 + 1 = (stored ++ [c]).length + 1 := by
          rw [List.length_append, List.length_singleton]
        rw [hlength]
        have hrest := @ih (stored ++ [c]) next hframed.valid
        refine ⟨hframed.trans hrest.framed, (List.prefix_append ..).trans hrest.starts, ?_, ?_⟩
        · rw [hrest.kept, hpending, List.append_assoc, List.singleton_append]
        · refine hrest.answer.imp (fun hline ↦ ?_) fun herror ↦
            ⟨herror.1, fun hsound ↦ herror.2 (hframed.sound hsound)⟩
          rw [hline, hpending]
          simp only [lineOf, Nat.add_sub_cancel, takeLine, isCut, if_neg hnewline, List.length_cons,
            List.length_append, List.length_nil, List.append_assoc, List.singleton_append, Nat.cast_add,
            Nat.cast_one, LineResult.mk.injEq, and_true]
          omega
    | eof next hframed hpending hend =>
      refine ⟨hframed, List.prefix_refl _, by rw [hpending, hend], .inl ?_⟩
      simp only [hpending, lineOf, Nat.add_sub_cancel, takeLine, isCut, List.length_nil,
        Bool.toNat_false, Nat.cast_add, Nat.cast_one, Nat.cast_zero, add_zero, add_sub_cancel_right,
        List.append_nil]
    | error next hframed hpending hunsound =>
      exact ⟨hframed, List.prefix_refl _, by rw [hpending], .inr ⟨rfl, hunsound⟩⟩

theorem answers_readline {s : Reading} (hvalid : Valid s) (fd maxlen : ℕ) :
    Answers fd (maxlen - 1) [] s (readline fd maxlen s) :=
  answers_readlineLoop hvalid

/-- Assumes: a count that is that of the bytes in the buffer, as it is at first and after every call.
`readline` stores the bytes that come next and leaves those after them for the next call, whatever
`read` does; it returns the next line unless a read fails, and touches no other descriptor. -/
theorem readline_spec {s : Reading} (hvalid : Valid s) (fd maxlen : ℕ) :
    let (line, next) := readline fd maxlen s
    line.stored ++ pending next fd = pending s fd ∧
      (line = lineOf maxlen (pending s fd) ∨ line.rc = -1 ∧ ¬ (s.files fd).Sound) ∧
      Valid next ∧ ∀ other, other ≠ fd → next.files other = s.files other := by
  have hanswers := answers_readline hvalid fd maxlen
  refine ⟨hanswers.kept, hanswers.answer.imp_left fun hline ↦ ?_, hanswers.framed.valid,
    hanswers.framed.others⟩
  refine hline.trans ?_
  simp only [lineOf, Nat.add_sub_cancel, List.length_nil, Nat.cast_zero, zero_add, List.nil_append]

/-- A line that comes in three pieces, with an interrupt between them. -/
def threePieces : Reading :=
  { files := fun _ ↦ ⟨[104, 105, 10, 33], [.upTo 0, .eintr, .upTo 0, .upTo 1]⟩
    readCnt := 0
    readBuf := []
    readPtr := 0 }

theorem readline_spec_threePieces :
    Valid threePieces ∧ (readline 3 10 threePieces).1 = ⟨3, [104, 105, 10]⟩ ∧
      (readline 3 10 threePieces).1.stored ++ pending (readline 3 10 threePieces).2 3 =
        [104, 105, 10, 33] := by
  have hvalid : Valid threePieces := fun hpos ↦ by cases hpos
  exact ⟨hvalid, by decide, (readline_spec hvalid 3 10).1⟩

/-! ### The buffered version and the slow one -/

/-- The results of calls with these lengths, one after the other. -/
def calls {State : Type} (call : ℕ → State → LineResult × State) :
    List ℕ → State → List LineResult × State
  | [], s => ([], s)
  | maxlen :: maxlens, s =>
    let (line, s) := call maxlen s
    let (lines, s) := calls call maxlens s
    (line :: lines, s)

/-- The same bytes are to come, and no read fails. -/
structure Alike (fd : ℕ) (s : Reading) (slow : Source Byte) : Prop where
  valid : Valid s
  sound : (s.files fd).Sound
  slow_sound : slow.Sound
  stream_eq : slow.stream = pending s fd

theorem alike_readlineLoop {fd rounds n : ℕ} {stored : List Byte} {s : Reading} {slow : Source Byte}
    (halike : Alike fd s slow) :
    (readlineLoop fd rounds n stored s).1 = (readlineSlowLoop rounds n stored slow).1 ∧
      Alike fd (readlineLoop fd rounds n stored s).2 (readlineSlowLoop rounds n stored slow).2 := by
  induction rounds generalizing n stored s slow with
  | zero => exact ⟨rfl, halike⟩
  | succ rounds ih =>
    have hreads := myReads_myRead halike.valid fd
    have hslow := reads_readAgain Nat.one_pos slow
    rw [readlineLoop, readlineSlowLoop]
    generalize myRead s fd = result at hreads ⊢
    generalize slow.readAgain 1 = slowResult at hslow ⊢
    cases hslow with
    | fails rest hstream hunsound => exact (hunsound halike.slow_sound).elim
    | gives data rest hstream hend hle hrest =>
      have hsame := hstream.trans halike.stream_eq
      cases hreads with
      | error next hframed hpending hunsound => exact (hunsound halike.sound).elim
      | eof next hframed hpending hnext =>
        rw [hpending] at hsame
        obtain ⟨rfl, hrestNil⟩ := List.append_eq_nil_iff.mp hsame
        exact ⟨rfl, hframed.valid, hframed.sound halike.sound, hrest halike.slow_sound,
          hrestNil.trans hnext.symm⟩
      | byte c next hframed hpending =>
        cases data with
        | nil =>
          have hnil := halike.stream_eq.symm.trans (hend rfl)
          rw [hpending] at hnil
          cases hnil
        | cons d data =>
          obtain rfl := List.eq_nil_of_length_eq_zero (Nat.le_zero.mp (Nat.le_of_succ_le_succ hle))
          rw [hpending, List.singleton_append] at hsame
          obtain ⟨rfl, hnext⟩ := List.cons.inj hsame
          have halike' : Alike fd next rest :=
            ⟨hframed.valid, hframed.sound halike.sound, hrest halike.slow_sound, hnext⟩
          simp only
          split_ifs
          · exact ⟨rfl, halike'⟩
          · exact ih halike'

/-- Assumes: the same bytes are to come from both descriptors, and no read fails. Calls of both versions
return the same lines and leave the same bytes, however each `read` cuts the bytes. -/
theorem readline_eq_readlineSlow {fd : ℕ} {s : Reading} {slow : Source Byte} (hvalid : Valid s)
    (hsound : (s.files fd).Sound) (hslow : slow.Sound) (hstream : slow.stream = pending s fd)
    (maxlens : List ℕ) :
    (calls (readline fd) maxlens s).1 = (calls readlineSlow maxlens slow).1 ∧
      pending (calls (readline fd) maxlens s).2 fd = (calls readlineSlow maxlens slow).2.stream := by
  have halike : Alike fd s slow := ⟨hvalid, hsound, hslow, hstream⟩
  clear hvalid hsound hslow hstream
  induction maxlens generalizing s slow with
  | nil => exact ⟨rfl, halike.stream_eq.symm⟩
  | cons maxlen maxlens ih =>
    obtain ⟨hline, halike'⟩ :=
      @alike_readlineLoop fd (maxlen - 1) 1 [] s slow halike
    obtain ⟨hlines, hrest⟩ := ih halike'
    exact ⟨congrArg₂ List.cons hline hlines, hrest⟩

theorem readline_eq_readlineSlow_threePieces :
    (calls (readline 3) [10, 10] threePieces).1 =
      (calls readlineSlow [10, 10] ⟨[104, 105, 10, 33], []⟩).1 := by
  have hvalid : Valid threePieces := fun hpos ↦ by cases hpos
  have hsound : (threePieces.files 3).Sound := by
    simp only [threePieces, Source.Sound]
    decide
  have hslow : (⟨[104, 105, 10, 33], []⟩ : Source Byte).Sound := List.not_mem_nil
  exact (readline_eq_readlineSlow hvalid hsound hslow rfl [10, 10]).1

/-! ### One buffer for all descriptors -/

/-- The descriptor that was called last, and what the calls on each descriptor have
stored. -/
structure Readers where
  reading : Reading
  owner : ℕ
  stored : ℕ → List Byte

/-- The program's start. -/
def Readers.start (files : ℕ → Source Byte) (readBuf : List Byte) (owner : ℕ) : Readers :=
  { reading := ⟨files, 0, readBuf, 0⟩
    owner := owner
    stored := fun _ ↦ [] }

/-- A descriptor and the length that it is called with. -/
structure Call where
  fd : ℕ
  maxlen : ℕ
  deriving DecidableEq

/-- One call. -/
def readersStep (s : Readers) (call : Call) : Option Readers :=
  let (line, reading) := readline call.fd call.maxlen s.reading
  some
    { reading := reading
      owner := call.fd
      stored := Function.update s.stored call.fd (s.stored call.fd ++ line.stored) }

/-- The descriptor is the same as before, or there is nothing left of the other's bytes. -/
def drained (s : Readers) (call : Call) : Prop := call.fd = s.owner ∨ unread s.reading = []

instance (s : Readers) (call : Call) : Decidable (drained s call) :=
  inferInstanceAs (Decidable (_ ∨ _))

/-- The bytes in the buffer that are the descriptor's own. -/
def ownUnread (s : Readers) (fd : ℕ) : List Byte := if fd = s.owner then unread s.reading else []

/-- The bytes of each descriptor are those stored, those in the buffer and those to come. -/
structure Owned (files : ℕ → Source Byte) (s : Readers) : Prop where
  valid : Valid s.reading
  stream_eq : ∀ fd, (files fd).stream = s.stored fd ++ (ownUnread s fd ++ (s.reading.files fd).stream)

theorem owned_step {files : ℕ → Source Byte} {s next : Readers} {call : Call} (howned : Owned files s)
    (hdrained : drained s call) (htaken : readersStep s call = some next) : Owned files next := by
  have hanswers := answers_readline howned.valid call.fd call.maxlen
  rw [readersStep] at htaken
  generalize readline call.fd call.maxlen s.reading = out at hanswers htaken
  cases htaken
  refine ⟨hanswers.framed.valid, fun fd ↦ ?_⟩
  rw [howned.stream_eq fd]
  by_cases hfd : fd = call.fd
  · subst hfd
    have hown : ownUnread s call.fd = unread s.reading := by
      rcases hdrained with hsame | hempty
      · rw [ownUnread, if_pos hsame]
      · rw [ownUnread, hempty, ite_self]
    have hkept := hanswers.kept
    rw [List.nil_append, pending, pending] at hkept
    rw [hown]
    simp only [Function.update_self, ownUnread, if_true, List.append_assoc, hkept]
  · have hown : ownUnread s fd = [] := by
      rcases hdrained with hsame | hempty
      · rw [ownUnread, if_neg fun heq ↦ hfd (heq.trans hsame.symm)]
      · rw [ownUnread, hempty, ite_self]
    rw [hown, hanswers.framed.others fd hfd]
    simp only [ownUnread, Function.update_of_ne hfd, if_neg hfd]

/-- A call that finds bytes in the buffer stores them. -/
theorem head_of_unread {s : Reading} (hvalid : Valid s) {c : Byte} {left : List Byte}
    (hunread : unread s = c :: left) (fd : ℕ) {maxlen : ℕ} (hroom : 2 ≤ maxlen) :
    (readline fd maxlen s).1.stored.head? = some c := by
  obtain ⟨rounds, hrounds⟩ := Nat.exists_eq_add_of_le' (Nat.le_sub_one_of_lt hroom)
  have hcount : 0 < s.readCnt := by
    by_contra hle
    rw [unread, if_neg hle] at hunread
    cases hunread
  have hreads := @myReads_takeByte s fd hvalid hcount
  have hfirst : pending s fd = c :: (left ++ (s.files fd).stream) := by
    rw [pending, hunread, List.cons_append]
  rw [readline, hrounds, readlineLoop, myRead, if_neg (by omega)]
  rw [takeByte] at hreads ⊢
  cases hreads with
  | byte d next hframed hpending =>
    obtain ⟨rfl, -⟩ := List.cons.inj (hfirst.symm.trans hpending)
    simp only
    split_ifs
    · rfl
    · have hanswers := @answers_readlineLoop fd rounds [s.readBuf.getD s.readPtr 0] _ hframed.valid
      obtain ⟨line, hline⟩ := hanswers.starts
      exact hline ▸ rfl

/-- As long as the descriptor is changed only when the buffer is empty, the calls on each descriptor
store its own bytes in order and lose none, those that return -1 included; a call that changes it before begins with a byte of the
other descriptor. -/
theorem own_bytes {files : ℕ → Source Byte} {readBuf : List Byte} {owner : ℕ} {s : Readers}
    (hrun : Run readersStep drained (.start files readBuf owner) s) :
    (∀ fd, (files fd).stream = s.stored fd ++ (ownUnread s fd ++ (s.reading.files fd).stream)) ∧
      ∀ call, ¬ drained s call → 2 ≤ call.maxlen →
        (readline call.fd call.maxlen s.reading).1.stored.head? = (ownUnread s s.owner).head? := by
  have hstart : Owned files (.start files readBuf owner) := by
    refine ⟨fun hpos ↦ (by cases hpos), fun fd ↦ ?_⟩
    have hunread : ownUnread (.start files readBuf owner) fd = [] := ite_self _
    rw [hunread]
    rfl
  have howned := hrun.invariant hstart fun _ _ _ howned hdrained htaken ↦
    owned_step howned hdrained htaken
  refine ⟨howned.stream_eq, fun call hcall hroom ↦ ?_⟩
  have hleft : unread s.reading ≠ [] := fun hempty ↦ hcall (.inr hempty)
  obtain ⟨c, left, hunread⟩ := List.exists_cons_of_ne_nil hleft
  rw [head_of_unread howned.valid hunread call.fd hroom, ownUnread, if_pos rfl, hunread, List.head?_cons]

/-- Two descriptors, each with two lines that a read gives at once. -/
def twoFiles (fd : ℕ) : Source Byte := ⟨[65, 10, BitVec.ofNat 8 (48 + fd), 10], []⟩

/-- The first line of the first has been read. -/
def oneLine : Readers :=
  (readersStep (.start twoFiles [] 1) ⟨1, 10⟩).getD (.start twoFiles [] 1)

theorem own_bytes_oneLine :
    (twoFiles 1).stream = [65, 10] ++ [49, 10] ∧ ownUnread oneLine 1 = [49, 10] ∧
      (readline 2 10 oneLine.reading).1.stored.head? = some 49 := by
  have hrun : Run readersStep drained (.start twoFiles [] 1) oneLine :=
    .tail ⟨1, 10⟩ .refl (by decide) rfl
  have hown := own_bytes hrun
  exact ⟨hown.1 1, by decide, hown.2 ⟨2, 10⟩ (by decide) (by decide)⟩

end CppLearn.Unp.ReadLine
