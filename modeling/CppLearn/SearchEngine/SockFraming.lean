import CppLearn.SearchEngine.TaskDocument

/-!
# Tasks on a socket

`write_sock` sends a header with the length of a task's text and then the text; `read_sock` reads them
back into memory that it allocates by the length. `readn` and `writen` loop until all bytes are moved,
however few of them a call moves. The round trip holds for every way to split the transfer
(`readSock_writeSock`). `readn` returns what it has at the end of a stream, and `read_sock` takes any
part of a header for a header: a stream that ends within the header makes it allocate by bytes that it
has not received, and a stream that ends within the text is refused by the parser (`framed_iff`).
-/

set_option autoImplicit false
set_option relaxedAutoImplicit false

namespace CppLearn.SearchEngine.SockFraming

open Foundation.ByteOrder Foundation.JsonText TaskDocument
open TaskRequest (bufSize)

/-! ### Calls of the kernel -/

/-- What a call of `read` or `write` does. It moves no more bytes than it is asked for and, when it
reads, than there are. -/
inductive Call
  | moves (most : ℕ)
  | fails

/-- A call that moves a byte at least. -/
def Call.Moves : Call → Prop
  | .moves most => 0 < most
  | .fails => False

/-- Calls that move a byte at least each, and how many of them there are at least. -/
structure Splits (count : ℕ) (calls : List Call) : Prop where
  moves : ∀ call ∈ calls, call.Moves
  enough : count ≤ calls.length

/-- A count of bytes as an `ssize_t`. -/
def ssize (count : ℕ) : ℤ := (BitVec.ofNat 64 count).toInt

theorem ssize_pos {count : ℕ} (hpos : 0 < count) (hcount : count < 2 ^ 63) : 0 < ssize count := by
  have hnat : (BitVec.ofNat 64 count).toNat = count := by
    rw [BitVec.toNat_ofNat, Nat.mod_eq_of_lt (by omega)]
  rw [ssize, BitVec.toInt_eq_toNat_of_lt (by omega), hnat]
  exact Int.natCast_pos.mpr hpos

@[simp] theorem ssize_zero : ssize 0 = 0 := rfl

/-- What a reader finds on its socket: the bytes before the end of the stream, and the calls to
come. -/
structure Socket where
  unread : List Byte
  calls : List Call

/-- What `readn` leaves: its result, the buffer and the socket. -/
structure Readn where
  ret : ℤ
  buffer : List Byte
  socket : Socket

/-- The loop of `readn` with `done` bytes received. `nread` is unsigned: a failing call is not noticed,
and moves the pointer one byte back. There is no result when the pointer leaves the buffer, or when the
kernel answers no more. -/
def readnFrom (n done : ℕ) (buffer unread : List Byte) (calls : List Call) : Option Readn :=
  if n ≤ done then some ⟨ssize done, buffer, unread, calls⟩
  else
    match calls with
    | [] => none
    | .fails :: calls => if done = 0 then none else readnFrom n (done - 1) buffer unread calls
    | .moves most :: calls =>
      let nread := min most (min (n - done) unread.length)
      if nread = 0 then some ⟨ssize done, buffer, unread, calls⟩
      else if buffer.length < done + nread then none
      else
        readnFrom n (done + nread)
          (buffer.take done ++ (unread.take nread ++ buffer.drop (done + nread)))
          (unread.drop nread) calls

/-- `readn` -/
def readn (n : ℕ) (buffer : List Byte) (s : Socket) : Option Readn :=
  readnFrom n 0 buffer s.unread s.calls

section Readn

variable {n done : ℕ} {buffer unread : List Byte}

theorem readnFrom_of_le (hn : n ≤ done) (calls : List Call) :
    readnFrom n done buffer unread calls = some ⟨ssize done, buffer, unread, calls⟩ := by
  rw [readnFrom.eq_def, if_pos hn]

theorem readnFrom_eof (hn : done < n) (most : ℕ) (calls : List Call) :
    readnFrom n done buffer [] (.moves most :: calls) = some ⟨ssize done, buffer, [], calls⟩ := by
  rw [readnFrom.eq_def, if_neg (by omega)]
  simp only [List.length_nil, Nat.min_zero, if_true]

/-- A call that moves `nread` bytes. -/
theorem readnFrom_moves {most nread : ℕ} (hn : done < n)
    (hnread : min most (min (n - done) unread.length) = nread) (hpos : 0 < nread)
    (hfits : done + nread ≤ buffer.length) (calls : List Call) :
    readnFrom n done buffer unread (.moves most :: calls) =
      readnFrom n (done + nread)
        (buffer.take done ++ (unread.take nread ++ buffer.drop (done + nread)))
        (unread.drop nread) calls := by
  rw [readnFrom.eq_def, if_neg (by omega)]
  simp only [hnread]
  rw [if_neg (by omega), if_neg (by omega)]

/-- The buffer of `readnFrom` at its end: what was received before, the next bytes of the stream, and
what it had behind them. -/
def filled (n done : ℕ) (buffer unread : List Byte) : List Byte :=
  buffer.take done ++ (unread.take (n - done) ++
    buffer.drop (done + min (n - done) unread.length))

/-- A call moves a part of what the loop moves. -/
theorem filled_moves {nread : ℕ} (hnread : nread ≤ min (n - done) unread.length)
    (hfits : done + nread ≤ buffer.length) :
    filled n (done + nread) (buffer.take done ++ (unread.take nread ++ buffer.drop (done + nread)))
        (unread.drop nread) = filled n done buffer unread := by
  have htake : (buffer.take done).length = done := by rw [List.length_take]; omega
  have hread : (unread.take nread).length = nread := by rw [List.length_take]; omega
  have hfront : (buffer.take done ++ unread.take nread).length = done + nread := by
    rw [List.length_append, htake, hread]
  have hrest : done + nread + min (n - (done + nread)) (unread.drop nread).length =
      (done + nread) + (min (n - done) unread.length - nread) := by
    rw [List.length_drop]
    omega
  have hparts : unread.take (n - done) =
      unread.take nread ++ (unread.drop nread).take (n - (done + nread)) := by
    rw [← List.take_add, show nread + (n - (done + nread)) = n - done by omega]
  have hbehind : (buffer.drop (done + nread)).drop (min (n - done) unread.length - nread) =
      buffer.drop (done + min (n - done) unread.length) := by
    rw [List.drop_drop]
    congr 1
    omega
  rw [filled, filled, hrest, ← List.append_assoc (buffer.take done), ← hfront, List.take_left,
    List.drop_length_add_append, hfront, hbehind, hparts]
  simp only [List.append_assoc]

end Readn

/-- `readnFrom` when the kernel splits the transfer: it takes what is missing from the stream, or what
there is. -/
theorem readnFrom_splits (n : ℕ) {calls : List Call} :
    ∀ {done : ℕ} {buffer unread : List Byte}, done ≤ n →
      Splits (min (n - done) unread.length + 1) calls →
      done + min (n - done) unread.length ≤ buffer.length →
      ∃ left, readnFrom n done buffer unread calls =
          some ⟨ssize (done + min (n - done) unread.length), filled n done buffer unread,
            unread.drop (n - done), left⟩ ∧
        Splits (calls.length - (min (n - done) unread.length + 1)) left := by
  induction calls with
  | nil =>
    intro done buffer unread _ hsplits
    exact absurd hsplits.enough (by rw [List.length_nil]; omega)
  | cons call calls ih =>
    intro done buffer unread hdone hsplits hfits
    have hmoves : ∀ other ∈ calls, other.Moves :=
      fun other hmem ↦ hsplits.moves other (List.mem_cons_of_mem call hmem)
    have henough := hsplits.enough
    rw [List.length_cons] at henough ⊢
    rcases Nat.lt_or_ge done n with hn | hn
    · match call, hsplits.moves call (List.mem_cons_self ..) with
      | .moves most, hmost =>
        have hpos : 0 < most := hmost
        rcases Nat.eq_zero_or_pos unread.length with heof | hunread
        · -- the stream is at its end
          obtain rfl := List.eq_nil_of_length_eq_zero heof
          refine ⟨calls, ?_, ⟨hmoves, ?_⟩⟩
          · rw [readnFrom_eof hn, filled]
            simp only [List.length_nil, Nat.min_zero, Nat.add_zero, List.take_nil, List.nil_append,
              List.take_append_drop, List.drop_nil]
          · omega
        · obtain ⟨nread, hnread⟩ : ∃ nread, min most (min (n - done) unread.length) = nread :=
            ⟨_, rfl⟩
          have hrest : done + nread + min (n - (done + nread)) (unread.drop nread).length =
              done + min (n - done) unread.length := by
            rw [List.length_drop]
            omega
          have hlength : (buffer.take done ++
              (unread.take nread ++ buffer.drop (done + nread))).length = buffer.length := by
            simp only [List.length_append, List.length_take, List.length_drop]
            omega
          obtain ⟨left, hleft, hcalls⟩ := @ih (done + nread)
            (buffer.take done ++ (unread.take nread ++ buffer.drop (done + nread)))
            (unread.drop nread) (by omega) ⟨hmoves, by omega⟩ (by omega)
          refine ⟨left, ?_, hcalls.moves, ?_⟩
          · rw [readnFrom_moves hn hnread (by omega) (by omega), hleft, hrest,
              filled_moves (by omega) (by omega), List.drop_drop,
              show nread + (n - (done + nread)) = n - done by omega]
          · have := hcalls.enough
            omega
    · have hzero : n - done = 0 := by omega
      refine ⟨call :: calls, ?_, ⟨hsplits.moves, ?_⟩⟩
      · rw [readnFrom_of_le hn, filled, hzero, Nat.zero_min, Nat.add_zero, List.take_zero,
          List.nil_append, List.take_append_drop, List.drop_zero]
      · rw [List.length_cons]
        omega

/-- `readn` when the kernel splits the transfer. -/
theorem readn_splits (n : ℕ) {buffer unread : List Byte} {calls : List Call}
    (hsplits : Splits (min n unread.length + 1) calls)
    (hfits : min n unread.length ≤ buffer.length) :
    ∃ left, readn n buffer ⟨unread, calls⟩ =
        some ⟨ssize (min n unread.length), unread.take n ++ buffer.drop (min n unread.length),
          unread.drop n, left⟩ ∧
      Splits (calls.length - (min n unread.length + 1)) left := by
  have hloop := @readnFrom_splits n calls 0 buffer unread (Nat.zero_le n)
  rw [Nat.sub_zero, Nat.zero_add, filled, Nat.sub_zero, Nat.zero_add, List.take_zero,
    List.nil_append] at hloop
  exact hloop hsplits hfits

/-- What `writen` leaves: its result, what it has sent, and the calls to come. -/
structure Writen where
  ret : ℤ
  sent : List Byte
  calls : List Call

/-- The loop of `writen` with `done` bytes written. `nwritten` is unsigned here too: a failing call
moves the pointer one byte back. -/
def writenFrom (bytes : List Byte) (done : ℕ) (sent : List Byte) (calls : List Call) :
    Option Writen :=
  if bytes.length ≤ done then some ⟨ssize bytes.length, sent, calls⟩
  else
    match calls with
    | [] => none
    | .fails :: calls => if done = 0 then none else writenFrom bytes (done - 1) sent calls
    | .moves most :: calls =>
      let nwritten := min most (bytes.length - done)
      if nwritten = 0 then some ⟨-1, sent, calls⟩
      else writenFrom bytes (done + nwritten) (sent ++ (bytes.drop done).take nwritten) calls

/-- `writen` -/
def writen (bytes : List Byte) (calls : List Call) : Option Writen := writenFrom bytes 0 [] calls

theorem writenFrom_of_le {bytes : List Byte} {done : ℕ} (hdone : bytes.length ≤ done)
    (sent : List Byte) (calls : List Call) :
    writenFrom bytes done sent calls = some ⟨ssize bytes.length, sent, calls⟩ := by
  rw [writenFrom.eq_def, if_pos hdone]

/-- A call that moves `nwritten` bytes. -/
theorem writenFrom_moves {bytes : List Byte} {done most nwritten : ℕ} (hdone : done < bytes.length)
    (hnwritten : min most (bytes.length - done) = nwritten) (hpos : 0 < nwritten)
    (sent : List Byte) (calls : List Call) :
    writenFrom bytes done sent (.moves most :: calls) =
      writenFrom bytes (done + nwritten) (sent ++ (bytes.drop done).take nwritten) calls := by
  rw [writenFrom.eq_def, if_neg (by omega)]
  simp only [hnwritten]
  rw [if_neg (by omega)]

/-- `writenFrom` when the kernel splits the transfer: it sends what is missing. -/
theorem writenFrom_splits (bytes : List Byte) {calls : List Call} :
    ∀ {done : ℕ} {sent : List Byte}, Splits (bytes.length - done) calls →
      ∃ left, writenFrom bytes done sent calls =
          some ⟨ssize bytes.length, sent ++ bytes.drop done, left⟩ ∧
        Splits (calls.length - (bytes.length - done)) left := by
  induction calls with
  | nil =>
    intro done sent hsplits
    have hdone : bytes.length ≤ done := by
      have := hsplits.enough
      rw [List.length_nil] at this
      omega
    refine ⟨[], ?_, hsplits.moves, Nat.sub_le ..⟩
    rw [writenFrom_of_le hdone, List.drop_of_length_le hdone, List.append_nil]
  | cons call calls ih =>
    intro done sent hsplits
    have henough := hsplits.enough
    rw [List.length_cons] at henough ⊢
    rcases Nat.lt_or_ge done bytes.length with hdone | hdone
    · match call, hsplits.moves call (List.mem_cons_self ..) with
      | .moves most, hmost =>
        have hpos : 0 < most := hmost
        obtain ⟨nwritten, hnwritten⟩ : ∃ nwritten, min most (bytes.length - done) = nwritten :=
          ⟨_, rfl⟩
        have hmoves : ∀ other ∈ calls, other.Moves :=
          fun other hmem ↦ hsplits.moves other (List.mem_cons_of_mem _ hmem)
        obtain ⟨left, hleft, hcalls⟩ := @ih (done + nwritten)
          (sent ++ (bytes.drop done).take nwritten) ⟨hmoves, by omega⟩
        have hparts : (bytes.drop done).take nwritten ++ bytes.drop (done + nwritten) =
            bytes.drop done := by
          rw [← List.drop_drop, List.take_append_drop]
        refine ⟨left, ?_, hcalls.moves, ?_⟩
        · rw [writenFrom_moves hdone hnwritten (by omega), hleft, List.append_assoc, hparts]
        · have := hcalls.enough
          omega
    · refine ⟨call :: calls, ?_, hsplits.moves, ?_⟩
      · rw [writenFrom_of_le hdone, List.drop_of_length_le hdone, List.append_nil]
      · rw [List.length_cons]
        omega

/-- `writen` when the kernel splits the transfer. -/
theorem writen_splits (bytes : List Byte) {calls : List Call}
    (hsplits : Splits bytes.length calls) :
    ∃ left, writen bytes calls = some ⟨ssize bytes.length, bytes, left⟩ ∧
      Splits (calls.length - bytes.length) left :=
  @writenFrom_splits bytes calls 0 [] hsplits

/-! ### The header -/

/-- `strncpy`: the rest of the buffer is filled with zeros. -/
def strncpy (size : ℕ) (text : List Byte) : List Byte :=
  text.take size ++ List.replicate (size - text.length) 0

/-- The bytes of a `SockHeader`: `msg_type` and `msg_length`. -/
def sockHeader (msgLength : BitVec 64) : List Byte :=
  strncpy bufSize (ascii "TaskInfo".toList) ++ bytesOfWord 8 msgLength

/-- `sizeof(SockHeader)` -/
def sizeofHeader : ℕ := bufSize + 8

/-- The member `msg_length` of a `SockHeader`. -/
def msgLength (header : List Byte) : BitVec 64 := wordOfBytes 64 (header.drop bufSize)

/-! ### The two ends -/

/-- What `write_sock` leaves: its result and what it has sent. -/
structure WriteSock where
  ret : Bool
  sent : List Byte

/-- `write_sock` of a task with the given text. -/
def writeSock (jsonContents : List Byte) (calls : List Call) : Option WriteSock :=
  let text := cString jsonContents
  (writen (sockHeader (BitVec.ofNat 64 text.length)) calls).bind fun header ↦
    if header.ret ≤ 0 then some ⟨false, header.sent⟩
    else
      (writen text header.calls).bind fun body ↦
        some ⟨0 < body.ret, header.sent ++ body.sent⟩

/-- What `read_sock` leaves: its result, the number of bytes that it has asked `calloc` for, the text
that it has given to `TaskInfo::load`, and what is left on the socket. -/
structure ReadSock where
  ret : Bool
  allocated : Option (BitVec 64)
  loaded : Option (List Byte)
  unread : List Byte

section Parse

variable {Document : Type} (parse : List Byte → Option Document)

/-- `read_sock`. The header is a local variable without a value. `parse` is the parser of
`TaskInfo::load`. -/
def readSock (header : List Byte) (s : Socket) : Option ReadSock :=
  (readn sizeofHeader header s).bind fun header ↦
    if header.ret ≤ 0 then some ⟨false, none, none, header.socket.unread⟩
    else
      let length := msgLength header.buffer
      (readn length.toNat (List.replicate (length + 1).toNat 0) header.socket).bind fun body ↦
        if body.ret ≤ 0 then some ⟨false, some (length + 1), none, body.socket.unread⟩
        else
          let jsonContents := cString body.buffer
          some ⟨(parse jsonContents).isSome, some (length + 1), some jsonContents,
            body.socket.unread⟩

/-! ### A task's text on the socket -/

/-- The text of a task: an object, and no longer than a C string in memory can be. -/
structure TaskText where
  members : List (List Byte × Value)
  fits : (Value.object members).text.length < 2 ^ 63

/-- The bytes of a task's text. -/
def TaskText.bytes (text : TaskText) : List Byte := (Value.object text.members).text

/-- The frame of a task's text. -/
def frame (text : TaskText) : List Byte :=
  sockHeader (BitVec.ofNat 64 text.bytes.length) ++ text.bytes

/-- The round trip of a task's text, in whatever parts the kernel moves it: the reader gives the text to
`TaskInfo::load`, and leaves what follows on the socket. -/
def RoundTrip (text : TaskText) : Prop :=
  ∀ sends, Splits ((frame text).length + 2) sends →
    ∃ sent, writeSock text.bytes sends = some ⟨true, sent⟩ ∧
      ∀ header : List Byte, header.length = sizeofHeader →
        ∀ rest receives, Splits ((frame text).length + 2) receives →
          ∃ outcome, readSock parse header ⟨sent ++ rest, receives⟩ = some outcome ∧
            outcome.loaded = some text.bytes ∧ outcome.ret = (parse text.bytes).isSome ∧
            outcome.unread = rest

/-- A stream that ends after `cut` bytes of a frame, in whatever parts the kernel moves it: the reader
refuses it, and does the same whatever the header held before. -/
def Refuses (text : TaskText) (cut : ℕ) : Prop :=
  ∀ receives, Splits ((frame text).length + 2) receives →
    ∃ outcome : ReadSock, outcome.ret = false ∧
      ∀ header : List Byte, header.length = sizeofHeader →
        readSock parse header ⟨(frame text).take cut, receives⟩ = some outcome

theorem length_sockHeader (length : BitVec 64) : (sockHeader length).length = sizeofHeader := by
  rw [sockHeader, List.length_append, length_bytesOfWord]
  rfl

theorem msgLength_sockHeader (length : BitVec 64) : msgLength (sockHeader length) = length := by
  have hdrop : (sockHeader length).drop bufSize = bytesOfWord 8 length := List.drop_left' rfl
  rw [msgLength, hdrop, wordOfBytes_bytesOfWord (by decide)]

theorem cString_append_zeros {bytes : List Byte} (hbytes : (0 : Byte) ∉ bytes) (count : ℕ) :
    cString (bytes ++ List.replicate count 0) = bytes := by
  have hall : ∀ byte ∈ bytes, decide (byte ≠ 0) = true := by
    intro byte hmem
    rw [decide_eq_true_eq]
    rintro rfl
    exact hbytes hmem
  have hzeros : cString (List.replicate count 0) = [] := by
    cases count with
    | zero => rfl
    | succ count => rfl
  rw [cString, List.takeWhile_append_of_pos hall, ← cString, hzeros, List.append_nil]

theorem TaskText.zero_not_mem (text : TaskText) : (0 : Byte) ∉ text.bytes :=
  (neat_text (.object text.members)).zero_not_mem

theorem TaskText.length_pos (text : TaskText) : 0 < text.bytes.length := by
  rw [TaskText.bytes, Value.text, List.length_cons]
  exact Nat.succ_pos _

theorem TaskText.length_lt (text : TaskText) : text.bytes.length < 2 ^ 63 := text.fits

theorem length_frame (text : TaskText) :
    (frame text).length = sizeofHeader + text.bytes.length := by
  rw [frame, List.length_append, length_sockHeader]

/-- `write_sock` sends the frame of a task's text. -/
theorem writeSock_splits (text : TaskText) {sends : List Call}
    (hsends : Splits ((frame text).length + 2) sends) :
    writeSock text.bytes sends = some ⟨true, frame text⟩ := by
  have hlength := length_frame text
  have henough := hsends.enough
  have hheader : (sockHeader (BitVec.ofNat 64 text.bytes.length)).length = sizeofHeader :=
    length_sockHeader _
  obtain ⟨afterHeader, hfirst, hsplits⟩ :=
    writen_splits (sockHeader (BitVec.ofNat 64 text.bytes.length)) ⟨hsends.moves, by omega⟩
  have hleft := hsplits.enough
  obtain ⟨afterBody, hsecond, -⟩ :=
    @writen_splits text.bytes afterHeader ⟨hsplits.moves, by omega⟩
  have hretHeader : ¬ ssize sizeofHeader ≤ 0 := by decide
  have hretBody : 0 < ssize text.bytes.length := ssize_pos text.length_pos text.length_lt
  rw [writeSock, cString_of_not_mem text.zero_not_mem, hfirst, Option.bind_some, hheader,
    if_neg hretHeader, hsecond, Option.bind_some, decide_eq_true hretBody]
  rfl

/-- `read_sock` of a whole header for `n` bytes and what follows it. -/
theorem readSock_sockHeader {n : ℕ} (hn : n < 2 ^ 63) {header body : List Byte}
    {receives : List Call} (hheader : header.length = sizeofHeader)
    (hreceives : Splits (sizeofHeader + min n body.length + 2) receives) :
    readSock parse header ⟨sockHeader (BitVec.ofNat 64 n) ++ body, receives⟩ =
      some (if min n body.length = 0 then ⟨false, some (BitVec.ofNat 64 n + 1), none, body.drop n⟩
        else
          let jsonContents :=
            cString (body.take n ++ List.replicate (n + 1 - min n body.length) 0)
          ⟨(parse jsonContents).isSome, some (BitVec.ofNat 64 n + 1), some jsonContents,
            body.drop n⟩) := by
  have hhead : (sockHeader (BitVec.ofNat 64 n)).length = sizeofHeader := length_sockHeader _
  have hwhole : min sizeofHeader (sockHeader (BitVec.ofNat 64 n) ++ body).length = sizeofHeader := by
    rw [List.length_append, hhead]
    omega
  have henough := hreceives.enough
  obtain ⟨afterHeader, hfirst, hsplits⟩ := @readn_splits sizeofHeader header
    (sockHeader (BitVec.ofNat 64 n) ++ body) receives ⟨hreceives.moves, by omega⟩ (by omega)
  rw [hwhole, List.take_left' hhead, List.drop_left' hhead,
    List.drop_of_length_le (by omega), List.append_nil] at hfirst
  have hlength : (BitVec.ofNat 64 n).toNat = n := by
    rw [BitVec.toNat_ofNat, Nat.mod_eq_of_lt (by omega)]
  have hsize : (BitVec.ofNat 64 n + 1).toNat = n + 1 := by
    rw [BitVec.toNat_add, hlength, show (1 : BitVec 64).toNat = 1 from rfl,
      Nat.mod_eq_of_lt (by omega)]
  have hleft := hsplits.enough
  obtain ⟨afterBody, hsecond, -⟩ := @readn_splits n (List.replicate (n + 1) 0) body afterHeader
    ⟨hsplits.moves, by omega⟩ (by rw [List.length_replicate]; omega)
  have hretHeader : ¬ ssize sizeofHeader ≤ 0 := by decide
  rw [readSock, hfirst, Option.bind_some, if_neg hretHeader]
  simp only [msgLength_sockHeader, hlength, hsize, hsecond, Option.bind_some, List.drop_replicate]
  rcases Nat.eq_zero_or_pos (min n body.length) with hzero | hpos
  · rw [hzero, ssize_zero, if_pos le_rfl, if_pos rfl]
  · rw [if_neg (not_le_of_gt (ssize_pos hpos (by omega))), if_neg hpos.ne']

/-- The round trip of a task's text. -/
theorem readSock_writeSock (text : TaskText) : RoundTrip parse text := by
  intro sends hsends
  refine ⟨frame text, writeSock_splits text hsends, fun header hheader rest receives hreceives ↦ ?_⟩
  have hpos := text.length_pos
  have hwhole : min text.bytes.length (text.bytes ++ rest).length = text.bytes.length := by
    rw [List.length_append]
    omega
  have henough := hreceives.enough
  rw [length_frame] at henough
  rw [frame, List.append_assoc, readSock_sockHeader parse text.length_lt hheader
    ⟨hreceives.moves, by omega⟩, hwhole, if_neg hpos.ne', List.take_left, List.drop_left,
    cString_append_zeros text.zero_not_mem]
  exact ⟨_, rfl, rfl, rfl, rfl⟩

/-! ### Streams that end early -/

/-- `read_sock` of an empty stream. -/
theorem readSock_nil (header : List Byte) {receives : List Call} (hreceives : Splits 1 receives) :
    readSock parse header ⟨[], receives⟩ = some ⟨false, none, none, []⟩ := by
  obtain ⟨left, hfirst, -⟩ := @readn_splits sizeofHeader header [] receives hreceives
    (by rw [List.length_nil]; omega)
  rw [readSock, hfirst, Option.bind_some, List.length_nil, Nat.min_zero, ssize_zero, if_pos le_rfl]
  rfl

/-- `read_sock` of a part of a header: it takes what the local variable holds for the rest. -/
theorem readSock_within {header received : List Byte} {receives : List Call}
    (hheader : header.length = sizeofHeader) (hpos : 0 < received.length)
    (hreceived : received.length < sizeofHeader)
    (hreceives : Splits (received.length + 2) receives) :
    readSock parse header ⟨received, receives⟩ =
      some ⟨false, some (msgLength (received ++ header.drop received.length) + 1), none, []⟩ := by
  have hmin : min sizeofHeader received.length = received.length := by omega
  obtain ⟨afterHeader, hfirst, hsplits⟩ := @readn_splits sizeofHeader header received receives
    ⟨hreceives.moves, by have := hreceives.enough; omega⟩ (by omega)
  rw [hmin, List.take_of_length_le hreceived.le,
    show received.drop sizeofHeader = [] from List.drop_of_length_le hreceived.le] at hfirst
  have hretHeader : 0 < ssize received.length :=
    ssize_pos hpos (hreceived.trans (by decide))
  have henough := hreceives.enough
  have hleft := hsplits.enough
  generalize hlength : msgLength (received ++ header.drop received.length) = length at hfirst ⊢
  obtain ⟨afterBody, hsecond, -⟩ := @readn_splits length.toNat
    (List.replicate (length + 1).toNat 0) [] afterHeader
    ⟨hsplits.moves, by rw [List.length_nil]; omega⟩ (by rw [List.length_nil]; omega)
  rw [readSock, hfirst, Option.bind_some, if_neg (not_le_of_gt hretHeader)]
  simp only [hlength, hsecond, Option.bind_some, List.length_nil, Nat.min_zero, ssize_zero,
    le_refl, if_true, List.drop_nil]

/-- A stream that ends within the text. Assumes: a parser that accepts no text that leaves a string or
a bracket open. -/
theorem refuses_of_header_le (hparse : ∀ js document, parse js = some document → Closed js)
    (text : TaskText) {cut : ℕ} (hheader : sizeofHeader ≤ cut) (hcut : cut < (frame text).length) :
    Refuses parse text cut := by
  have hlength := length_frame text
  obtain ⟨count, rfl⟩ := Nat.exists_eq_add_of_le hheader
  have hcount : count < text.bytes.length := by omega
  have hstream : (frame text).take (sizeofHeader + count) =
      sockHeader (BitVec.ofNat 64 text.bytes.length) ++ text.bytes.take count := by
    rw [frame, ← length_sockHeader (BitVec.ofNat 64 text.bytes.length), List.take_length_add_append]
  have hmin : min text.bytes.length (text.bytes.take count).length = count := by
    rw [List.length_take]
    omega
  have hread : ((text.bytes.take count).take text.bytes.length) = text.bytes.take count := by
    rw [List.take_take, Nat.min_eq_right hcount.le]
  have hzero : (0 : Byte) ∉ text.bytes.take count :=
    fun hmem ↦ text.zero_not_mem (List.mem_of_mem_take hmem)
  intro receives hreceives
  have henough := hreceives.enough
  have hsame := fun (header : List Byte) (hlocal : header.length = sizeofHeader) ↦
    @readSock_sockHeader Document parse _ text.length_lt header (text.bytes.take count) receives
      hlocal ⟨hreceives.moves, by omega⟩
  rcases Nat.eq_zero_or_pos count with hnone | hpos
  · rw [hstream]
    refine ⟨_, ?_, hsame⟩
    rw [hmin, if_pos hnone]
  · have hfail : parse (text.bytes.take count) = none := by
      refine Option.eq_none_iff_forall_ne_some.mpr fun document hdocument ↦ ?_
      exact not_closed_take_object text.members hpos hcount (hparse _ document hdocument)
    rw [hstream]
    refine ⟨_, ?_, hsame⟩
    rw [hmin, if_neg hpos.ne', hread, cString_append_zeros hzero]
    show (parse (text.bytes.take count)).isSome = false
    rw [hfail]
    rfl

/-- The member `msg_length` has all of its bytes in it. -/
theorem drop_eq_of_msgLength_eq {first second : List Byte} (hfirst : first.length = sizeofHeader)
    (hsecond : second.length = sizeofHeader) (heq : msgLength first = msgLength second) :
    first.drop bufSize = second.drop bufSize := by
  have hwidth : ∀ {header : List Byte}, header.length = sizeofHeader →
      bytesOfWord 8 (msgLength header) = header.drop bufSize := by
    intro header hheader
    have hlength : (header.drop bufSize).length = 8 := by
      rw [List.length_drop, hheader]
      rfl
    have hbytes := @bytesOfWord_wordOfBytes 64 (header.drop bufSize) (by rw [hlength]; rfl)
    rw [hlength] at hbytes
    exact hbytes
  rw [← hwidth hfirst, heq, hwidth hsecond]

/-- A header of zeros but for its last byte. -/
def zeroHeader (last : Byte) : List Byte := List.replicate (sizeofHeader - 1) 0 ++ [last]

theorem length_zeroHeader (last : Byte) : (zeroHeader last).length = sizeofHeader := by
  rw [zeroHeader, List.length_append, List.length_replicate]
  rfl

/-- A header of which no more than the first bytes were received keeps its last byte. -/
theorem getLast?_zeroHeader (received : List Byte) (hreceived : received.length < sizeofHeader)
    (last : Byte) :
    ((received ++ (zeroHeader last).drop received.length).drop bufSize).getLast? = some last := by
  have hdrop : (zeroHeader last).drop received.length =
      List.replicate (sizeofHeader - 1 - received.length) 0 ++ [last] := by
    rw [zeroHeader, List.drop_append_of_le_length (by rw [List.length_replicate]; omega),
      List.drop_replicate]
  have hfront : bufSize ≤
      (received ++ List.replicate (sizeofHeader - 1 - received.length) (0 : Byte)).length := by
    rw [List.length_append, List.length_replicate]
    show 128 ≤ received.length + (136 - 1 - received.length)
    omega
  rw [hdrop, ← List.append_assoc, List.drop_append_of_le_length hfront, List.getLast?_concat]

/-- A stream that ends within the header: what `read_sock` does depends on bytes that it has not
received. -/
theorem not_refuses_of_lt (text : TaskText) {cut : ℕ} (hpos : 0 < cut) (hcut : cut < sizeofHeader) :
    ¬ Refuses parse text cut := by
  intro hrefuses
  obtain ⟨received, hreceived⟩ : ∃ received, (frame text).take cut = received := ⟨_, rfl⟩
  have hframe := length_frame text
  have hlength : received.length = cut := by
    rw [← hreceived, List.length_take]
    omega
  have hcalls : Splits ((frame text).length + 2)
      (List.replicate ((frame text).length + 2) (.moves 1)) := by
    refine ⟨fun call hmem ↦ ?_, (List.length_replicate ..).ge⟩
    rw [List.eq_of_mem_replicate hmem]
    exact Nat.one_pos
  have henough := hcalls.enough
  obtain ⟨outcome, -, hsame⟩ := hrefuses _ hcalls
  rw [hreceived] at hsame
  have hallocated : ∀ last : Byte, outcome.allocated =
      some (msgLength (received ++ (zeroHeader last).drop received.length) + 1) := by
    intro last
    have hpartial := @readSock_within Document parse (zeroHeader last) received _
      (length_zeroHeader last) (by omega) (by omega) ⟨hcalls.moves, by omega⟩
    rw [hsame _ (length_zeroHeader last)] at hpartial
    rw [Option.some.inj hpartial]
  have htotal : ∀ last : Byte,
      (received ++ (zeroHeader last).drop received.length).length = sizeofHeader := by
    intro last
    rw [List.length_append, List.length_drop, length_zeroHeader]
    omega
  -- the two headers differ in a byte that was not received, and so do the lengths
  have hwords := add_right_cancel (Option.some.inj ((hallocated 0).symm.trans (hallocated 1)))
  have hdrop := drop_eq_of_msgLength_eq (htotal 0) (htotal 1) hwords
  have hbytes : some (0 : Byte) = some 1 := by
    rw [← getLast?_zeroHeader received (by omega) 0, hdrop,
      getLast?_zeroHeader received (by omega) 1]
  exact absurd hbytes (by decide)

/-- The frame of a task on the socket. Assumes: a parser that accepts no text that leaves a string or a
bracket open. A task's text comes through, and a stream that ends after `cut` bytes of the frame is
refused by what was received of it alone, exactly when it does not end within the header. -/
theorem framed_iff (hparse : ∀ js document, parse js = some document → Closed js)
    (text : TaskText) {cut : ℕ} (hcut : cut < (frame text).length) :
    RoundTrip parse text ∧ Refuses parse text cut ↔ cut = 0 ∨ sizeofHeader ≤ cut := by
  constructor
  · rintro ⟨-, hrefuses⟩
    by_contra hwithin
    exact not_refuses_of_lt parse text (by omega) (by omega) hrefuses
  · rintro (rfl | hheader)
    · refine ⟨readSock_writeSock parse text, fun receives hreceives ↦ ?_⟩
      refine ⟨_, rfl, fun header _ ↦ readSock_nil parse header ⟨hreceives.moves, ?_⟩⟩
      have := hreceives.enough
      omega
    · exact ⟨readSock_writeSock parse text, refuses_of_header_le parse hparse text hheader hcut⟩

end Parse

/-- The text of a request with the default members. -/
def defaultText : TaskText where
  members := members TaskRequest.taskInfo
  fits := by decide +kernel

/-- A parser that accepts this text and no other. -/
def parseDefault (js : List Byte) : Option Value :=
  if js = defaultText.bytes then some (.object defaultText.members) else none

theorem closed_of_parseDefault (js : List Byte) (doc : Value) (hparse : parseDefault js = some doc) :
    Closed js := by
  rw [parseDefault] at hparse
  split_ifs at hparse with hjs
  rw [hjs]
  exact closed_text (.object defaultText.members)

/-- The stream ends after the first byte of the text. -/
theorem framed_iff_default :
    RoundTrip parseDefault defaultText ∧ Refuses parseDefault defaultText 137 ↔
      137 = 0 ∨ sizeofHeader ≤ 137 :=
  framed_iff parseDefault closed_of_parseDefault defaultText (by decide +kernel)

/-- The stream ends six bytes before the end of the header. -/
theorem not_refuses_default :
    130 < (frame defaultText).length ∧ ¬ Refuses parseDefault defaultText 130 :=
  ⟨by decide +kernel, not_refuses_of_lt parseDefault defaultText (by decide) (by decide)⟩

end CppLearn.SearchEngine.SockFraming
