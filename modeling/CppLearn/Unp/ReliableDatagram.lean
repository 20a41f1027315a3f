import CppLearn.Foundation.ByteOrder
import CppLearn.Foundation.GuardedRun
import Mathlib.Data.List.TakeWhile

/-!
# Requests and replies over a network that may lose and repeat them

`dg_cli` reads lines and has each answered by an echo server. `dg_send_recv` puts a sequence number in
front of a line, sends it again when the timer runs out, and takes the first datagram that carries this
number as the reply. `exchangeStep` interleaves the client, the server and a network that loses, repeats
and reorders datagrams; the timer may run out whenever it is set and `sigsetjmp` has returned. That it
runs out before, when `jmpbuf` is not set or is that of an earlier send, is left out.

A reply can be as old as the network keeps it, so a line is printed for a request with the same number
modulo `2 ^ 32`. Every line printed is the echo of its own request exactly as long as there are no more
than `2 ^ 32` of them (`prints_answers_iff`). A request is sent at most four times (`exchange_ends`).
-/

set_option autoImplicit false
set_option relaxedAutoImplicit false

namespace CppLearn.Unp.ReliableDatagram

open Foundation.ByteOrder Foundation.GuardedRun

/-! ### Datagrams -/

/-- `MAXLINE`. -/
def maxline : ℕ := 4096

/-- `RTT_MAXNREXMT`. -/
def rttMaxnrexmt : ℕ := 3

/-- `sizeof(struct hdr)`. -/
def hdrSize : ℕ := 8

/-- `struct hdr`. -/
structure Hdr where
  seq : BitVec 32
  ts : BitVec 32

/-- The datagram that `Sendmsg` gathers from `sendhdr` and `outbuff`. -/
def sendmsg (sendhdr : Hdr) (outbuff : List Byte) : List Byte :=
  bytesOfWord 4 sendhdr.seq ++ bytesOfWord 4 sendhdr.ts ++ outbuff

/-- What `Recvmsg` scatters over `recvhdr` and `inbuff`. -/
def recvmsg (datagram : List Byte) : List Byte := datagram.take (hdrSize + maxline)

/-- `recvhdr.seq` after a datagram with a header. -/
def recvhdrSeq (received : List Byte) : BitVec 32 := wordOfBytes 32 (received.take 4)

/-- `dg_echo` sends back what fits into `mesg`. -/
def dgEcho (datagram : List Byte) : List Byte := datagram.take maxline

/-- The string in a buffer. -/
def cString (buffer : List Byte) : List Byte := buffer.takeWhile (· != 0)

/-! ### The client, the server and the network -/

/-- Where the client stands: before `Fgets`, at `sendagain`, in the loop around `Recvmsg`, past that loop
with a reply and the timer still set, at the end of its input, or past `err_quit`. -/
inductive Place
  | reading
  | sending
  | receiving
  | received (reply : List Byte)
  | finished
  | failed
  deriving DecidableEq

/-- The client with the lines it has not read yet, the datagrams on their way, and what is printed.
`asked` is the lines read so far, and `sent` counts the datagrams of the present request. -/
structure Exchange where
  lines : List (List Byte)
  place : Place
  seq : BitVec 32
  nrexmt : ℕ
  sendline : List Byte
  requests : List (List Byte)
  replies : List (List Byte)
  printed : List (List Byte)
  asked : List (List Byte)
  sent : ℕ

/-- The start, with the lines of the input. -/
def Exchange.start (lines : List (List Byte)) : Exchange :=
  { lines := lines
    place := .reading
    seq := 0
    nrexmt := 0
    sendline := []
    requests := []
    replies := []
    printed := []
    asked := []
    sent := 0 }

/-- A step of the client, which sends with any time stamp; the timer runs out; the server answers a
datagram; or the network loses or repeats one. `stray` is a datagram from someone else. -/
inductive ExchangeEvent
  | fgets
  | sendmsg (ts : BitVec 32)
  | alarm
  | recvmsg (i : ℕ)
  | stop
  | dgEcho (i : ℕ)
  | loseRequest (i : ℕ)
  | repeatRequest (i : ℕ)
  | loseReply (i : ℕ)
  | repeatReply (i : ℕ)
  | stray (datagram : List Byte)

/-- The timer is set. -/
def Place.isTimed : Place → Bool
  | .receiving | .received _ => true
  | _ => false

/-- The place after a datagram: `n < sizeof(struct hdr) || recvhdr.seq != sendhdr.seq` receives again. -/
def afterRecvmsg (seq : BitVec 32) (received : List Byte) : Place :=
  if received.length < hdrSize ∨ recvhdrSeq received ≠ seq then .receiving
  else .received (received.drop hdrSize)

/-- The client and the network around it, step by step. -/
def exchangeStep (s : Exchange) : ExchangeEvent → Option Exchange
  | .fgets =>
    if s.place = .reading then
      match s.lines with
      | [] => some { s with place := .finished }
      | line :: lines =>
        some { s with
          lines := lines
          place := .sending
          seq := s.seq + 1
          nrexmt := 0
          sendline := cString line
          asked := s.asked ++ [line]
          sent := 0 }
    else none
  | .sendmsg ts =>
    if s.place = .sending then
      some { s with
        place := .receiving
        requests := s.requests ++ [sendmsg ⟨s.seq, ts⟩ s.sendline]
        sent := s.sent + 1 }
    else none
  | .alarm =>
    -- `rtt_timeout` counts and compares, and `siglongjmp` forgets a reply
    if s.place.isTimed then
      some { s with
        nrexmt := s.nrexmt + 1
        place := if rttMaxnrexmt < s.nrexmt + 1 then .failed else .sending }
    else none
  | .recvmsg i =>
    if s.place = .receiving then
      match s.replies[i]? with
      | some datagram =>
        some { s with
          replies := s.replies.eraseIdx i
          place := afterRecvmsg s.seq (recvmsg datagram) }
      | none => none
    else none
  | .stop =>
    match s.place with
    | .received reply =>
      some { s with place := .reading, printed := s.printed ++ [cString reply] }
    | _ => none
  | .dgEcho i =>
    match s.requests[i]? with
    | some datagram =>
      some { s with
        requests := s.requests.eraseIdx i
        replies := s.replies ++ [dgEcho datagram] }
    | none => none
  | .loseRequest i =>
    if i < s.requests.length then some { s with requests := s.requests.eraseIdx i } else none
  | .repeatRequest i =>
    match s.requests[i]? with
    | some datagram => some { s with requests := s.requests ++ [datagram] }
    | none => none
  | .loseReply i =>
    if i < s.replies.length then some { s with replies := s.replies.eraseIdx i } else none
  | .repeatReply i =>
    match s.replies[i]? with
    | some datagram => some { s with replies := s.replies ++ [datagram] }
    | none => none
  | .stray datagram => some { s with replies := s.replies ++ [datagram] }

/-- A datagram from someone else is too short for a header. -/
def Brief (_ : Exchange) : ExchangeEvent → Prop
  | .stray datagram => datagram.length < hdrSize
  | _ => True

/-- The line that is printed for one that was read. -/
def answer (line : List Byte) : List Byte := (cString line).take (maxline - hdrSize)

/-! ### What is on its way -/

theorem length_sendmsg (sendhdr : Hdr) (outbuff : List Byte) :
    (sendmsg sendhdr outbuff).length = hdrSize + outbuff.length := by
  simp only [sendmsg, List.length_append, length_bytesOfWord, hdrSize]

theorem recvmsg_dgEcho (datagram : List Byte) : recvmsg (dgEcho datagram) = dgEcho datagram := by
  refine List.take_of_length_le ?_
  rw [dgEcho, List.length_take]
  exact Nat.le_trans (Nat.min_le_left _ _) (Nat.le_add_left _ _)

/-- The server sends a header back as it came. -/
theorem recvhdrSeq_dgEcho_sendmsg (sendhdr : Hdr) (outbuff : List Byte) :
    recvhdrSeq (dgEcho (sendmsg sendhdr outbuff)) = sendhdr.seq := by
  have hlength : (bytesOfWord 4 sendhdr.seq).length = 4 := length_bytesOfWord 4 sendhdr.seq
  have hfour : (dgEcho (sendmsg sendhdr outbuff)).take 4 = bytesOfWord 4 sendhdr.seq := by
    rw [dgEcho, List.take_take, sendmsg, List.append_assoc]
    exact List.take_left' hlength
  rw [recvhdrSeq, hfour]
  exact wordOfBytes_bytesOfWord rfl sendhdr.seq

theorem drop_dgEcho_sendmsg (sendhdr : Hdr) (outbuff : List Byte) :
    (dgEcho (sendmsg sendhdr outbuff)).drop hdrSize = outbuff.take (maxline - hdrSize) := by
  have hlength : (bytesOfWord 4 sendhdr.seq ++ bytesOfWord 4 sendhdr.ts).length = hdrSize := by
    rw [List.length_append, length_bytesOfWord, length_bytesOfWord]
    rfl
  rw [dgEcho, List.drop_take, sendmsg, List.drop_left' hlength]

theorem cString_take_cString (count : ℕ) (buffer : List Byte) :
    cString ((cString buffer).take count) = (cString buffer).take count := by
  refine List.takeWhile_eq_self_iff.mpr fun byte hbyte ↦ ?_
  have hstring : byte ∈ buffer.takeWhile (· != 0) := List.mem_of_mem_take hbyte
  have htest := List.mem_takeWhile_imp hstring
  exact htest

/-- A datagram of one of the requests so far: the one with number `k + 1`. -/
def IsRequest (asked : List (List Byte)) (datagram : List Byte) : Prop :=
  ∃ (k : ℕ) (line : List Byte) (ts : BitVec 32), asked[k]? = some line ∧
    datagram = sendmsg ⟨BitVec.ofNat 32 (k + 1), ts⟩ (cString line)

/-- The answer to one of the requests so far. -/
def IsReply (asked : List (List Byte)) (datagram : List Byte) : Prop :=
  datagram.length < hdrSize ∨ ∃ request, IsRequest asked request ∧ datagram = dgEcho request

/-- `printed` is the answer to a request whose number agrees with `number` in 32 bits. -/
def Answers (asked : List (List Byte)) (number : ℕ) (printed : List Byte) : Prop :=
  ∃ (k : ℕ) (line : List Byte), asked[k]? = some line ∧
    BitVec.ofNat 32 (k + 1) = BitVec.ofNat 32 number ∧ printed = answer line

theorem getElem?_append_some {α : Type*} {first : List α} {i : ℕ} {a : α} (h : first[i]? = some a)
    (second : List α) : (first ++ second)[i]? = some a := by
  rw [List.getElem?_append_left (List.getElem?_eq_some_iff.mp h).1]
  exact h

theorem IsRequest.append {asked : List (List Byte)} {datagram : List Byte}
    (h : IsRequest asked datagram) (line : List Byte) : IsRequest (asked ++ [line]) datagram := by
  obtain ⟨k, old, ts, hold, heq⟩ := h
  exact ⟨k, old, ts, getElem?_append_some hold _, heq⟩

theorem IsReply.append {asked : List (List Byte)} {datagram : List Byte}
    (h : IsReply asked datagram) (line : List Byte) : IsReply (asked ++ [line]) datagram := by
  rcases h with hshort | ⟨request, hrequest, heq⟩
  · exact .inl hshort
  · exact .inr ⟨request, hrequest.append line, heq⟩

theorem Answers.append {asked : List (List Byte)} {number : ℕ} {printed : List Byte}
    (h : Answers asked number printed) (line : List Byte) :
    Answers (asked ++ [line]) number printed := by
  obtain ⟨k, old, hold, hnumber, heq⟩ := h
  exact ⟨k, old, getElem?_append_some hold _, hnumber, heq⟩

/-- A datagram that is taken as the reply answers a request with the number asked for. -/
theorem answers_of_received {asked : List (List Byte)} {datagram reply : List Byte} {number : ℕ}
    (hreply : IsReply asked datagram)
    (hreceived : afterRecvmsg (BitVec.ofNat 32 number) (recvmsg datagram) = .received reply) :
    Answers asked number (cString reply) := by
  unfold afterRecvmsg at hreceived
  split_ifs at hreceived with hpassed
  obtain ⟨hlong, hseq⟩ := not_or.mp hpassed
  cases hreceived
  rcases hreply with hshort | ⟨_, ⟨k, line, ts, hline, rfl⟩, rfl⟩
  · have hle : (recvmsg datagram).length ≤ datagram.length := List.length_take_le' _ _
    omega
  · rw [recvmsg_dgEcho] at hseq ⊢
    rw [recvhdrSeq_dgEcho_sendmsg, not_not] at hseq
    refine ⟨k, line, hline, hseq, ?_⟩
    rw [drop_dgEcho_sendmsg, cString_take_cString]
    rfl

/-! ### What every step preserves -/

/-- A request has been read that is not answered. -/
def Place.asking : Place → ℕ
  | .reading | .finished => 0
  | .sending | .receiving | .received _ | .failed => 1

/-- What is on its way belongs to requests made before, and what is printed answers one with the right
number. -/
structure Consistent (lines : List (List Byte)) (s : Exchange) : Prop where
  lines_eq : s.asked ++ s.lines = lines
  seq_eq : s.seq = BitVec.ofNat 32 s.asked.length
  sendline_eq : s.place.asking = 1 → ∃ line, s.asked.getLast? = some line ∧ s.sendline = cString line
  requests : ∀ datagram ∈ s.requests, IsRequest s.asked datagram
  replies : ∀ datagram ∈ s.replies, IsReply s.asked datagram
  received : ∀ reply, s.place = .received reply → Answers s.asked s.asked.length (cString reply)
  answers : ∀ (k : ℕ) (printed : List Byte), s.printed[k]? = some printed →
    Answers s.asked (k + 1) printed
  length_eq : s.printed.length + s.place.asking = s.asked.length
  finished : s.place = .finished → s.lines = []

variable {lines : List (List Byte)} {s next : Exchange}

theorem Consistent.start (lines : List (List Byte)) : Consistent lines (.start lines) where
  lines_eq := rfl
  seq_eq := rfl
  sendline_eq hasking := by cases hasking
  requests _ hdatagram := by cases hdatagram
  replies _ hdatagram := by cases hdatagram
  received _ hplace := by cases hplace
  answers _ _ hprinted := by cases hprinted
  length_eq := rfl
  finished hplace := by cases hplace

namespace Consistent

/-- The network and the server change only what is on its way. -/
theorem carry {requests replies : List (List Byte)} (h : Consistent lines s)
    (hrequests : ∀ datagram ∈ requests, IsRequest s.asked datagram)
    (hreplies : ∀ datagram ∈ replies, IsReply s.asked datagram) :
    Consistent lines { s with requests := requests, replies := replies } :=
  { h with
    requests := hrequests
    replies := hreplies }

/-- `sendagain` after a timeout, or the end of the attempts. -/
theorem alarm (h : Consistent lines s) (htimed : s.place.isTimed = true) (nrexmt : ℕ) {place : Place}
    (hplace : place = .sending ∨ place = .failed) :
    Consistent lines { s with nrexmt := nrexmt, place := place } := by
  have hasking : s.place.asking = place.asking := by
    rcases hplace with rfl | rfl
    all_goals
      cases hbefore : s.place with
      | reading | finished =>
        rw [hbefore] at htimed
        cases htimed
      | _ => rfl
  have hreceived : ∀ reply, place ≠ .received reply := by
    rintro reply rfl
    rcases hplace with heq | heq <;> cases heq
  have hfinished : place ≠ .finished := by
    rintro rfl
    rcases hplace with heq | heq <;> cases heq
  exact { h with
    sendline_eq := hasking ▸ h.sendline_eq
    received := fun reply heq ↦ absurd heq (hreceived reply)
    length_eq := hasking ▸ h.length_eq
    finished := fun heq ↦ absurd heq hfinished }

/-- The next line is read. -/
theorem fgets (h : Consistent lines s) (hplace : s.place = .reading) {line : List Byte}
    {rest : List (List Byte)} (hlines : s.lines = line :: rest) :
    Consistent lines { s with
      lines := rest
      place := .sending
      seq := s.seq + 1
      nrexmt := 0
      sendline := cString line
      asked := s.asked ++ [line]
      sent := 0 } where
  lines_eq := by
    rw [← h.lines_eq, hlines, List.append_assoc]
    rfl
  seq_eq := by
    rw [h.seq_eq, List.length_append, List.length_singleton, BitVec.ofNat_add]
    rfl
  sendline_eq _ := ⟨line, List.getLast?_concat, rfl⟩
  requests datagram hdatagram := (h.requests datagram hdatagram).append line
  replies datagram hdatagram := (h.replies datagram hdatagram).append line
  received _ heq := by cases heq
  answers k printed hprinted := (h.answers k printed hprinted).append line
  length_eq := by
    have hlength := h.length_eq
    rw [hplace] at hlength
    rw [List.length_append, List.length_singleton, ← hlength]
    rfl
  finished heq := by cases heq

/-- The request of the present line is sent. -/
theorem sendmsg (h : Consistent lines s) (hplace : s.place = .sending) (ts : BitVec 32) (sent : ℕ) :
    Consistent lines { s with
      place := .receiving
      requests := s.requests ++ [ReliableDatagram.sendmsg ⟨s.seq, ts⟩ s.sendline]
      sent := sent } := by
  have hasking : s.place.asking = 1 := by
    rw [hplace]
    rfl
  obtain ⟨line, hlast, hsendline⟩ := h.sendline_eq hasking
  refine { h with
    sendline_eq := fun _ ↦ ⟨line, hlast, hsendline⟩
    requests := fun datagram hdatagram ↦ ?_
    received := fun _ heq ↦ by cases heq
    length_eq := ?_
    finished := fun heq ↦ by cases heq }
  · rcases List.mem_append.mp hdatagram with hold | hnew
    · exact h.requests datagram hold
    · rw [List.mem_singleton] at hnew
      have hlength := h.length_eq
      rw [List.getLast?_eq_getElem?] at hlast
      refine ⟨s.asked.length - 1, line, ts, hlast, ?_⟩
      rw [hnew, hsendline, h.seq_eq, Nat.sub_add_cancel (by omega)]
  · have hlength := h.length_eq
    rw [hasking] at hlength
    exact hlength

/-- A datagram comes in. -/
theorem recvmsg (h : Consistent lines s) (hplace : s.place = .receiving) {i : ℕ}
    {datagram : List Byte} (hdatagram : s.replies[i]? = some datagram) :
    Consistent lines { s with
      replies := s.replies.eraseIdx i
      place := afterRecvmsg s.seq (ReliableDatagram.recvmsg datagram) } := by
  have hreply := h.replies datagram (List.mem_of_getElem? hdatagram)
  have hasking : s.place.asking =
      (afterRecvmsg s.seq (ReliableDatagram.recvmsg datagram)).asking := by
    rw [hplace, afterRecvmsg]
    split_ifs <;> rfl
  refine { h with
    sendline_eq := hasking ▸ h.sendline_eq
    replies := fun other hother ↦ h.replies other (List.mem_of_mem_eraseIdx hother)
    received := fun reply hreceived ↦ ?_
    length_eq := hasking ▸ h.length_eq
    finished := fun heq ↦ ?_ }
  · rw [h.seq_eq] at hreceived
    exact answers_of_received hreply hreceived
  · rw [afterRecvmsg] at heq
    split_ifs at heq

/-- The reply is printed. -/
theorem stop (h : Consistent lines s) {reply : List Byte} (hplace : s.place = .received reply) :
    Consistent lines { s with place := .reading, printed := s.printed ++ [cString reply] } := by
  have hlength := h.length_eq
  rw [hplace] at hlength
  simp only [Place.asking] at hlength
  refine { h with
    sendline_eq := fun heq ↦ by cases heq
    received := fun _ heq ↦ by cases heq
    answers := fun k printed hprinted ↦ ?_
    length_eq := ?_
    finished := fun heq ↦ by cases heq }
  · rcases Nat.lt_trichotomy k s.printed.length with hlt | rfl | hgt
    · rw [List.getElem?_append_left hlt] at hprinted
      exact h.answers k printed hprinted
    · rw [List.getElem?_concat_length] at hprinted
      cases hprinted
      rw [hlength]
      exact h.received reply hplace
    · rw [List.getElem?_eq_none (by rw [List.length_append, List.length_singleton]; omega)] at hprinted
      cases hprinted
  · rw [List.length_append, List.length_singleton]
    exact hlength

theorem step (h : Consistent lines s) {event : ExchangeEvent} (hbrief : Brief s event)
    (htaken : exchangeStep s event = some next) : Consistent lines next := by
  cases event with
  | fgets =>
    simp only [exchangeStep] at htaken
    split_ifs at htaken with hplace
    split at htaken
    · next hlines =>
      cases htaken
      refine { h with
        sendline_eq := fun heq ↦ by cases heq
        received := fun _ heq ↦ by cases heq
        length_eq := ?_
        finished := fun _ ↦ hlines }
      have hlength := h.length_eq
      rw [hplace] at hlength
      exact hlength
    · next line rest hlines =>
      cases htaken
      exact h.fgets hplace hlines
  | sendmsg ts =>
    simp only [exchangeStep] at htaken
    split_ifs at htaken with hplace
    cases htaken
    exact h.sendmsg hplace ts _
  | alarm =>
    simp only [exchangeStep] at htaken
    split at htaken
    · next htimed =>
      cases htaken
      refine h.alarm htimed _ ?_
      split_ifs
      · exact .inr rfl
      · exact .inl rfl
    · cases htaken
  | recvmsg i =>
    simp only [exchangeStep] at htaken
    split_ifs at htaken with hplace
    split at htaken
    · next datagram hdatagram =>
      cases htaken
      exact h.recvmsg hplace hdatagram
    · cases htaken
  | stop =>
    simp only [exchangeStep] at htaken
    split at htaken
    · next reply hplace =>
      cases htaken
      exact h.stop hplace
    · cases htaken
  | dgEcho i =>
    simp only [exchangeStep] at htaken
    split at htaken
    · next request hrequest =>
      cases htaken
      refine h.carry (fun other hother ↦ h.requests other (List.mem_of_mem_eraseIdx hother)) ?_
      intro datagram hdatagram
      rcases List.mem_append.mp hdatagram with hold | hnew
      · exact h.replies datagram hold
      · exact .inr ⟨request, h.requests request (List.mem_of_getElem? hrequest),
          List.mem_singleton.mp hnew⟩
    · cases htaken
  | loseRequest i =>
    simp only [exchangeStep] at htaken
    split_ifs at htaken
    cases htaken
    exact h.carry (fun other hother ↦ h.requests other (List.mem_of_mem_eraseIdx hother)) h.replies
  | repeatRequest i =>
    simp only [exchangeStep] at htaken
    split at htaken
    · next request hrequest =>
      cases htaken
      refine h.carry (fun datagram hdatagram ↦ ?_) h.replies
      rcases List.mem_append.mp hdatagram with hold | hnew
      · exact h.requests datagram hold
      · rw [List.mem_singleton.mp hnew]
        exact h.requests request (List.mem_of_getElem? hrequest)
    · cases htaken
  | loseReply i =>
    simp only [exchangeStep] at htaken
    split_ifs at htaken
    cases htaken
    exact h.carry h.requests fun other hother ↦ h.replies other (List.mem_of_mem_eraseIdx hother)
  | repeatReply i =>
    simp only [exchangeStep] at htaken
    split at htaken
    · next reply hreply =>
      cases htaken
      refine h.carry h.requests fun datagram hdatagram ↦ ?_
      rcases List.mem_append.mp hdatagram with hold | hnew
      · exact h.replies datagram hold
      · rw [List.mem_singleton.mp hnew]
        exact h.replies reply (List.mem_of_getElem? hreply)
    · cases htaken
  | stray datagram =>
    cases htaken
    refine h.carry h.requests fun other hother ↦ ?_
    rcases List.mem_append.mp hother with hold | hnew
    · exact h.replies other hold
    · rw [List.mem_singleton] at hnew
      exact .inl (hnew ▸ hbrief)

end Consistent

theorem consistent_of_run (hrun : Run exchangeStep Brief (.start lines) s) : Consistent lines s :=
  hrun.invariant (.start lines) fun _ _ _ h hbrief htaken ↦ h.step hbrief htaken

/-! ### The lines that are printed -/

/-- The first `2 ^ 32` numbers are different in 32 bits. -/
theorem eq_of_ofNat_eq {first second : ℕ} (hfirst : first < 2 ^ 32) (hsecond : second < 2 ^ 32)
    (heq : BitVec.ofNat 32 (first + 1) = BitVec.ofNat 32 (second + 1)) : first = second := by
  have hmod := congrArg BitVec.toNat heq
  simp only [BitVec.toNat_ofNat] at hmod
  omega

theorem Consistent.printed_prefix (h : Consistent lines s) (hfew : lines.length ≤ 2 ^ 32) :
    s.printed <+: lines.map answer := by
  have hasked : s.asked.length ≤ lines.length := by
    rw [← h.lines_eq, List.length_append]
    exact Nat.le_add_right _ _
  refine List.prefix_iff_getElem?.mpr fun k hk ↦ ?_
  obtain ⟨j, line, hline, hnumber, heq⟩ := h.answers k _ (List.getElem?_eq_getElem hk)
  have hj : j < s.asked.length := (List.getElem?_eq_some_iff.mp hline).1
  have hlength := h.length_eq
  obtain rfl := eq_of_ofNat_eq (by omega) (by omega) hnumber
  rw [List.getElem?_map, ← h.lines_eq, getElem?_append_some hline, Option.map_some, heq]

/-- At the end of the input every line has been answered. -/
theorem Consistent.length_printed (h : Consistent lines s) (hfinished : s.place = .finished) :
    s.printed.length = lines.length := by
  have hlength := h.length_eq
  rw [hfinished] at hlength
  rw [← h.lines_eq, h.finished hfinished, List.append_nil, ← hlength]
  rfl

/-! ### A reply from `2 ^ 32` requests ago -/

/-- A line is read and sent. -/
theorem run_ask {line : List Byte} {rest : List (List Byte)} (hplace : s.place = .reading)
    (hlines : s.lines = line :: rest) :
    Run exchangeStep Brief s { s with
      lines := rest
      place := .receiving
      seq := s.seq + 1
      nrexmt := 0
      sendline := cString line
      requests := s.requests ++ [sendmsg ⟨s.seq + 1, 0⟩ (cString line)]
      asked := s.asked ++ [line]
      sent := 1 } := by
  have hfgets : exchangeStep s .fgets = some { s with
      lines := rest
      place := .sending
      seq := s.seq + 1
      nrexmt := 0
      sendline := cString line
      asked := s.asked ++ [line]
      sent := 0 } := by
    simp only [exchangeStep, hplace, hlines, if_true]
  exact .tail (.sendmsg 0) (.tail .fgets .refl trivial hfgets) trivial rfl

theorem afterRecvmsg_dgEcho (sendhdr : Hdr) (outbuff : List Byte) :
    afterRecvmsg sendhdr.seq (recvmsg (dgEcho (sendmsg sendhdr outbuff))) =
      .received (outbuff.take (maxline - hdrSize)) := by
  have hlong : ¬ (dgEcho (sendmsg sendhdr outbuff)).length < hdrSize := by
    rw [dgEcho, List.length_take, length_sendmsg]
    simp only [maxline, hdrSize]
    omega
  rw [recvmsg_dgEcho, afterRecvmsg, recvhdrSeq_dgEcho_sendmsg,
    if_neg (not_or.mpr ⟨hlong, not_not_intro rfl⟩), drop_dgEcho_sendmsg]

/-- A reply with the right number comes in and is printed. -/
theorem run_reply (i : ℕ) (ts : BitVec 32) (line : List Byte) (hplace : s.place = .receiving)
    (hreply : s.replies[i]? = some (dgEcho (sendmsg ⟨s.seq, ts⟩ (cString line)))) :
    Run exchangeStep Brief s { s with
      place := .reading
      replies := s.replies.eraseIdx i
      printed := s.printed ++ [answer line] } := by
  have hrecvmsg : exchangeStep s (.recvmsg i) = some { s with
      replies := s.replies.eraseIdx i
      place := .received (answer line) } := by
    have hreceived := afterRecvmsg_dgEcho ⟨s.seq, ts⟩ (cString line)
    simp only [exchangeStep, hplace, hreply, if_true]
    rw [hreceived]
    rfl
  have hstop : cString (answer line) = answer line := cString_take_cString _ line
  refine .tail .stop (.tail (.recvmsg i) .refl trivial hrecvmsg) trivial ?_
  simp only [exchangeStep, hstop]

/-- A line is answered, and what is left of older replies stays. -/
theorem run_call {line : List Byte} {rest : List (List Byte)} (hplace : s.place = .reading)
    (hlines : s.lines = line :: rest) (hrequests : s.requests = []) :
    ∃ finish, Run exchangeStep Brief s finish ∧ finish.place = .reading ∧ finish.lines = rest ∧
      finish.requests = [] ∧ finish.replies = s.replies ∧ finish.seq = s.seq + 1 ∧
      finish.printed.length = s.printed.length + 1 := by
  have hask := run_ask hplace hlines
  rw [hrequests] at hask
  have hecho : Run exchangeStep Brief s { s with
      lines := rest
      place := .receiving
      seq := s.seq + 1
      nrexmt := 0
      sendline := cString line
      requests := []
      replies := s.replies ++ [dgEcho (sendmsg ⟨s.seq + 1, 0⟩ (cString line))]
      asked := s.asked ++ [line]
      sent := 1 } := .tail (.dgEcho 0) hask trivial rfl
  have hcall := hecho.trans (run_reply s.replies.length 0 line rfl List.getElem?_concat_length)
  refine ⟨_, hcall, rfl, rfl, rfl, ?_, rfl, List.length_append⟩
  show (s.replies ++ [_]).eraseIdx s.replies.length = s.replies
  rw [List.eraseIdx_append_of_length_le (Nat.le_refl _), Nat.sub_self, List.eraseIdx_cons_zero,
    List.append_nil]

/-- Lines are answered one after the other. -/
theorem run_calls {calls rest : List (List Byte)} (hplace : s.place = .reading)
    (hlines : s.lines = calls ++ rest) (hrequests : s.requests = []) :
    ∃ finish, Run exchangeStep Brief s finish ∧ finish.place = .reading ∧ finish.lines = rest ∧
      finish.replies = s.replies ∧ finish.seq = s.seq + BitVec.ofNat 32 calls.length ∧
      finish.printed.length = s.printed.length + calls.length := by
  induction calls generalizing s with
  | nil => exact ⟨s, .refl, hplace, hlines, rfl, (BitVec.add_zero _).symm, rfl⟩
  | cons line calls ih =>
    obtain ⟨next, hfirst, hreading, hothers, hnone, hreplies, hseq, hprinted⟩ :=
      run_call hplace hlines hrequests
    obtain ⟨finish, hrun, hend, hrest, hlater, hlast, hlength⟩ := ih hreading hothers hnone
    refine ⟨finish, hfirst.trans hrun, hend, hrest, hlater.trans hreplies, ?_, ?_⟩
    · rw [hlast, hseq, List.length_cons, Nat.add_comm calls.length, BitVec.ofNat_add,
        ← BitVec.add_assoc]
      rfl
    · rw [hlength, hprinted, List.length_cons]
      omega

/-- The first line, and all others. -/
def firstLine : List Byte := [1]

@[inherit_doc firstLine] def otherLine : List Byte := [2]

/-- The first request is repeated, and its second reply is read `2 ^ 32` requests later. -/
theorem exists_stale {n : ℕ} (hmany : 2 ^ 32 < n) :
    ∃ s, Run exchangeStep Brief (.start (firstLine :: List.replicate (n - 1) otherLine)) s ∧
      s.printed[2 ^ 32]? = some (answer firstLine) := by
  have hsplit : List.replicate (n - 1) otherLine =
      List.replicate (2 ^ 32 - 1) otherLine ++ otherLine :: List.replicate (n - 1 - 2 ^ 32) otherLine := by
    rw [← List.replicate_succ, List.replicate_append_replicate]
    congr 1
    omega
  -- the first request and its copy are both answered, and one of the replies is read
  have hfirst : ∃ next, Run exchangeStep Brief
      (.start (firstLine :: List.replicate (n - 1) otherLine)) next ∧ next.place = .reading ∧
      next.lines = List.replicate (n - 1) otherLine ∧ next.requests = [] ∧
      next.replies = [dgEcho (sendmsg ⟨1, 0⟩ (cString firstLine))] ∧ next.seq = 1 ∧
      next.printed.length = 1 := by
    have hask : Run exchangeStep Brief
        (.start (firstLine :: List.replicate (n - 1) otherLine)) _ := run_ask rfl rfl
    have hrepeat := Run.tail (ExchangeEvent.repeatRequest 0) hask trivial rfl
    have honce := Run.tail (ExchangeEvent.dgEcho 0) hrepeat trivial rfl
    have htwice := Run.tail (ExchangeEvent.dgEcho 0) honce trivial rfl
    exact ⟨_, htwice.trans (run_reply 0 0 firstLine rfl rfl), rfl, rfl, rfl, rfl, rfl, rfl⟩
  obtain ⟨next, hstart, hreading, hlines, hnone, hreplies, hseq, hprinted⟩ := hfirst
  obtain ⟨before, hcalls, hplace, hrest, hstale, hwrapped, hcount⟩ :=
    run_calls hreading (hlines.trans hsplit) hnone
  rw [hseq, List.length_replicate] at hwrapped
  rw [hprinted, List.length_replicate] at hcount
  rw [hreplies] at hstale
  have hask := run_ask hplace hrest
  have hlate := hask.trans (run_reply 0 0 firstLine rfl (by
    show before.replies[0]? = _
    rw [hstale, hwrapped]
    rfl))
  refine ⟨_, hstart.trans (hcalls.trans hlate), ?_⟩
  show (before.printed ++ [answer firstLine])[2 ^ 32]? = _
  have hlength : before.printed.length = 2 ^ 32 := by omega
  rw [← hlength, List.getElem?_concat_length]

/-- With a number of lines, every run prints answers to them in order and has printed them all when it
comes to the end of the input, exactly if there are no more than `2 ^ 32` lines. -/
theorem prints_answers_iff (n : ℕ) :
    (∀ (lines : List (List Byte)) (s : Exchange), lines.length = n →
      Run exchangeStep Brief (.start lines) s →
        s.printed <+: lines.map answer ∧ (s.place = .finished → s.printed.length = n)) ↔
      n ≤ 2 ^ 32 := by
  constructor
  · intro hprints
    by_contra hmany
    rw [Nat.not_le] at hmany
    obtain ⟨s, hrun, hlate⟩ := exists_stale hmany
    have hlength : (firstLine :: List.replicate (n - 1) otherLine).length = n := by
      rw [List.length_cons, List.length_replicate]
      omega
    obtain ⟨rest, hrest⟩ := (hprints _ s hlength hrun).1
    have hsame := getElem?_append_some hlate rest
    rw [hrest, List.map_cons, List.map_replicate] at hsame
    have hother : (answer firstLine :: List.replicate (n - 1) (answer otherLine))[2 ^ 32 - 1 + 1]? =
        some (answer otherLine) := by
      rw [List.getElem?_cons_succ, List.getElem?_replicate, if_pos (by omega)]
    exact absurd (Option.some.inj (hsame.symm.trans hother)) (by decide)
  · rintro hfew lines s rfl hrun
    have h := consistent_of_run hrun
    exact ⟨h.printed_prefix hfew, h.length_printed⟩

/-! ### The number of attempts -/

/-- The client has come to its end. -/
def Place.isEnd : Place → Bool
  | .finished | .failed => true
  | _ => false

/-- A step of the client itself. -/
def ExchangeEvent.isClient : ExchangeEvent → Bool
  | .fgets | .sendmsg _ | .alarm | .recvmsg _ | .stop => true
  | _ => false

/-- The network repeats nothing, and nobody else sends anything. -/
def ExchangeEvent.isPlain : ExchangeEvent → Bool
  | .repeatRequest _ | .repeatReply _ | .stray _ => false
  | _ => true

/-- The steps that the present request can still take, but for those of datagrams on their way. -/
def Place.work (nrexmt : ℕ) : Place → ℕ
  | .reading => 1
  | .sending => 4 * (rttMaxnrexmt - nrexmt) + 5
  | .receiving | .received _ => 4 * (rttMaxnrexmt - nrexmt) + 2
  | .finished | .failed => 0

/-- A bound on the steps to the end. -/
def work (s : Exchange) : ℕ :=
  17 * s.lines.length + s.place.work s.nrexmt + 2 * s.requests.length + s.replies.length

/-- A request is sent once more than it timed out, and for the last time after three timeouts. -/
structure Counted (s : Exchange) : Prop where
  sent_le : s.sent ≤ rttMaxnrexmt + 1
  sending : s.place = .sending → s.sent = s.nrexmt ∧ s.nrexmt ≤ rttMaxnrexmt
  timed : s.place.isTimed = true → s.sent = s.nrexmt + 1 ∧ s.nrexmt ≤ rttMaxnrexmt
  failed : s.place = .failed → s.sent = rttMaxnrexmt + 1

namespace Counted

theorem step (h : Counted s) {event : ExchangeEvent} (htaken : exchangeStep s event = some next) :
    Counted next := by
  cases event with
  | fgets =>
    simp only [exchangeStep] at htaken
    split_ifs at htaken with hplace
    split at htaken
    · cases htaken
      exact ⟨h.sent_le, (fun heq ↦ by cases heq), (fun heq ↦ by cases heq),
        fun heq ↦ by cases heq⟩
    · cases htaken
      exact ⟨Nat.zero_le _, fun _ ↦ ⟨rfl, Nat.zero_le _⟩, (fun heq ↦ by cases heq),
        fun heq ↦ by cases heq⟩
  | sendmsg ts =>
    simp only [exchangeStep] at htaken
    split_ifs at htaken with hplace
    cases htaken
    obtain ⟨hsent, hle⟩ := h.sending hplace
    exact ⟨Nat.succ_le_succ (hsent ▸ hle), (fun heq ↦ by cases heq),
      fun _ ↦ ⟨congrArg Nat.succ hsent, hle⟩, fun heq ↦ by cases heq⟩
  | alarm =>
    simp only [exchangeStep] at htaken
    split at htaken
    · next htimed =>
      cases htaken
      obtain ⟨hsent, hle⟩ := h.timed htimed
      by_cases hlast : rttMaxnrexmt < s.nrexmt + 1
      · simp only [if_pos hlast]
        refine ⟨h.sent_le, (fun heq ↦ by cases heq), (fun heq ↦ by cases heq), fun _ ↦ ?_⟩
        simp only
        omega
      · simp only [if_neg hlast]
        exact ⟨h.sent_le, fun _ ↦ ⟨hsent, Nat.not_lt.mp hlast⟩, (fun heq ↦ by cases heq),
          fun heq ↦ by cases heq⟩
    · cases htaken
  | recvmsg i =>
    simp only [exchangeStep] at htaken
    split_ifs at htaken with hplace
    split at htaken
    · next datagram hdatagram =>
      cases htaken
      have htimed := h.timed (by rw [hplace]; rfl)
      refine ⟨h.sent_le, fun heq ↦ ?_, fun _ ↦ htimed, fun heq ↦ ?_⟩
      all_goals
        simp only [afterRecvmsg] at heq
        split_ifs at heq
    · cases htaken
  | stop =>
    simp only [exchangeStep] at htaken
    split at htaken
    · cases htaken
      exact ⟨h.sent_le, (fun heq ↦ by cases heq), (fun heq ↦ by cases heq),
        fun heq ↦ by cases heq⟩
    · cases htaken
  | loseRequest i | loseReply i =>
    simp only [exchangeStep] at htaken
    split_ifs at htaken
    cases htaken
    exact ⟨h.sent_le, h.sending, h.timed, h.failed⟩
  | dgEcho i | repeatRequest i | repeatReply i =>
    simp only [exchangeStep] at htaken
    split at htaken
    · cases htaken
      exact ⟨h.sent_le, h.sending, h.timed, h.failed⟩
    · cases htaken
  | stray datagram =>
    cases htaken
    exact ⟨h.sent_le, h.sending, h.timed, h.failed⟩

end Counted

theorem counted_of_run {lines : List (List Byte)} (hrun : Reachable exchangeStep (.start lines) s) :
    Counted s := by
  refine hrun.invariant ⟨Nat.zero_le _, fun heq ↦ ?_, fun heq ↦ ?_, fun heq ↦ ?_⟩
    fun _ _ _ h _ htaken ↦ h.step htaken
  all_goals cases heq

/-- Every step but a repetition or a stray does a part of the work. -/
theorem work_lt_of_step {event : ExchangeEvent} (hplain : event.isPlain = true)
    (htaken : exchangeStep s event = some next) : work next < work s := by
  cases event with
  | fgets =>
    simp only [exchangeStep] at htaken
    split_ifs at htaken with hplace
    split at htaken
    · next hlines =>
      cases htaken
      simp only [work, hplace, Place.work]
      omega
    · next line rest hlines =>
      cases htaken
      simp only [work, hplace, hlines, Place.work, rttMaxnrexmt, List.length_cons]
      omega
  | sendmsg ts =>
    simp only [exchangeStep] at htaken
    split_ifs at htaken with hplace
    cases htaken
    simp only [work, hplace, Place.work, List.length_append, List.length_singleton]
    omega
  | alarm =>
    simp only [exchangeStep] at htaken
    split at htaken
    · next htimed =>
      cases htaken
      have hwork : s.place.work s.nrexmt = 4 * (rttMaxnrexmt - s.nrexmt) + 2 := by
        cases hplace : s.place with
        | receiving | received reply => rfl
        | _ =>
          rw [hplace] at htimed
          cases htimed
      simp only [work, hwork]
      split_ifs
      · simp only [Place.work]
        omega
      · simp only [Place.work]
        omega
    · cases htaken
  | recvmsg i =>
    simp only [exchangeStep] at htaken
    split_ifs at htaken with hplace
    split at htaken
    · next datagram hdatagram =>
      cases htaken
      have hlt := (List.getElem?_eq_some_iff.mp hdatagram).1
      have hwork : (afterRecvmsg s.seq (recvmsg datagram)).work s.nrexmt = s.place.work s.nrexmt := by
        rw [hplace, afterRecvmsg]
        split_ifs <;> rfl
      simp only [work, hwork, List.length_eraseIdx_of_lt hlt]
      omega
    · cases htaken
  | stop =>
    simp only [exchangeStep] at htaken
    split at htaken
    · next reply hplace =>
      cases htaken
      simp only [work, hplace, Place.work]
      omega
    · cases htaken
  | dgEcho i =>
    simp only [exchangeStep] at htaken
    split at htaken
    · next request hrequest =>
      cases htaken
      have hlt := (List.getElem?_eq_some_iff.mp hrequest).1
      simp only [work, List.length_eraseIdx_of_lt hlt, List.length_append, List.length_singleton]
      omega
    · cases htaken
  | loseRequest i =>
    simp only [exchangeStep] at htaken
    split_ifs at htaken with hlt
    cases htaken
    simp only [work, List.length_eraseIdx_of_lt hlt]
    omega
  | loseReply i =>
    simp only [exchangeStep] at htaken
    split_ifs at htaken with hlt
    cases htaken
    simp only [work, List.length_eraseIdx_of_lt hlt]
    omega
  | repeatRequest i | repeatReply i | stray datagram => cases hplain

/-- Before its end the client can always take a step: the timer is set while it waits. -/
theorem stuck_iff : (∀ event : ExchangeEvent, event.isClient = true → exchangeStep s event = none) ↔
    s.place.isEnd = true := by
  constructor
  · intro hstuck
    cases hplace : s.place with
    | finished | failed => rfl
    | reading =>
      have hfgets := hstuck .fgets rfl
      simp only [exchangeStep, hplace, if_true] at hfgets
      split at hfgets <;> cases hfgets
    | sending =>
      have hsendmsg := hstuck (.sendmsg 0) rfl
      simp only [exchangeStep, hplace, if_true, reduceCtorEq] at hsendmsg
    | receiving | received reply =>
      have halarm := hstuck .alarm rfl
      simp only [exchangeStep, hplace, Place.isTimed, if_true, reduceCtorEq] at halarm
  · intro hend event hclient
    cases hplace : s.place with
    | finished | failed =>
      cases event with
      | fgets | sendmsg ts | alarm | recvmsg i | stop =>
        simp only [exchangeStep, hplace, Place.isTimed, reduceCtorEq, Bool.false_eq_true, if_false]
      | _ => cases hclient
    | _ =>
      rw [hplace] at hend
      cases hend

/-- A request is sent at most four times, and the client fails only when it has been. Where the network
repeats nothing a run comes to the end of the client, which alone stops it, in a bounded number of
steps. -/
theorem exchange_ends {lines : List (List Byte)} (hrun : Reachable exchangeStep (.start lines) s) :
    s.sent ≤ rttMaxnrexmt + 1 ∧ (s.place = .failed → s.sent = rttMaxnrexmt + 1) ∧
      ((∀ event : ExchangeEvent, event.isClient = true → exchangeStep s event = none) ↔
        s.place.isEnd = true) ∧
      ∀ (events : List ExchangeEvent) (finish : Exchange),
        execute exchangeStep (fun _ event ↦ event.isPlain = true) s events = some finish →
          events.length ≤ work s := by
  have h := counted_of_run hrun
  refine ⟨h.sent_le, h.failed, stuck_iff, fun events finish hexecute ↦ ?_⟩
  exact length_le_of_measure work (fun _ _ _ hknown htaken ↦ Counted.step hknown htaken)
    (fun _ _ _ _ hplain htaken ↦ work_lt_of_step hplain htaken) h hexecute

/-- The state after a list of events, with one line to be answered. -/
def after (events : List ExchangeEvent) : Exchange :=
  (execute exchangeStep anyEvent (.start [firstLine]) events).getD (.start [firstLine])

theorem run_after {events : List ExchangeEvent}
    (hsome : (execute exchangeStep anyEvent (.start [firstLine]) events).isSome = true) :
    Reachable exchangeStep (.start [firstLine]) (after events) := by
  obtain ⟨s, hs⟩ := Option.isSome_iff_exists.mp hsome
  rw [after, hs]
  exact run_of_execute hs

/-- Nothing that is sent arrives. -/
def allLost : List ExchangeEvent :=
  .fgets :: (List.replicate 4 [.sendmsg 0, .loseRequest 0, .alarm]).flatten

theorem exchange_ends_allLost : (after allLost).sent = 4 :=
  (exchange_ends (run_after (by decide))).2.1 (by decide)

end CppLearn.Unp.ReliableDatagram
