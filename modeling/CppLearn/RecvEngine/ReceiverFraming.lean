import Mathlib.Tactic.IntervalCases
import CppLearn.RecvEngine.PacketReceiver

/-!
# What the receiver reads as head and payload

`recv_packet` takes the parts of the incoming messages in order and never looks at `ZMQ_RCVMORE`,
so where one message ends and the next begins is lost on it. `framedRows` is the resulting reading
of a stream of parts and timeouts: a part of the length of a head, followed by a part, is a row.
`Recorded.recvRun` shows that every sequence of calls that drains the socket records exactly these
rows.

The rows one would expect are `pairedRows`: a row for every message of two parts whose first is a
head, with its payload whole. `readsMessages_iff` says for which sizes of parts the two readings agree
whatever the parts hold.
-/

set_option autoImplicit false
set_option relaxedAutoImplicit false

namespace CppLearn.RecvEngine.ReceiverFraming

open Foundation.ByteOrder
open PacketDefine WorkRing PacketReceiver

/-! ### The stream behind the socket -/

/-- What successive calls of `zmq_recv` return for one arrival. -/
def outcomesOf : Arrival → List (Option Part)
  | .message first rest => some first :: rest.map some
  | .timeout => [none]

/-- What successive calls of `zmq_recv` will return until nothing more arrives. -/
def outcomes (socket : ZmqSocket) : List (Option Part) :=
  socket.unread.map some ++ socket.arrivals.flatMap outcomesOf

/-- The rows the receiver makes of a stream: a part of the length of a head is a head, and the part
that follows it, of whatever message, its payload. -/
def framedRows : List (Option Part) → List PacketRow
  | [] => []
  | none :: stream => framedRows stream
  | some part :: stream =>
    if part.length = packetHeaderLen then
      match stream with
      | [] => []
      | none :: stream => framedRows stream
      | some payload :: stream =>
        rowOfPacket (PacketHead.ofBytes part) payload :: framedRows stream
    else framedRows stream

/-- One call of `zmq_recv` takes the head of the stream. -/
theorem zmqRecv_outcomes (socket : ZmqSocket) :
    (zmqRecv socket).1 = (outcomes socket).head?.join ∧
      outcomes (zmqRecv socket).2 = (outcomes socket).tail := by
  rcases socket with ⟨_ | ⟨part, parts⟩, arrivals⟩
  · rcases arrivals with _ | ⟨_ | _, arrivals⟩ <;>
      simp [zmqRecv, outcomes, outcomesOf]
  · simp [zmqRecv, outcomes]

/-- Anything but a part of the length of a head is passed over. -/
theorem framedRows_cons_of_ne {outcome : Option Part} (stream : List (Option Part))
    (hlength : outcome.map List.length ≠ some packetHeaderLen) :
    framedRows (outcome :: stream) = framedRows stream := by
  rcases outcome with _ | part
  · rfl
  · have hne : part.length ≠ packetHeaderLen := fun h ↦ hlength (congrArg some h)
    rcases stream with _ | ⟨_ | payload, stream⟩ <;> simp [framedRows, hne]

/-- A part of the length of a head takes the next outcome with it. -/
theorem framedRows_cons_of_eq {part : Part} (stream : List (Option Part))
    (hlength : part.length = packetHeaderLen) :
    framedRows (some part :: stream) =
      (stream.head?.join.map (rowOfPacket (PacketHead.ofBytes part))).toList ++
        framedRows stream.tail := by
  rcases stream with _ | ⟨_ | payload, stream⟩ <;> simp [framedRows, hlength]

/-! ### One call -/

/-- A flush touches neither the socket nor the head nor the packets accepted. -/
theorem packetGroupFlushToMem_frame {attempts : List (List ℕ)} {pg : PacketGroup}
    {st next : Receiver} (hflush : packetGroupFlushToMem attempts pg st = some next) :
    next.socket = st.socket ∧ next.packetHeader = st.packetHeader ∧
      next.accepted = st.accepted := by
  unfold packetGroupFlushToMem at hflush
  split_ifs at hflush
  · obtain ⟨configs, -, rfl⟩ := Option.map_eq_some_iff.mp hflush
    exact ⟨rfl, rfl, rfl⟩
  · cases hflush
    exact ⟨rfl, rfl, rfl⟩

theorem dayChangeFlush_frame {env : RecvEnv} {input : RecvInput} {st next : Receiver}
    (hflush : dayChangeFlush env input st = some next) :
    next.socket = st.socket ∧ next.packetHeader = st.packetHeader ∧
      next.accepted = st.accepted := by
  unfold dayChangeFlush at hflush
  split at hflush
  · cases hflush
    exact ⟨rfl, rfl, rfl⟩
  · split_ifs at hflush
    · exact packetGroupFlushToMem_frame hflush
    · cases hflush
      exact ⟨rfl, rfl, rfl⟩

theorem finalFlush_frame {input : RecvInput} {pg : PacketGroup} {st next : Receiver}
    (hflush : finalFlush input pg st = some next) :
    next.socket = st.socket ∧ next.accepted = st.accepted := by
  unfold finalFlush at hflush
  split_ifs at hflush
  · obtain ⟨hsocket, -, haccepted⟩ := packetGroupFlushToMem_frame hflush
    exact ⟨hsocket, haccepted⟩
  · cases hflush
    exact ⟨rfl, rfl⟩

/-- What one call takes off the socket and accepts: after a part of the length of a head the next
part, if one comes. -/
theorem recvPacket_spec {env : RecvEnv} {input : RecvInput} {st next : Receiver}
    (hrecv : recvPacket env input st = some next) :
    if (zmqRecv st.socket).1.map List.length = some packetHeaderLen then
      next.socket = (zmqRecv (zmqRecv st.socket).2).2 ∧
        next.accepted = st.accepted ++ ((zmqRecv (zmqRecv st.socket).2).1.map
          (storeHead st.packetHeader (zmqRecv st.socket).1, ·)).toList
    else next.socket = (zmqRecv st.socket).2 ∧ next.accepted = st.accepted := by
  simp only [recvPacket, Option.bind_eq_bind, Option.bind_eq_some_iff] at hrecv
  obtain ⟨flushed, hday, last, hfinal, hnext⟩ := hrecv
  cases hnext
  obtain ⟨hsocket, hheader, haccepted⟩ := dayChangeFlush_frame hday
  obtain ⟨hlastSocket, hlastAccepted⟩ := finalFlush_frame hfinal
  simp only [onTimeout] at hsocket hheader haccepted hlastSocket hlastAccepted ⊢
  split_ifs at hlastSocket hlastAccepted ⊢
  · rw [hlastSocket, hlastAccepted, recvPayload, hsocket]
    split
    · next hpayload => simp [hpayload, haccepted]
    · next hpayload => simp [hpayload, haccepted, hheader]
  · exact ⟨hlastSocket.trans hsocket, hlastAccepted.trans haccepted⟩

/-- A whole head replaces the one that `packet_header` held. -/
theorem storeHead_of_length {part : Part} (ph : PacketHead)
    (hlength : part.length = packetHeaderLen) :
    storeHead ph (some part) = PacketHead.ofBytes part := by
  have hdrop : ph.toBytes.drop packetHeaderLen = [] :=
    List.drop_of_length_le ph.length_toBytes.le
  rw [storeHead, zmqStore, hlength, Nat.min_self, hdrop, List.append_nil,
    List.take_of_length_le hlength.le]

/-- The rows of the packets accepted, with those still to be made of the stream. -/
def recordable (st : Receiver) : List PacketRow :=
  (st.accepted.map fun packet ↦ rowOfPacket packet.1 packet.2) ++ framedRows (outcomes st.socket)

/-- One call moves the rows it makes from the stream to the packets accepted. -/
theorem recvPacket_recordable {env : RecvEnv} {input : RecvInput} {st next : Receiver}
    (hrecv : recvPacket env input st = some next) : recordable next = recordable st := by
  have hspec := recvPacket_spec hrecv
  obtain ⟨hfirst, hrest⟩ := zmqRecv_outcomes st.socket
  obtain ⟨hsecond, hlast⟩ := zmqRecv_outcomes (zmqRecv st.socket).2
  rw [hrest] at hsecond hlast
  split_ifs at hspec with hlength
  · obtain ⟨hsocket, haccepted⟩ := hspec
    obtain ⟨part, hpart, hpartLength⟩ := Option.map_eq_some_iff.mp hlength
    obtain ⟨stream, hstream⟩ : ∃ stream, outcomes st.socket = some part :: stream := by
      rw [hpart] at hfirst
      rcases houtcomes : outcomes st.socket with _ | ⟨outcome, stream⟩
      · simp [houtcomes] at hfirst
      · exact ⟨stream, by simp_all⟩
    rw [recordable, recordable, hsocket, haccepted, hlast, hsecond, hpart,
      storeHead_of_length _ hpartLength, hstream, framedRows_cons_of_eq _ hpartLength,
      List.map_append, List.append_assoc, List.tail_cons]
    congr 1
    cases stream.head?.join <;> rfl
  · obtain ⟨hsocket, haccepted⟩ := hspec
    rw [recordable, recordable, hsocket, haccepted, hrest]
    rcases houtcomes : outcomes st.socket with _ | ⟨outcome, stream⟩
    · rfl
    · rw [hfirst, houtcomes] at hlength
      rw [framedRows_cons_of_ne stream (by simpa using hlength), List.tail_cons]

/-- Every sequence of calls makes the rows of the stream it takes off the socket. -/
theorem recvRun_recordable {env : RecvEnv} {inputs : List RecvInput} {st last : Receiver}
    (hrun : recvRun env inputs st = some last) : recordable last = recordable st := by
  induction inputs generalizing st with
  | nil =>
    cases hrun
    rfl
  | cons input inputs ih =>
    obtain ⟨next, hnext, hrest⟩ := Option.bind_eq_some_iff.mp hrun
    rw [ih hrest, recvPacket_recordable hnext]

/-! ### The messages as they were sent -/

/-- The row of a packet with its payload whole. -/
def wholeRow (ph : PacketHead) (payload : Part) : PacketRow :=
  { rowOfPacket ph payload with payload := payload }

/-- The row of a message of two parts whose first is a head. -/
def pairedRow : Arrival → List PacketRow
  | .message first [payload] =>
    if first.length = packetHeaderLen then [wholeRow (PacketHead.ofBytes first) payload] else []
  | _ => []

/-- The rows of the messages of two parts whose first is a head. -/
def pairedRows (arrivals : List Arrival) : List PacketRow := arrivals.flatMap pairedRow

/-- The rows that the groups handed over and the group held record. -/
def recordedRows (st : Receiver) : List PacketRow :=
  st.handedOver.flatMap PacketGroup.rows ++ heldRows st.packetGroup

/-- However the receiver is called, once nothing more arrives the rows it has recorded are those of
the messages of two parts whose first is a head, in order. -/
def ReadsMessages (arrivals : List Arrival) : Prop :=
  ∀ env inputs packetHeader configs st,
    recvRun env inputs (Receiver.start packetHeader configs arrivals) = some st →
      outcomes st.socket = [] → recordedRows st = pairedRows arrivals

/-- Calls that drain the socket record the rows of the stream. -/
theorem recordedRows_of_drained {env : RecvEnv} {inputs : List RecvInput}
    {packetHeader : PacketHead} {configs : Configs} {arrivals : List Arrival} {st : Receiver}
    (hrun : recvRun env inputs (Receiver.start packetHeader configs arrivals) = some st)
    (hdrained : outcomes st.socket = []) :
    recordedRows st = framedRows (arrivals.flatMap outcomesOf) := by
  have hrows := ((conserved_start packetHeader configs arrivals).recvRun hrun).rows_eq
  have hrecordable := recvRun_recordable hrun
  rw [recordable, hdrained] at hrecordable
  rw [recordedRows, hrows]
  simpa [recordable, Receiver.start, outcomes, framedRows] using hrecordable

/-- The sizes of the parts of an arrival. -/
inductive Sizes
  | message (first : ℕ) (rest : List ℕ)
  | timeout
  deriving DecidableEq

def sizesOf : Arrival → Sizes
  | .message first rest => .message first.length (rest.map List.length)
  | .timeout => .timeout

/-- What the sizes of one arrival and of those after it must be for its parts to be read as they
were sent. A message of two parts whose first is a head needs a payload that fits its slot. In any
other message only the last part may have the length of a head, and where it has, the timeout must
come before the next message. -/
def FramedArrival : Sizes → List Sizes → Prop
  | .timeout, _ => True
  | .message first rest, later =>
    if first = packetHeaderLen ∧ rest.length = 1 then ∀ size ∈ rest, size ≤ maxPacketLength
    else packetHeaderLen ∉ (first :: rest).dropLast ∧
      ((first :: rest).getLast? = some packetHeaderLen →
        later.head? = none ∨ later.head? = some .timeout)

/-- The condition for every arrival of a stream. -/
def Framed : List Sizes → Prop
  | [] => True
  | sizes :: later => FramedArrival sizes later ∧ Framed later

instance (sizes : Sizes) (later : List Sizes) : Decidable (FramedArrival sizes later) :=
  match sizes with
  | .timeout => inferInstanceAs (Decidable True)
  | .message first rest =>
    inferInstanceAs (Decidable (if first = packetHeaderLen ∧ rest.length = 1 then _ else _))

instance decidableFramed : (shape : List Sizes) → Decidable (Framed shape)
  | [] => inferInstanceAs (Decidable True)
  | sizes :: later =>
    let _ := decidableFramed later
    inferInstanceAs (Decidable (FramedArrival sizes later ∧ Framed later))

/-- Parts of other lengths than a head are passed over. -/
theorem framedRows_append_of_forall_ne {parts : List Part} (stream : List (Option Part))
    (hlength : ∀ part ∈ parts, part.length ≠ packetHeaderLen) :
    framedRows (parts.map some ++ stream) = framedRows stream := by
  induction parts with
  | nil => rfl
  | cons part parts ih =>
    have hpart : part.length ≠ packetHeaderLen := hlength part (List.mem_cons_self ..)
    rw [List.map_cons, List.cons_append, framedRows_cons_of_ne _ (by simpa using hpart)]
    exact ih fun other hother ↦ hlength other (List.mem_cons_of_mem _ hother)

/-- A row whose payload fits its slot is whole. -/
theorem rowOfPacket_eq_wholeRow (ph : PacketHead) {payload : Part}
    (hlength : payload.length ≤ maxPacketLength) : rowOfPacket ph payload = wholeRow ph payload := by
  simp [wholeRow, rowOfPacket, List.take_of_length_le hlength]

/-- A head that the timeout or the end of the stream follows is dropped. -/
theorem framedRows_cons_of_no_payload {part : Part} {later : List Arrival}
    (hlater : later.head? = none ∨ later.head? = some .timeout) :
    framedRows (some part :: later.flatMap outcomesOf) =
      framedRows (later.flatMap outcomesOf) := by
  by_cases hlength : part.length = packetHeaderLen
  · rw [framedRows_cons_of_eq _ hlength]
    rcases later with _ | ⟨_ | _, later⟩ <;> simp_all [outcomesOf, framedRows]
  · exact framedRows_cons_of_ne _ (by simpa using hlength)

/-- The parts of a message: those before the last, then the last. -/
theorem outcomesOf_message (first : Part) (rest : List Part) :
    outcomesOf (.message first rest) = (first :: rest).dropLast.map some ++
      [some ((first :: rest).getLast (List.cons_ne_nil _ _))] := by
  have hparts := List.dropLast_append_getLast (List.cons_ne_nil first rest)
  calc outcomesOf (.message first rest) = (first :: rest).map some := rfl
    _ = _ := by rw [← List.map_singleton, ← List.map_append, hparts]

/-- A message without a row of its own. -/
theorem pairedRow_of_not_pair {first : Part} {rest : List Part}
    (hpair : ¬(first.length = packetHeaderLen ∧ rest.length = 1)) :
    pairedRow (.message first rest) = [] := by
  rcases rest with _ | ⟨payload, _ | _⟩ <;> simp_all [pairedRow]

/-- Where the sizes of an arrival are as they should be, it yields its row and no part of it is
taken for anything later. -/
theorem framedRows_outcomesOf {arrival : Arrival} {later : List Arrival}
    (hframed : FramedArrival (sizesOf arrival) (later.map sizesOf)) :
    framedRows (outcomesOf arrival ++ later.flatMap outcomesOf) =
      pairedRow arrival ++ framedRows (later.flatMap outcomesOf) := by
  rcases arrival with ⟨first, rest⟩ | _
  · simp only [sizesOf, FramedArrival, List.length_map] at hframed
    split_ifs at hframed with hpair
    · obtain ⟨hfirst, hrest⟩ := hpair
      obtain ⟨payload, rfl⟩ := List.length_eq_one_iff.mp hrest
      have hfits : payload.length ≤ maxPacketLength := hframed _ (by simp)
      simp [outcomesOf, framedRows_cons_of_eq _ hfirst, pairedRow, hfirst,
        rowOfPacket_eq_wholeRow _ hfits]
    · obtain ⟨hinit, hlast⟩ := hframed
      have hskip : ∀ part ∈ (first :: rest).dropLast, part.length ≠ packetHeaderLen := by
        intro part hpart hlength
        refine hinit ?_
        rw [← List.map_cons, ← List.map_dropLast, ← hlength]
        exact List.mem_map_of_mem hpart
      rw [pairedRow_of_not_pair hpair, List.nil_append, outcomesOf_message, List.append_assoc,
        framedRows_append_of_forall_ne _ hskip, List.singleton_append]
      by_cases hlength :
          ((first :: rest).getLast (List.cons_ne_nil _ _)).length = packetHeaderLen
      · have hlater := hlast (by
          rw [← List.map_cons, List.getLast?_map, List.getLast?_eq_getLast_of_ne_nil
            (List.cons_ne_nil _ _), Option.map_some, hlength])
        refine framedRows_cons_of_no_payload ?_
        rcases later with _ | ⟨_ | _, later⟩ <;> simp_all [sizesOf]
      · exact framedRows_cons_of_ne _ (by simpa using hlength)
  · rfl

/-- Where a part of the length of a head comes before a further part, the stream yields a row whose
head is one of the parts before it. -/
theorem exists_row_of_mem {parts : List Part} {next : Part} {stream : List (Option Part)}
    (hmem : ∃ part ∈ parts, part.length = packetHeaderLen) :
    ∃ head ∈ parts, head.length = packetHeaderLen ∧ ∃ payload rows,
      framedRows (parts.map some ++ some next :: stream) =
        rowOfPacket (PacketHead.ofBytes head) payload :: rows := by
  induction parts with
  | nil => simp at hmem
  | cons part parts ih =>
    by_cases hlength : part.length = packetHeaderLen
    · obtain ⟨payload, rest, hrest⟩ : ∃ payload rest,
          parts.map some ++ some next :: stream = some payload :: rest := by
        cases parts <;> simp
      refine ⟨part, List.mem_cons_self .., hlength, payload, framedRows rest, ?_⟩
      rw [List.map_cons, List.cons_append, hrest, framedRows_cons_of_eq _ hlength]
      rfl
    · obtain ⟨other, hother, hotherLength⟩ := hmem
      have htail : other ∈ parts := by
        rcases List.mem_cons.mp hother with rfl | hother
        · exact absurd hotherLength hlength
        · exact hother
      obtain ⟨head, hhead, hheadLength, payload, rows, hrows⟩ := ih ⟨other, htail, hotherLength⟩
      refine ⟨head, List.mem_cons_of_mem _ hhead, hheadLength, payload, rows, ?_⟩
      rw [List.map_cons, List.cons_append, framedRows_cons_of_ne _ (by simpa using hlength), hrows]

/-- Where the sizes of an arrival are not as they should be, the stream starts with a row that has
one of its parts for a head, and that is not its own row. -/
theorem exists_row_of_not_framedArrival {arrival : Arrival} {later : List Arrival}
    (hnot : ¬FramedArrival (sizesOf arrival) (later.map sizesOf)) :
    ∃ first rest, arrival = .message first rest ∧
      ∃ head ∈ first :: rest, head.length = packetHeaderLen ∧ ∃ payload rows,
        framedRows (outcomesOf arrival ++ later.flatMap outcomesOf) =
            rowOfPacket (PacketHead.ofBytes head) payload :: rows ∧
          (pairedRow arrival = [] ∨ maxPacketLength < payload.length ∧
            pairedRow arrival = [wholeRow (PacketHead.ofBytes head) payload]) := by
  rcases arrival with ⟨first, rest⟩ | _
  · refine ⟨first, rest, rfl, ?_⟩
    simp only [sizesOf, FramedArrival, List.length_map] at hnot
    split_ifs at hnot with hpair
    · obtain ⟨hfirst, hrest⟩ := hpair
      obtain ⟨payload, rfl⟩ := List.length_eq_one_iff.mp hrest
      refine ⟨first, List.mem_cons_self .., hfirst, payload,
        framedRows (later.flatMap outcomesOf), ?_, Or.inr ⟨?_, ?_⟩⟩
      · simp only [outcomesOf, List.map_cons, List.map_nil, List.cons_append, List.nil_append]
        rw [framedRows_cons_of_eq _ hfirst]
        rfl
      · simpa using hnot
      · simp [pairedRow, hfirst]
    · rw [not_and_or, not_not] at hnot
      have hunpaired := pairedRow_of_not_pair hpair
      rcases hnot with hinit | hlast
      · rw [← List.map_cons, ← List.map_dropLast] at hinit
        obtain ⟨head, hhead, hheadLength, payload, rows, hrows⟩ :=
          exists_row_of_mem (List.mem_map.mp hinit)
        refine ⟨head, List.dropLast_subset _ hhead, hheadLength, payload, rows, ?_, .inl hunpaired⟩
        rw [outcomesOf_message, List.append_assoc, List.singleton_append, hrows]
      · rw [Classical.not_imp, not_or] at hlast
        obtain ⟨hlength, hlater⟩ := hlast
        rw [← List.map_cons, List.getLast?_map] at hlength
        obtain ⟨part, hpart, hpartLength⟩ := Option.map_eq_some_iff.mp hlength
        have hmem : ∃ part ∈ first :: rest, part.length = packetHeaderLen :=
          ⟨part, List.mem_of_getLast? hpart, hpartLength⟩
        rcases later with _ | ⟨⟨next, parts⟩ | _, later⟩
        · simp at hlater
        · have hnext : outcomesOf (.message first rest) ++
              (Arrival.message next parts :: later).flatMap outcomesOf =
                (first :: rest).map some ++
                  some next :: (parts.map some ++ later.flatMap outcomesOf) := rfl
          obtain ⟨head, hhead, hheadLength, payload, rows, hrows⟩ := exists_row_of_mem hmem
          exact ⟨head, hhead, hheadLength, payload, rows, hnext ▸ hrows, .inl hunpaired⟩
        · simp [sizesOf] at hlater
  · exact absurd trivial hnot

/-- An arrival of the given sizes, every byte the same. -/
def filled (fill : Byte) : Sizes → Arrival
  | .message first rest =>
    .message (List.replicate first fill) (rest.map fun size ↦ List.replicate size fill)
  | .timeout => .timeout

@[simp] theorem sizesOf_filled (fill : Byte) (sizes : Sizes) :
    sizesOf (filled fill sizes) = sizes := by
  cases sizes <;> simp [filled, sizesOf, Function.comp_def]

@[simp] theorem map_sizesOf_filled (fill : Byte) (shape : List Sizes) :
    (shape.map (filled fill)).map sizesOf = shape := by
  simp [Function.comp_def]

/-- The parts of a filled message are filled. -/
theorem eq_replicate_of_filled {fill : Byte} {sizes : Sizes} {first : Part} {rest : List Part}
    (hfilled : filled fill sizes = .message first rest) {part : Part}
    (hpart : part ∈ first :: rest) : part = List.replicate part.length fill := by
  cases sizes with
  | timeout => cases hfilled
  | message size sizes =>
    cases hfilled
    rcases List.mem_cons.mp hpart with rfl | hpart
    · simp
    · obtain ⟨size, -, rfl⟩ := List.mem_map.mp hpart
      simp

/-- Heads filled with zeros and with ones have different source addresses. -/
theorem sip_filled :
    (PacketHead.ofBytes (List.replicate packetHeaderLen 0)).sip = 0 ∧
      (PacketHead.ofBytes (List.replicate packetHeaderLen 255)).sip = BitVec.allOnes 32 := by
  decide

theorem sip_of_mem_pairedRows {shape : List Sizes} {row : PacketRow}
    (hrow : row ∈ pairedRows (shape.map (filled 255))) : row.sip = BitVec.allOnes 32 := by
  obtain ⟨arrival, harrival, hrow⟩ := List.mem_flatMap.mp hrow
  obtain ⟨sizes, -, rfl⟩ := List.mem_map.mp harrival
  rcases sizes with ⟨first, rest⟩ | _
  · by_cases hpair : first = packetHeaderLen ∧ rest.length = 1
    · obtain ⟨rfl, hrest⟩ := hpair
      obtain ⟨size, rfl⟩ := List.length_eq_one_iff.mp hrest
      simp only [filled, List.map_cons, List.map_nil, pairedRow, List.length_replicate, if_true,
        List.mem_singleton] at hrow
      rw [hrow]
      exact sip_filled.2
    · have hnil : pairedRow (filled 255 (.message first rest)) = [] :=
        pairedRow_of_not_pair (by simpa using hpair)
      rw [hnil] at hrow
      cases hrow
  · cases hrow

/-- Where the sizes are not as they should be, there are messages of these sizes that the stream
misreads: zeros in the first arrival that is not framed, ones after it. -/
theorem exists_misread {shape : List Sizes} (hnot : ¬Framed shape) :
    ∃ arrivals, arrivals.map sizesOf = shape ∧
      framedRows (arrivals.flatMap outcomesOf) ≠ pairedRows arrivals := by
  induction shape with
  | nil => exact absurd trivial hnot
  | cons sizes later ih =>
    by_cases hframed : FramedArrival sizes later
    · obtain ⟨arrivals, hshape, hmisread⟩ := ih fun hlater ↦ hnot ⟨hframed, hlater⟩
      refine ⟨filled 0 sizes :: arrivals, by simp [hshape], fun hread ↦ hmisread ?_⟩
      rw [List.flatMap_cons, framedRows_outcomesOf (by rwa [sizesOf_filled, hshape])] at hread
      exact List.append_cancel_left hread
    · have hnotFramed :
          ¬FramedArrival (sizesOf (filled 0 sizes)) ((later.map (filled 255)).map sizesOf) := by
        rwa [sizesOf_filled, map_sizesOf_filled]
      obtain ⟨first, rest, hmessage, head, hhead, hlength, payload, rows, hrows, hpaired⟩ :=
        exists_row_of_not_framedArrival hnotFramed
      refine ⟨filled 0 sizes :: later.map (filled 255), ?_, fun hread ↦ ?_⟩
      · rw [List.map_cons, sizesOf_filled, map_sizesOf_filled]
      rw [List.flatMap_cons, hrows] at hread
      have hzero : (rowOfPacket (PacketHead.ofBytes head) payload).sip = 0 := by
        rw [eq_replicate_of_filled hmessage hhead, hlength]
        exact sip_filled.1
      rcases hpaired with hnil | ⟨hlong, hown⟩
      · have hmem : rowOfPacket (PacketHead.ofBytes head) payload ∈
            pairedRows (later.map (filled 255)) := by
          rw [pairedRows, List.flatMap_cons, hnil, List.nil_append] at hread
          rw [pairedRows, ← hread]
          exact List.mem_cons_self ..
        rw [sip_of_mem_pairedRows hmem] at hzero
        exact absurd hzero (by decide)
      · rw [pairedRows, List.flatMap_cons, hown, List.singleton_append] at hread
        have hpayload := congrArg (fun row ↦ row.payload.length) (List.cons.inj hread).1
        simp [rowOfPacket, wholeRow] at hpayload
        omega

/-! ### Calls that drain the socket -/

/-- A work ring of two slots that holds at most one group. -/
def Roomy (ring : RwRing PacketGroup) : Prop :=
  ring.size = 2 ∧ (ring.prodIndx = ring.consIndx ∨ ring.prodIndx = ring.consIndx + 1)

/-- A work ring of two slots that holds no group. -/
def Empty (ring : RwRing PacketGroup) : Prop :=
  ring.size = 2 ∧ ring.prodIndx = ring.consIndx

/-- One read empties a ring that holds at most one group. -/
theorem Roomy.dequeue {ring : RwRing PacketGroup} (h : Roomy ring) :
    Empty (rwRingScDequeue ring).2 := by
  obtain ⟨hsize, hindx⟩ := h
  rcases hindx with hindx | hindx <;>
    simp [rwRingScDequeue, rwRingEntries, hindx, Empty, hsize]

theorem Empty.roomy {ring : RwRing PacketGroup} (h : Empty ring) : Roomy ring :=
  ⟨h.1, .inl h.2⟩

/-- An empty ring takes a group. -/
theorem Empty.enqueue {ring : RwRing PacketGroup} (h : Empty ring) (pg : PacketGroup) :
    ∃ next, rwRingSpEnqueue ring pg = (true, next) ∧ Roomy next := by
  obtain ⟨hsize, hindx⟩ := h
  have hfree : rwRingFreeEntries ring ≠ 0 := by
    rw [rwRingFreeEntries, hsize, hindx, BitVec.add_sub_cancel]
    decide
  have hnext : Roomy (store { ring with prodIndx := ring.prodIndx + 1 } ring.prodIndx pg) :=
    ⟨hsize, .inr (congrArg (· + 1) hindx)⟩
  exact ⟨_, if_neg hfree, hnext⟩

/-- Every work ring of packet groups holds at most one group. -/
def AllRoomy (configs : Configs) : Prop :=
  ∀ idx < packetGroupWorkRingCount, Roomy (configs.packetGroupWorkRing idx)

/-- One read by every mem writer leaves all rings empty. -/
theorem AllRoomy.read {configs : Configs} (h : AllRoomy configs) :
    ∀ idx < packetGroupWorkRingCount,
      Empty ((readPacketGroupWorks configs [0, 1, 2, 3]).packetGroupWorkRing idx) := by
  intro idx hidx
  have hring := (h idx hidx).dequeue
  rw [packetGroupWorkRingCount] at hidx
  interval_cases idx <;> simpa [readPacketGroupWorks, Function.update] using hring

/-- After such a read the first attempt to hand a group over succeeds. -/
theorem AllRoomy.write {configs : Configs} (h : AllRoomy configs) (pg : PacketGroup) :
    ∃ next, retryWritePacketGroupWork [[0, 1, 2, 3]] configs pg = some next ∧ AllRoomy next := by
  have hempty := h.read
  generalize hread : readPacketGroupWorks configs [0, 1, 2, 3] = emptied at hempty
  have hidx : emptied.idx % packetGroupWorkRingCount < packetGroupWorkRingCount :=
    Nat.mod_lt _ (by decide)
  obtain ⟨ring, hring, hroomy⟩ := (hempty _ hidx).enqueue pg
  refine ⟨⟨Function.update emptied.packetGroupWorkRing
    (emptied.idx % packetGroupWorkRingCount) ring, emptied.idx + 1⟩, ?_, fun idx hlt ↦ ?_⟩
  · have hoffer : offerPacketGroup packetGroupWorkRingCount emptied pg =
        (true, ⟨Function.update emptied.packetGroupWorkRing
          (emptied.idx % packetGroupWorkRingCount) ring, emptied.idx⟩) := by
      simp only [packetGroupWorkRingCount] at hring ⊢
      simp only [offerPacketGroup, packetGroupWorkRingCount, hring]
    simp only [retryWritePacketGroupWork, hread, writePacketGroupWork, hoffer]
  · by_cases hsame : idx = emptied.idx % packetGroupWorkRingCount
    · simp only [hsame, Function.update_self]
      exact hroomy
    · simp only [Function.update_of_ne hsame]
      exact (hempty idx hlt).roomy

/-- A call in which no timer fires returns, and the rings stay as empty. -/
theorem AllRoomy.recvPacket {st : Receiver} (h : AllRoomy st.configs) :
    ∃ next, recvPacket exampleEnv (exampleInput false) st = some next ∧
      AllRoomy next.configs := by
  have hday (st : Receiver) : dayChangeFlush exampleEnv (exampleInput false) st = some st := by
    unfold dayChangeFlush
    split <;> rfl
  have hfinal (pg : PacketGroup) (st : Receiver) (hst : AllRoomy st.configs) :
      ∃ next, ((finalFlush (exampleInput false) pg st).bind fun last ↦
        some (onTimeout (exampleInput false).firesAfter last)) = some next ∧
          AllRoomy next.configs := by
    unfold finalFlush packetGroupFlushToMem
    split_ifs
    · obtain ⟨configs, hconfigs, hroomy⟩ := hst.write pg
      simp only [exampleInput, hconfigs]
      exact ⟨_, rfl, hroomy⟩
    · exact ⟨_, rfl, hst⟩
    · exact ⟨_, rfl, hst⟩
  have hpayload (pg : PacketGroup) (st : Receiver) :
      (recvPayload pg st).2.configs = st.configs := by
    unfold recvPayload
    split <;> rfl
  simp only [PacketReceiver.recvPacket, hday, Option.bind_eq_bind, Option.bind_some]
  split_ifs
  · refine hfinal _ _ ?_
    simpa [onTimeout, hpayload] using h
  · exact hfinal _ _ h

/-- A call takes something off a socket that is not drained. -/
theorem recvPacket_outcomes {env : RecvEnv} {input : RecvInput} {st next : Receiver}
    (hrecv : recvPacket env input st = some next) (hmore : outcomes st.socket ≠ []) :
    (outcomes next.socket).length < (outcomes st.socket).length := by
  have hspec := recvPacket_spec hrecv
  have hfirst := (zmqRecv_outcomes st.socket).2
  have hsecond := (zmqRecv_outcomes (zmqRecv st.socket).2).2
  have hpos : 0 < (outcomes st.socket).length := List.length_pos_of_ne_nil hmore
  split_ifs at hspec
  · rw [hspec.1, hsecond, hfirst, List.length_tail, List.length_tail]
    omega
  · rw [hspec.1, hfirst, List.length_tail]
    omega

/-- Enough calls drain the socket. -/
theorem AllRoomy.exists_drained {st : Receiver} (h : AllRoomy st.configs) :
    ∃ inputs last, recvRun exampleEnv inputs st = some last ∧ outcomes last.socket = [] := by
  induction hsize : (outcomes st.socket).length using Nat.strongRecOn generalizing st with
  | _ size ih =>
    by_cases hmore : outcomes st.socket = []
    · exact ⟨[], st, rfl, hmore⟩
    · obtain ⟨next, hnext, hroomy⟩ := h.recvPacket
      obtain ⟨inputs, last, hrun, hdrained⟩ :=
        ih _ (hsize ▸ recvPacket_outcomes hnext hmore) hroomy rfl
      exact ⟨exampleInput false :: inputs, last, by rw [recvRun, hnext]; exact hrun, hdrained⟩

/-- The condition on the sizes of the parts under which the receiver records the rows of the
messages that were sent: for given sizes it holds exactly where messages of these sizes are read as
they were sent whatever their parts hold. -/
theorem readsMessages_iff (shape : List Sizes) :
    (∀ arrivals, arrivals.map sizesOf = shape → ReadsMessages arrivals) ↔ Framed shape := by
  constructor
  · intro hreads
    by_contra hnot
    obtain ⟨arrivals, hshape, hmisread⟩ := exists_misread hnot
    have hroomy : AllRoomy exampleConfigs := fun _ _ ↦ ⟨rfl, .inl rfl⟩
    obtain ⟨inputs, st, hrun, hdrained⟩ : ∃ inputs st, recvRun exampleEnv inputs
        (Receiver.start exampleHead exampleConfigs arrivals) = some st ∧
          outcomes st.socket = [] :=
      AllRoomy.exists_drained hroomy
    refine hmisread ?_
    rw [← recordedRows_of_drained hrun hdrained]
    exact hreads arrivals hshape _ _ _ _ _ hrun hdrained
  · rintro hframed arrivals rfl env inputs packetHeader configs st hrun hdrained
    rw [recordedRows_of_drained hrun hdrained]
    clear hrun
    induction arrivals with
    | nil => rfl
    | cons arrival later ih =>
      rw [List.flatMap_cons, framedRows_outcomesOf hframed.1, ih hframed.2, pairedRows,
        pairedRows, List.flatMap_cons]

-- a lone head is harmless before the timeout and shifts the message after it otherwise
example : Framed [.message 24 [], .timeout, .message 24 [3]] := by decide

/-- A head without a payload, and a packet of three bytes after it. -/
def loneHead : List Arrival :=
  [.message exampleHead.toBytes [], .message exampleHead.toBytes [[1, 2, 3]]]

/-- The head of the packet is recorded as the payload of the lone head, and the packet itself is
not recorded. -/
theorem not_readsMessages : ¬∀ arrivals, ReadsMessages arrivals := by
  intro hclaim
  have hrows : (recvRun exampleEnv [exampleInput false, exampleInput false]
      (Receiver.start exampleHead exampleConfigs loneHead)).map
        (fun st ↦ (outcomes st.socket, recordedRows st)) =
          some ([], [rowOfPacket exampleHead exampleHead.toBytes]) := by decide
  obtain ⟨st, hrun, hst⟩ := Option.map_eq_some_iff.mp hrows
  obtain ⟨hdrained, hrecorded⟩ := Prod.mk.inj hst
  have hread := hclaim loneHead _ _ _ _ st hrun hdrained
  rw [hrecorded] at hread
  exact absurd hread (by decide)

end CppLearn.RecvEngine.ReceiverFraming
