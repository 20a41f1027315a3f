import CppLearn.RecvEngine.FrameHeaders
import CppLearn.SearchEngine.Client
import CppLearn.SearchEngine.DiskPcapWriter

/-!
# From the capture to the search

A captured frame goes through four programs: `dump` sends its head and bytes, the receiver makes a
row of them, the search filters the row and the pcap writer writes it. The head carries the time and
the addresses of the frame, and each of the later programs reads them its own way.

`sameSecond_iff` compares the seconds that the three readers of the time see with the second of the
capture, and `addressesFound_iff` the addresses of a frame with those of a query for them.
-/

set_option autoImplicit false
set_option relaxedAutoImplicit false

namespace CppLearn.Pipeline.Capture

open Foundation.ByteOrder Foundation.DecimalText Foundation.InternetAddress
open RecvEngine.PacketDefine RecvEngine.Dump RecvEngine.FrameHeaders
open SearchEngine.TaskRequest SearchEngine.Client SearchEngine.SessionFilter
open SearchEngine.DfsParquetReader SearchEngine.DiskPcapWriter

/-- The row that the receiver makes of a frame that `dump` sends. -/
def storedRow (message : PacketHead × List Byte) : PacketRow :=
  rowOfPacket (PacketHead.ofBytes message.1.toBytes) message.2

/-- The cells of a row in the columns that a search reads. -/
def cells (row : PacketRow) : Row
  | .time => row.time
  | .sip => row.sip
  | .dip => row.dip
  | .sport => row.sport
  | .dport => row.dport
  | .proto => row.proto
  | .payload => row.payload

/-- The head arrives as it was sent. -/
theorem storedRow_eq (message : PacketHead × List Byte) :
    storedRow message = rowOfPacket message.1 message.2 := by
  rw [storedRow, PacketHead.ofBytes_toBytes]

/-! ### The time of a packet -/

/-- The second of the capture is the second that the receiver bounds its groups with, the second
that the search compares with its window, and the second of the record that is written. -/
def SameSecond (frame : Frame) : Prop :=
  ∀ message, packetProcess frame.pkthdr frame.bytes = some message →
    packetSecond (storedRow message).time = frame.tvSec.toInt ∧
      tvSec (cells (storedRow message) .time) = frame.tvSec.toInt ∧
      ∀ record, pcapRecord (payload (cells (storedRow message) .time)
        (cells (storedRow message) .payload)) = some record →
          record.tvSec.toInt = frame.tvSec.toInt

/-- The second is kept exactly at time zero: `dump` sends the second unshifted, and all decoders
look for it in the upper half. -/
theorem sameSecond_iff (frame : Frame) : SameSecond frame ↔ frame.tvSec = 0 := by
  obtain ⟨ph, hprocess, htime, -⟩ := packetProcess_spec frame
  have hrowTime : (storedRow (ph, frame.kept)).time = frame.tvSec := by
    rw [storedRow_eq, ← htime]
    rfl
  have hsecond := packetSecond_eq frame.tvSec
  constructor
  · intro hsame
    have hreceiver := (hsame _ hprocess).1
    rw [hrowTime, hsecond, BitVec.toInt_eq_toNat_cond] at hreceiver
    apply BitVec.eq_of_toNat_eq
    have := frame.tvSec.isLt
    split_ifs at hreceiver <;> simp only [BitVec.ofNat_eq_ofNat, BitVec.toNat_ofNat] <;> omega
  · intro hzero message hmessage
    rw [hprocess] at hmessage
    cases hmessage
    refine ⟨?_, ?_, fun record hrecord ↦ ?_⟩
    · rw [hrowTime, hsecond, hzero]
      rfl
    · rw [cells, hrowTime, hzero]
      rfl
    · obtain ⟨bytes, -, rfl⟩ := Option.map_eq_some_iff.mp hrecord
      simp only [payload, cells, hrowTime, hzero]
      rfl

/-- A frame of sixty bytes captured in the first second of September 2017. -/
def septemberFrame : Frame :=
  { tvSec := 1504224000, tvUsec := 250000, bytes := List.replicate 60 0, length_lt := by decide }

/-- It reaches the receiver as a packet of second zero. -/
theorem not_sameSecond : ¬∀ frame, SameSecond frame := by
  intro hclaim
  have hsecond := (hclaim septemberFrame
    (⟨1504224000, 0, 0, 0, 0, 60, 0⟩, List.replicate 60 0) (by decide)).1
  exact absurd hsecond (by decide)

/-! ### The addresses of a packet -/

/-- Whether a search for the request keeps the row, its window and limit aside. -/
def accepts (request : TaskInfo) (row : PacketRow) : Bool :=
  isMatchSession request (cells row .sip) (cells row .dip) ((cells row .sport).setWidth 16)
    ((cells row .dport).setWidth 16) ((cells row .proto).setWidth 16)

/-- A query for the addresses of the frame keeps its row, and a query for another unordered pair of
addresses that `counts` does not. -/
def AddressesFound (counts : Ipv4Address → Prop) (frame : Frame) (sip dip : Ipv4Address) : Prop :=
  ∀ message, packetProcess frame.pkthdr frame.bytes = some message →
    (∀ options request, AddressQuery options sip.text dip.text →
      parseArgs options = some request → accepts request (storedRow message) = true) ∧
    ∀ querySip queryDip, counts querySip → counts queryDip →
      s(querySip, queryDip) ≠ s(sip, dip) → ∀ options request,
        AddressQuery options querySip.text queryDip.text →
          parseArgs options = some request → accepts request (storedRow message) = false

/-- The words that a query for two addresses holds. -/
theorem queryAddress_text (address : Ipv4Address) :
    queryAddress address.text = some (address.reverse.word.setWidth 64) := by
  rw [queryAddress, Ipv4Address.inetAton_text, Option.map_some, ← Ipv4Address.ntohl_word]
  rfl

/-- What a query for two addresses keeps: the rows of the reversed addresses. -/
theorem accepts_iff {options : List (Opt × Text)} {request : TaskInfo}
    {querySip queryDip sip dip : Ipv4Address}
    (hquery : AddressQuery options querySip.text queryDip.text)
    (hparse : parseArgs options = some request) {row : PacketRow} (hsip : row.sip = sip.word)
    (hdip : row.dip = dip.word) :
    accepts request row = true ↔
      if querySip ≠ .any ∧ queryDip ≠ .any then s(querySip.reverse, queryDip.reverse) = s(sip, dip)
      else (querySip ≠ .any → querySip.reverse = sip) ∧
        (queryDip ≠ .any → queryDip.reverse = dip) := by
  obtain ⟨hquerySip, hqueryDip, hsport, hdport, hproto⟩ := parseArgs_addresses hquery hparse
  rw [queryAddress_text] at hquerySip hqueryDip
  have hword (first second : Ipv4Address) : first.word = second.word ↔ first = second :=
    Ipv4Address.word_injective.eq_iff
  rw [accepts, isMatchSession_of_addresses (Option.some.inj hquerySip).symm
    (Option.some.inj hqueryDip).symm hsport hdport hproto]
  simp only [cells, hsip, hdip, Sym2.eq_iff, hword, ne_eq, Ipv4Address.word_eq_zero_iff,
    Ipv4Address.reverse_eq_any_iff]

/-- The options of a search for two addresses. -/
def searchOptions (sip dip : Ipv4Address) : List (Opt × Text) :=
  [(.mode, searchMode), (.stime, ['0']), (.etime, ['1']), (.sip, sip.text), (.dip, dip.text)]

theorem addressQuery_searchOptions (sip dip : Ipv4Address) :
    AddressQuery (searchOptions sip dip) sip.text dip.text := by
  constructor <;> simp [searchOptions]

theorem exists_request (sip dip : Ipv4Address) :
    ∃ request, parseArgs (searchOptions sip dip) = some request := by
  simp only [parseArgs, searchOptions, List.foldlM, parseOption, queryAddress_text,
    Option.map_some, Option.bind_eq_bind, Option.bind_some]
  exact ⟨_, rfl⟩

/-- The rows of a frame that carries an IPv4 packet hold the words of its addresses. -/
theorem storedRow_addresses {frame : Frame} {sip dip : Ipv4Address}
    (hframe : Ipv4Frame frame.kept sip.bytes dip.bytes) :
    ∃ message, packetProcess frame.pkthdr frame.bytes = some message ∧
      (storedRow message).sip = sip.word ∧ (storedRow message).dip = dip.word := by
  obtain ⟨ph, hprocess, -, -, haddresses⟩ := packetProcess_spec frame
  obtain ⟨hsip, hdip⟩ := haddresses _ _ hframe
  refine ⟨_, hprocess, ?_⟩
  rw [storedRow_eq]
  exact ⟨hsip, hdip⟩

/-- A query for the addresses of a frame keeps its row exactly where reversing both addresses gives
the same unordered pair. -/
theorem own_query_iff {options : List (Opt × Text)} {request : TaskInfo} {sip dip : Ipv4Address}
    (hquery : AddressQuery options sip.text dip.text) (hparse : parseArgs options = some request)
    {row : PacketRow} (hsip : row.sip = sip.word) (hdip : row.dip = dip.word) :
    accepts request row = true ↔ s(sip.reverse, dip.reverse) = s(sip, dip) := by
  have hany : Ipv4Address.any.reverse = .any := rfl
  rw [accepts_iff hquery hparse hsip hdip]
  by_cases hsipAny : sip = .any
  · subst hsipAny
    by_cases hdipAny : dip = .any
    · subst hdipAny
      simp [hany]
    · rw [hany, Sym2.congr_right]
      simp [hdipAny]
  · by_cases hdipAny : dip = .any
    · subst hdipAny
      rw [hany, Sym2.congr_left]
      simp [hsipAny]
    · rw [if_pos ⟨hsipAny, hdipAny⟩]

/-- Where reversing both addresses gives the same unordered pair, a query for two addresses other
than 0.0.0.0 that are another pair does not keep the row. -/
theorem other_query_rejected {options : List (Opt × Text)} {request : TaskInfo}
    {querySip queryDip sip dip : Ipv4Address} (hquerySip : querySip ≠ .any)
    (hqueryDip : queryDip ≠ .any) (hother : s(querySip, queryDip) ≠ s(sip, dip))
    (hreversed : s(sip.reverse, dip.reverse) = s(sip, dip))
    (hquery : AddressQuery options querySip.text queryDip.text)
    (hparse : parseArgs options = some request) {row : PacketRow} (hsip : row.sip = sip.word)
    (hdip : row.dip = dip.word) : accepts request row = false := by
  rw [← Bool.not_eq_true, accepts_iff hquery hparse hsip hdip, if_pos ⟨hquerySip, hqueryDip⟩,
    ← hreversed]
  exact fun hsame ↦ hother (Sym2.map.injective Ipv4Address.reverse_injective hsame)

/-- For a frame that carries an IPv4 packet, a search for its addresses finds it and a search for
other addresses does not exactly where reversing the bytes of both addresses gives the same
unordered pair. This counts 0.0.0.0 in a query as no address, as the search does. Counted as an
address it leaves only the frames from 0.0.0.0 to 0.0.0.0. -/
theorem addressesFound_iff {frame : Frame} {sip dip : Ipv4Address}
    (hframe : Ipv4Frame frame.kept sip.bytes dip.bytes) :
    (AddressesFound (· ≠ .any) frame sip dip ↔ s(sip.reverse, dip.reverse) = s(sip, dip)) ∧
      (AddressesFound (fun _ ↦ True) frame sip dip ↔ sip = .any ∧ dip = .any) := by
  obtain ⟨message, hprocess, hsip, hdip⟩ := storedRow_addresses hframe
  refine ⟨⟨fun hfound ↦ ?_, fun hreversed message' hmessage ↦ ?_⟩,
    fun hfound ↦ ?_, fun hany message' hmessage ↦ ?_⟩
  · obtain ⟨request, hparse⟩ := exists_request sip dip
    have hquery := addressQuery_searchOptions sip dip
    exact (own_query_iff hquery hparse hsip hdip).mp
      ((hfound message hprocess).1 _ _ hquery hparse)
  · obtain rfl := Option.some.inj (hprocess.symm.trans hmessage)
    refine ⟨fun options request hquery hparse ↦ ?_, ?_⟩
    · exact (own_query_iff hquery hparse hsip hdip).mpr hreversed
    · intro querySip queryDip hquerySip hqueryDip hother options request hquery hparse
      exact other_query_rejected hquerySip hqueryDip hother hreversed hquery hparse hsip hdip
  · by_contra hnot
    have hother : s(Ipv4Address.any, Ipv4Address.any) ≠ s(sip, dip) := by
      intro hsame
      rcases Sym2.eq_iff.mp hsame with ⟨hsipAny, hdipAny⟩ | ⟨hdipAny, hsipAny⟩
      · exact hnot ⟨hsipAny.symm, hdipAny.symm⟩
      · exact hnot ⟨hsipAny.symm, hdipAny.symm⟩
    obtain ⟨request, hparse⟩ := exists_request .any .any
    have hquery := addressQuery_searchOptions .any .any
    have hrejected := (hfound message hprocess).2 _ _ trivial trivial hother _ _ hquery hparse
    have haccepted := (accepts_iff hquery hparse hsip hdip).mpr (by simp)
    rw [hrejected] at haccepted
    cases haccepted
  · obtain ⟨rfl, rfl⟩ := hany
    obtain rfl := Option.some.inj (hprocess.symm.trans hmessage)
    refine ⟨fun options request hquery hparse ↦ ?_, ?_⟩
    · exact (own_query_iff hquery hparse hsip hdip).mpr rfl
    · intro querySip queryDip _ _ hother options request hquery hparse
      rw [← Bool.not_eq_true, accepts_iff hquery hparse hsip hdip]
      split_ifs with hset
      · intro hsame
        rcases Sym2.eq_iff.mp hsame with ⟨hany, -⟩ | ⟨hany, -⟩ <;>
          exact hset.1 ((Ipv4Address.reverse_eq_any_iff _).mp hany)
      · rintro ⟨hquerySip, hqueryDip⟩
        have hsipAny : querySip = .any := by
          by_contra hne
          exact hne ((Ipv4Address.reverse_eq_any_iff _).mp (hquerySip hne))
        have hdipAny : queryDip = .any := by
          by_contra hne
          exact hne ((Ipv4Address.reverse_eq_any_iff _).mp (hqueryDip hne))
        exact hother (by rw [hsipAny, hdipAny])

/-- A frame of 34 bytes from 1.2.2.1 to 10.0.0.10 with an IPv4 header and nothing after it. -/
def palindromeFrame : Frame :=
  { tvSec := 1504224000
    tvUsec := 0
    bytes := List.replicate 12 0 ++ [0x08, 0x00, 0x45, 0, 0, 20, 0, 0, 0, 0, 64, 17, 0, 0] ++
      [1, 2, 2, 1] ++ [10, 0, 0, 10]
    length_lt := by decide }

/-- The addresses of this frame are found. -/
theorem addressesFound_iff_palindrome :
    (AddressesFound (· ≠ .any) palindromeFrame ⟨1, 2, 2, 1⟩ ⟨10, 0, 0, 10⟩ ↔
      s(Ipv4Address.mk 1 2 2 1, Ipv4Address.mk 10 0 0 10) =
        s(Ipv4Address.mk 1 2 2 1, Ipv4Address.mk 10 0 0 10)) ∧
      (AddressesFound (fun _ ↦ True) palindromeFrame ⟨1, 2, 2, 1⟩ ⟨10, 0, 0, 10⟩ ↔
        (⟨1, 2, 2, 1⟩ : Ipv4Address) = .any ∧ (⟨10, 0, 0, 10⟩ : Ipv4Address) = .any) := by
  refine addressesFound_iff ?_
  exact
    { ethType_eq := rfl
      header := ⟨0x45, 0, 20, by decide⟩
      src_eq := rfl
      dst_eq := rfl }

/-- The same frame from 10.0.0.1 to 10.0.0.2. -/
def plainFrame : Frame :=
  { tvSec := 1504224000
    tvUsec := 0
    bytes := List.replicate 12 0 ++ [0x08, 0x00, 0x45, 0, 0, 20, 0, 0, 0, 0, 64, 17, 0, 0] ++
      [10, 0, 0, 1] ++ [10, 0, 0, 2]
    length_lt := by decide }

/-- A search for 10.0.0.1 and 10.0.0.2 does not keep it. -/
theorem not_addressesFound : ¬∀ (frame : Frame) (sip dip : Ipv4Address),
    Ipv4Frame frame.kept sip.bytes dip.bytes → AddressesFound (· ≠ .any) frame sip dip := by
  intro hclaim
  have hframe : Ipv4Frame plainFrame.kept (Ipv4Address.mk 10 0 0 1).bytes
      (Ipv4Address.mk 10 0 0 2).bytes :=
    { ethType_eq := rfl
      header := ⟨0x45, 0, 20, by decide⟩
      src_eq := rfl
      dst_eq := rfl }
  obtain ⟨message, hprocess, hsip, hdip⟩ := storedRow_addresses hframe
  obtain ⟨request, hparse⟩ := exists_request ⟨10, 0, 0, 1⟩ ⟨10, 0, 0, 2⟩
  have hquery := addressQuery_searchOptions ⟨10, 0, 0, 1⟩ ⟨10, 0, 0, 2⟩
  have haccepted := (hclaim _ _ _ hframe message hprocess).1 _ _ hquery hparse
  exact absurd ((own_query_iff hquery hparse hsip hdip).mp haccepted) (by decide)

end CppLearn.Pipeline.Capture
