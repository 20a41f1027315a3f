import CppLearn.SearchEngine.TaskRequest
import Mathlib.Data.Sym.Sym2

/-!
# The session filter of a search

`is_match_session` compares a packet with the five members of a request that name a session, where
zero stands for any value. `isMatchSession_of_addresses` is its reading for a request that names
addresses only. Where both addresses are named the ports are not looked at, and where both ports are
named a single address is not: `filterSound_iff` says for which requests a packet that passes has the
values that the request names, in one of the two directions.
-/

set_option autoImplicit false
set_option relaxedAutoImplicit false

namespace CppLearn.SearchEngine.SessionFilter

open TaskRequest

/-- `DfsParquetReader::is_match_session`. -/
def isMatchSession (taskInfo : TaskInfo) (sip dip : BitVec 32) (sport dport proto : BitVec 16) :
    Bool :=
  let querySip := taskInfo.sip.setWidth 32
  let queryDip := taskInfo.dip.setWidth 32
  let querySport := taskInfo.sport.setWidth 16
  let queryDport := taskInfo.dport.setWidth 16
  let queryProto := taskInfo.proto.setWidth 16
  -- protocol check
  if 0 ≠ queryProto ∧ queryProto ≠ proto then false
  -- bidirectional check
  else if 0 ≠ querySip ∧ 0 ≠ queryDip then
    (querySip = sip ∧ queryDip = dip) ∨ (queryDip = sip ∧ querySip = dip)
  else if 0 ≠ querySport ∧ 0 ≠ queryDport then
    (querySport = sport ∧ queryDport = dport) ∨ (queryDport = sport ∧ querySport = dport)
  -- single directional check
  else if 0 ≠ querySip ∧ querySip ≠ sip then false
  else if 0 ≠ queryDip ∧ queryDip ≠ dip then false
  else if 0 ≠ querySport ∧ querySport ≠ sport then false
  else if 0 ≠ queryDport ∧ queryDport ≠ dport then false
  else true

/-- The filter on addresses alone: two addresses match in either direction, a single one in its
own. -/
theorem isMatchSession_of_addresses {taskInfo : TaskInfo} {querySip queryDip : BitVec 32}
    (hsip : taskInfo.sip = querySip.setWidth 64) (hdip : taskInfo.dip = queryDip.setWidth 64)
    (hsport : taskInfo.sport = 0) (hdport : taskInfo.dport = 0) (hproto : taskInfo.proto = 0)
    (sip dip : BitVec 32) (sport dport proto : BitVec 16) :
    isMatchSession taskInfo sip dip sport dport proto = true ↔
      if querySip ≠ 0 ∧ queryDip ≠ 0 then s(querySip, queryDip) = s(sip, dip)
      else (querySip ≠ 0 → querySip = sip) ∧ (queryDip ≠ 0 → queryDip = dip) := by
  have hwidth (address : BitVec 32) : (address.setWidth 64).setWidth 32 = address := by
    simp
  have hzero : (0 : BitVec 64).setWidth 16 = 0 := rfl
  simp only [isMatchSession, hsip, hdip, hsport, hdport, hproto, hwidth, hzero, Sym2.eq_iff]
  by_cases hquerySip : querySip = 0#32
  · by_cases hqueryDip : queryDip = 0#32
    · simp [hquerySip, hqueryDip]
    · have hset : ¬0#32 = queryDip := fun h ↦ hqueryDip h.symm
      by_cases hmatch : queryDip = dip <;> simp_all
  · have hset : ¬0#32 = querySip := fun h ↦ hquerySip h.symm
    by_cases hqueryDip : queryDip = 0#32
    · by_cases hmatch : querySip = sip <;> simp_all
    · have hset' : ¬0#32 = queryDip := fun h ↦ hqueryDip h.symm
      simp [hquerySip, hqueryDip, hset, hset', and_comm]

/-! ### What a match says -/

/-- The members of a packet that name its session. -/
structure Session where
  sip : BitVec 32
  dip : BitVec 32
  sport : BitVec 16
  dport : BitVec 16
  proto : BitVec 16

/-- The session of a packet in the other direction. -/
def Session.reverse (session : Session) : Session :=
  { session with
    sip := session.dip
    dip := session.sip
    sport := session.dport
    dport := session.sport }

/-- `is_match_session` on the members of a packet. -/
def Passes (taskInfo : TaskInfo) (session : Session) : Prop :=
  isMatchSession taskInfo session.sip session.dip session.sport session.dport session.proto = true

/-- A member of a request that is not zero is the value of the packet. -/
def Names {width : ℕ} (query : BitVec 64) (value : BitVec width) : Prop :=
  query ≠ 0 → query = value.setWidth 64

/-- The addresses and ports that the request names are those of the session. -/
structure Agrees (taskInfo : TaskInfo) (session : Session) : Prop where
  sip : Names taskInfo.sip session.sip
  dip : Names taskInfo.dip session.dip
  sport : Names taskInfo.sport session.sport
  dport : Names taskInfo.dport session.dport

/-- Every packet that passes has the protocol that the request names, and its addresses and ports in
one direction. -/
def FilterSound (taskInfo : TaskInfo) : Prop :=
  ∀ session, Passes taskInfo session →
    Names taskInfo.proto session.proto ∧
      (Agrees taskInfo session ∨ Agrees taskInfo session.reverse)

/-- The members of the request have the width of the values they are compared with, a request that
names both addresses names no port, and one that names both ports names no address. -/
structure OnePair (taskInfo : TaskInfo) : Prop where
  sip_lt : taskInfo.sip.toNat < 2 ^ 32
  dip_lt : taskInfo.dip.toNat < 2 ^ 32
  sport_lt : taskInfo.sport.toNat < 2 ^ 16
  dport_lt : taskInfo.dport.toNat < 2 ^ 16
  proto_lt : taskInfo.proto.toNat < 2 ^ 16
  addresses : taskInfo.sip ≠ 0 → taskInfo.dip ≠ 0 → taskInfo.sport = 0 ∧ taskInfo.dport = 0
  ports : taskInfo.sport ≠ 0 → taskInfo.dport ≠ 0 → taskInfo.sip = 0 ∧ taskInfo.dip = 0

/-- A value that is named has the width of the value. -/
theorem Names.lt {width : ℕ} {query : BitVec 64} {value : BitVec width}
    (names : Names query value) : query.toNat < 2 ^ width := by
  by_cases hzero : query = 0
  · rw [hzero]
    exact Nat.two_pow_pos width
  · rw [names hzero, BitVec.toNat_setWidth]
    exact lt_of_le_of_lt (Nat.mod_le _ _) value.isLt

section Widths

variable {width : ℕ} {query : BitVec 64}

theorem setWidth_setWidth_of_lt (hlt : query.toNat < 2 ^ width) :
    (query.setWidth width).setWidth 64 = query := by
  apply BitVec.eq_of_toNat_eq
  rw [BitVec.toNat_setWidth, BitVec.toNat_setWidth, Nat.mod_eq_of_lt hlt,
    Nat.mod_eq_of_lt query.isLt]

theorem setWidth_eq_zero_iff (hlt : query.toNat < 2 ^ width) :
    query.setWidth width = 0 ↔ query = 0 := by
  constructor
  · intro hzero
    rw [← setWidth_setWidth_of_lt hlt, hzero]
    exact BitVec.setWidth_zero ..
  · rintro rfl
    exact BitVec.setWidth_zero ..

/-- The comparison that the filter makes. -/
theorem names_iff (hwidth : width ≤ 64) (hlt : query.toNat < 2 ^ width) (value : BitVec width) :
    Names query value ↔ query.setWidth width ≠ 0 → query.setWidth width = value := by
  rw [Names, Ne, Ne, setWidth_eq_zero_iff hlt]
  refine imp_congr_right fun _ ↦ ⟨?_, ?_⟩
  · rintro heq
    rw [heq]
    rw [BitVec.setWidth_setWidth_of_le value hwidth, BitVec.setWidth_eq]
  · rintro rfl
    exact (setWidth_setWidth_of_lt hlt).symm

end Widths

/-- The session that a request names, as far as the members have the width of its values. -/
def named (taskInfo : TaskInfo) : Session :=
  { sip := taskInfo.sip.setWidth 32
    dip := taskInfo.dip.setWidth 32
    sport := taskInfo.sport.setWidth 16
    dport := taskInfo.dport.setWidth 16
    proto := taskInfo.proto.setWidth 16 }

/-- The three checks, by what the request names. -/
theorem passes_iff (taskInfo : TaskInfo) (session : Session) :
    Passes taskInfo session ↔
      ((named taskInfo).proto ≠ 0 → (named taskInfo).proto = session.proto) ∧
        if (named taskInfo).sip ≠ 0 ∧ (named taskInfo).dip ≠ 0 then
          ((named taskInfo).sip = session.sip ∧ (named taskInfo).dip = session.dip) ∨
            ((named taskInfo).dip = session.sip ∧ (named taskInfo).sip = session.dip)
        else if (named taskInfo).sport ≠ 0 ∧ (named taskInfo).dport ≠ 0 then
          ((named taskInfo).sport = session.sport ∧ (named taskInfo).dport = session.dport) ∨
            ((named taskInfo).dport = session.sport ∧ (named taskInfo).sport = session.dport)
        else
          ((named taskInfo).sip ≠ 0 → (named taskInfo).sip = session.sip) ∧
            ((named taskInfo).dip ≠ 0 → (named taskInfo).dip = session.dip) ∧
            ((named taskInfo).sport ≠ 0 → (named taskInfo).sport = session.sport) ∧
            ((named taskInfo).dport ≠ 0 → (named taskInfo).dport = session.dport) := by
  simp only [Passes, isMatchSession, named]
  grind

theorem passes_named (taskInfo : TaskInfo) : Passes taskInfo (named taskInfo) := by
  rw [passes_iff]
  refine ⟨fun _ ↦ rfl, ?_⟩
  split_ifs
  · exact .inl ⟨rfl, rfl⟩
  · exact .inl ⟨rfl, rfl⟩
  · exact ⟨fun _ ↦ rfl, fun _ ↦ rfl, fun _ ↦ rfl, fun _ ↦ rfl⟩

/-- The members of a request that passes only packets it names have the width of their values: the
session that it names passes. -/
theorem FilterSound.lt {taskInfo : TaskInfo} (sound : FilterSound taskInfo) :
    taskInfo.sip.toNat < 2 ^ 32 ∧ taskInfo.dip.toNat < 2 ^ 32 ∧ taskInfo.sport.toNat < 2 ^ 16 ∧
      taskInfo.dport.toNat < 2 ^ 16 ∧ taskInfo.proto.toNat < 2 ^ 16 := by
  obtain ⟨hproto, hagrees | hagrees⟩ := sound _ (passes_named taskInfo)
  · exact ⟨hagrees.sip.lt, hagrees.dip.lt, hagrees.sport.lt, hagrees.dport.lt, hproto.lt⟩
  · exact ⟨hagrees.sip.lt, hagrees.dip.lt, hagrees.sport.lt, hagrees.dport.lt, hproto.lt⟩

/-- A value is not named by a member that is not zero if it is the next one. -/
theorem not_names_add_one {width : ℕ} (hpos : 0 < width) (hwidth : width ≤ 64) {query : BitVec 64}
    (hlt : query.toNat < 2 ^ width) (hquery : query ≠ 0) :
    ¬ Names query (query.setWidth width + 1) := by
  intro names
  have heq := (names_iff hwidth hlt _).mp names (mt (setWidth_eq_zero_iff hlt).mp hquery)
  have hone : (1 : BitVec width) = 0 := left_eq_add.mp heq
  have htoNat := congrArg BitVec.toNat hone
  rw [BitVec.ofNat_eq_ofNat, BitVec.toNat_ofNat, BitVec.ofNat_eq_ofNat, BitVec.toNat_ofNat,
    Nat.mod_eq_of_lt (Nat.one_lt_two_pow hpos.ne')] at htoNat
  exact absurd htoNat (by rw [Nat.zero_mod]; exact Nat.one_ne_zero)

/-- A request that names both addresses passes packets with any ports. -/
theorem passes_of_addresses {taskInfo : TaskInfo} (hsip : (named taskInfo).sip ≠ 0)
    (hdip : (named taskInfo).dip ≠ 0) (sport dport : BitVec 16) :
    Passes taskInfo { named taskInfo with sport := sport, dport := dport } := by
  rw [passes_iff]
  refine ⟨fun _ ↦ rfl, ?_⟩
  rw [if_pos ⟨hsip, hdip⟩]
  exact .inl ⟨rfl, rfl⟩

/-- A request that names both ports and not both addresses passes packets with any addresses. -/
theorem passes_of_ports {taskInfo : TaskInfo}
    (haddresses : ¬ ((named taskInfo).sip ≠ 0 ∧ (named taskInfo).dip ≠ 0))
    (hsport : (named taskInfo).sport ≠ 0) (hdport : (named taskInfo).dport ≠ 0)
    (sip dip : BitVec 32) :
    Passes taskInfo { named taskInfo with sip := sip, dip := dip } := by
  rw [passes_iff]
  refine ⟨fun _ ↦ rfl, ?_⟩
  rw [if_neg haddresses, if_pos ⟨hsport, hdport⟩]
  exact .inl ⟨rfl, rfl⟩

/-- No port is named beside both addresses: the next port would pass as well. -/
theorem FilterSound.addresses {taskInfo : TaskInfo} (sound : FilterSound taskInfo)
    (hsip : taskInfo.sip ≠ 0) (hdip : taskInfo.dip ≠ 0) :
    taskInfo.sport = 0 ∧ taskInfo.dport = 0 := by
  obtain ⟨hsipLt, hdipLt, hsportLt, hdportLt, -⟩ := sound.lt
  have hpasses (port : BitVec 16) :=
    passes_of_addresses (mt (setWidth_eq_zero_iff hsipLt).mp hsip)
      (mt (setWidth_eq_zero_iff hdipLt).mp hdip) port port
  constructor
  · by_contra hsport
    have hnext := not_names_add_one (by decide) (by decide) hsportLt hsport
    obtain ⟨-, hagrees | hagrees⟩ := sound _ (hpasses (taskInfo.sport.setWidth 16 + 1))
    · exact hnext hagrees.sport
    · exact hnext hagrees.sport
  · by_contra hdport
    have hnext := not_names_add_one (by decide) (by decide) hdportLt hdport
    obtain ⟨-, hagrees | hagrees⟩ := sound _ (hpasses (taskInfo.dport.setWidth 16 + 1))
    · exact hnext hagrees.dport
    · exact hnext hagrees.dport

/-- No address is named beside both ports: the next address would pass as well. -/
theorem FilterSound.ports {taskInfo : TaskInfo} (sound : FilterSound taskInfo)
    (hsport : taskInfo.sport ≠ 0) (hdport : taskInfo.dport ≠ 0) :
    taskInfo.sip = 0 ∧ taskInfo.dip = 0 := by
  obtain ⟨hsipLt, hdipLt, hsportLt, hdportLt, -⟩ := sound.lt
  have haddresses : ¬ ((named taskInfo).sip ≠ 0 ∧ (named taskInfo).dip ≠ 0) := by
    rintro ⟨hsip, hdip⟩
    refine hsport (sound.addresses ?_ ?_).1
    · exact mt (setWidth_eq_zero_iff hsipLt).mpr hsip
    · exact mt (setWidth_eq_zero_iff hdipLt).mpr hdip
  have hpasses (address : BitVec 32) :=
    passes_of_ports haddresses (mt (setWidth_eq_zero_iff hsportLt).mp hsport)
      (mt (setWidth_eq_zero_iff hdportLt).mp hdport) address address
  constructor
  · by_contra hsip
    have hnext := not_names_add_one (by decide) (by decide) hsipLt hsip
    obtain ⟨-, hagrees | hagrees⟩ := sound _ (hpasses (taskInfo.sip.setWidth 32 + 1))
    · exact hnext hagrees.sip
    · exact hnext hagrees.sip
  · by_contra hdip
    have hnext := not_names_add_one (by decide) (by decide) hdipLt hdip
    obtain ⟨-, hagrees | hagrees⟩ := sound _ (hpasses (taskInfo.dip.setWidth 32 + 1))
    · exact hnext hagrees.dip
    · exact hnext hagrees.dip

/-- A session agrees with a request if the values of the request's own width do. -/
theorem OnePair.agrees {taskInfo : TaskInfo} (pair : OnePair taskInfo) {session : Session}
    (hsip : (named taskInfo).sip ≠ 0 → (named taskInfo).sip = session.sip)
    (hdip : (named taskInfo).dip ≠ 0 → (named taskInfo).dip = session.dip)
    (hsport : (named taskInfo).sport ≠ 0 → (named taskInfo).sport = session.sport)
    (hdport : (named taskInfo).dport ≠ 0 → (named taskInfo).dport = session.dport) :
    Agrees taskInfo session where
  sip := (names_iff (by decide) pair.sip_lt _).mpr hsip
  dip := (names_iff (by decide) pair.dip_lt _).mpr hdip
  sport := (names_iff (by decide) pair.sport_lt _).mpr hsport
  dport := (names_iff (by decide) pair.dport_lt _).mpr hdport

/-- A packet that passes has what the request names, in one direction, exactly for the requests whose
members have the width of its values and that name, with both members of a pair, none of the other
pair. -/
theorem filterSound_iff (taskInfo : TaskInfo) : FilterSound taskInfo ↔ OnePair taskInfo := by
  constructor
  · intro sound
    obtain ⟨hsip, hdip, hsport, hdport, hproto⟩ := sound.lt
    exact ⟨hsip, hdip, hsport, hdport, hproto, sound.addresses, sound.ports⟩
  · intro pair session hpasses
    rw [passes_iff] at hpasses
    obtain ⟨hproto, hpasses⟩ := hpasses
    refine ⟨(names_iff (by decide) pair.proto_lt _).mpr hproto, ?_⟩
    have hzero {width : ℕ} {query : BitVec 64} (hquery : query = 0) :
        ¬ query.setWidth width ≠ 0 := fun hne ↦ hne (hquery ▸ BitVec.setWidth_zero ..)
    split_ifs at hpasses with haddresses hports
    · -- both addresses are named, and no port
      obtain ⟨hsport, hdport⟩ := pair.addresses (mt (setWidth_eq_zero_iff pair.sip_lt).mpr haddresses.1)
        (mt (setWidth_eq_zero_iff pair.dip_lt).mpr haddresses.2)
      rcases hpasses with ⟨hsip, hdip⟩ | ⟨hdip, hsip⟩
      · exact .inl (pair.agrees (fun _ ↦ hsip) (fun _ ↦ hdip) (absurd · (hzero hsport))
          (absurd · (hzero hdport)))
      · exact .inr (pair.agrees (fun _ ↦ hsip) (fun _ ↦ hdip) (absurd · (hzero hsport))
          (absurd · (hzero hdport)))
    · -- both ports are named, and no address
      obtain ⟨hsip, hdip⟩ := pair.ports (mt (setWidth_eq_zero_iff pair.sport_lt).mpr hports.1)
        (mt (setWidth_eq_zero_iff pair.dport_lt).mpr hports.2)
      rcases hpasses with ⟨hsport, hdport⟩ | ⟨hdport, hsport⟩
      · exact .inl (pair.agrees (absurd · (hzero hsip)) (absurd · (hzero hdip)) (fun _ ↦ hsport)
          (fun _ ↦ hdport))
      · exact .inr (pair.agrees (absurd · (hzero hsip)) (absurd · (hzero hdip)) (fun _ ↦ hsport)
          (fun _ ↦ hdport))
    · obtain ⟨hsip, hdip, hsport, hdport⟩ := hpasses
      exact .inl (pair.agrees hsip hdip hsport hdport)

/-- A request for one connection of a server, by both addresses and the port of the server. -/
def serverRequest : TaskInfo := { taskInfo with sip := 1, dip := 2, dport := 80 }

/-- Packets between other ports of the two hosts pass. -/
theorem not_filterSound : ¬ FilterSound serverRequest := by
  intro sound
  obtain ⟨-, hagrees | hagrees⟩ := sound ⟨1, 2, 5000, 22, 6⟩ rfl
  · exact absurd (hagrees.dport (by decide)) (by decide)
  · exact absurd (hagrees.dport (by decide)) (by decide)

end CppLearn.SearchEngine.SessionFilter
