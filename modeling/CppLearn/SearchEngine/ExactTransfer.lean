import Mathlib.Data.BitVec
import CppLearn.Foundation.ByteOrder
import CppLearn.Foundation.GuardedRun

/-!
# Reads and writes of a whole buffer

`readn` and `writen` on machine words. The result of the system call goes into a `size_t` before its
sign is tested, so that the branches for errors are never taken and -1 is a count of `2 ^ 64 - 1`
bytes. Between two calls a loop is at the system call with a window of memory, and what the call does
is the event.

`ReadsExactly` and `WritesExactly` say what the two are for: every call gets the window behind the
bytes moved, interrupted calls are repeated, other errors are returned, and what is counted has been
moved in order. They hold along a run exactly if no call in it fails (`exact_iff`).
-/

set_option autoImplicit false
set_option relaxedAutoImplicit false

namespace CppLearn.SearchEngine.ExactTransfer

open Foundation.ByteOrder Foundation.GuardedRun

/-! ### The two loops -/

/-- `EINTR` -/
def eintr : ℕ := 4

/-- What a system call does: it moves at least one byte, returns zero, or fails with an `errno`. -/
inductive Outcome (Moved : Type)
  | moves (moved : Moved)
  | zero
  | fails (errno : ℕ)

/-- The call returns -1. -/
def Outcome.Fails {Moved : Type} : Outcome Moved → Prop
  | .fails _ => True
  | _ => False

/-- Memory by address. -/
abbrev Memory := BitVec 64 → Byte

/-- The memory after some bytes have been stored from an address on. -/
def storeAt (memory : Memory) (ptr : BitVec 64) (bytes : List Byte) : Memory := fun address ↦
  if (address - ptr).toNat < bytes.length then bytes.getD (address - ptr).toNat 0
  else memory address

/-- The bytes of the memory from an address on. -/
def loadAt (memory : Memory) (ptr : BitVec 64) (count : ℕ) : List Byte :=
  (List.range count).map fun indx ↦ memory (ptr + BitVec.ofNat 64 indx)

/-- The arguments `vptr` and `n`. No object has more bytes than an `ssize_t` can count. -/
structure Buffer where
  vptr : BitVec 64
  n : BitVec 64
  length_lt : n.toNat < 2 ^ 63

/-- The variables of `readn`, `errno` and the memory, with its result when it has returned, the bytes
received so far and what the last call did. -/
structure ReadLoop where
  ptr : BitVec 64
  nleft : BitVec 64
  errno : ℕ
  memory : Memory
  ret : Option ℤ
  received : List Byte
  last : Option (Outcome (List Byte))

/-- The test at the head of the loop of `readn`, and the return behind it. -/
def readnHead (buffer : Buffer) (s : ReadLoop) : ReadLoop :=
  if 0 < s.nleft then s else { s with ret := some (buffer.n - s.nleft).toInt }

/-- `readn` when it comes to its first call. -/
def readnStart (buffer : Buffer) (memory : Memory) : ReadLoop :=
  readnHead buffer
    { ptr := buffer.vptr
      nleft := buffer.n
      errno := 0
      memory := memory
      ret := none
      received := []
      last := none }

/-- The body of the loop of `readn` after `read` has returned. -/
def readnBody (buffer : Buffer) (nread : BitVec 64) (s : ReadLoop) : ReadLoop :=
  if nread < 0 then
    if s.errno = eintr then readnHead buffer { s with nleft := s.nleft - 0, ptr := s.ptr + 0 }
    else { s with ret := some (-1) }
  else if nread = 0 then { s with ret := some (buffer.n - s.nleft).toInt }
  else readnHead buffer { s with nleft := s.nleft - nread, ptr := s.ptr + nread }

/-- One call of `read` by `readn`, and the way to the next. -/
def readnStep (buffer : Buffer) (s : ReadLoop) (outcome : Outcome (List Byte)) :
    Option ReadLoop :=
  if s.ret.isSome then none
  else
    match outcome with
    | .moves bytes =>
      if 0 < bytes.length ∧ bytes.length ≤ s.nleft.toNat then
        some (readnBody buffer (BitVec.ofNat 64 bytes.length)
          { s with
            memory := storeAt s.memory s.ptr bytes
            received := s.received ++ bytes
            last := some outcome })
      else none
    | .zero => some (readnBody buffer 0 { s with last := some outcome })
    | .fails errno =>
      some (readnBody buffer (-1) { s with errno := errno, last := some outcome })

/-- The variables of `writen` and `errno`, with its result when it has returned, the bytes sent so far
and what the last call did. -/
structure WriteLoop where
  ptr : BitVec 64
  nleft : BitVec 64
  errno : ℕ
  ret : Option ℤ
  sent : List Byte
  last : Option (Outcome ℕ)

/-- The test at the head of the loop of `writen`, and the return behind it. -/
def writenHead (buffer : Buffer) (s : WriteLoop) : WriteLoop :=
  if 0 < s.nleft then s else { s with ret := some buffer.n.toInt }

/-- `writen` when it comes to its first call. -/
def writenStart (buffer : Buffer) : WriteLoop :=
  writenHead buffer
    { ptr := buffer.vptr
      nleft := buffer.n
      errno := 0
      ret := none
      sent := []
      last := none }

/-- The body of the loop of `writen` after `write` has returned. -/
def writenBody (buffer : Buffer) (nwritten : BitVec 64) (s : WriteLoop) : WriteLoop :=
  if nwritten ≤ 0 then
    if nwritten < 0 ∧ s.errno = eintr then
      writenHead buffer { s with nleft := s.nleft - 0, ptr := s.ptr + 0 }
    else { s with ret := some (-1) }
  else writenHead buffer { s with nleft := s.nleft - nwritten, ptr := s.ptr + nwritten }

/-- One call of `write` by `writen`, and the way to the next. -/
def writenStep (buffer : Buffer) (memory : Memory) (s : WriteLoop) (outcome : Outcome ℕ) :
    Option WriteLoop :=
  if s.ret.isSome then none
  else
    match outcome with
    | .moves count =>
      if 0 < count ∧ count ≤ s.nleft.toNat then
        some (writenBody buffer (BitVec.ofNat 64 count)
          { s with sent := s.sent ++ loadAt memory s.ptr count, last := some outcome })
      else none
    | .zero => some (writenBody buffer 0 { s with last := some outcome })
    | .fails errno =>
      some (writenBody buffer (-1) { s with errno := errno, last := some outcome })

/-! ### Exact transfers -/

/-- The window `[vptr + done, vptr + n)`, not empty. -/
structure Remaining (buffer : Buffer) (done : ℕ) (ptr nleft : BitVec 64) : Prop where
  ptr_eq : ptr = buffer.vptr + BitVec.ofNat 64 done
  nleft_eq : nleft.toNat = buffer.n.toNat - done
  done_lt : done < buffer.n.toNat

/-- What holds of an exact read between two calls and when it has returned. -/
structure ReadsExactly (buffer : Buffer) (s : ReadLoop) : Prop where
  window : s.ret = none → Remaining buffer s.received.length s.ptr s.nleft
  stored : loadAt s.memory buffer.vptr s.received.length = s.received
  eintr : s.last = some (.fails eintr) → s.ret = none
  error : ∀ errno, errno ≠ ExactTransfer.eintr → s.last = some (.fails errno) → s.ret = some (-1)
  eof : s.last = some .zero → s.ret = some (s.received.length : ℤ)
  ret : ∀ ret, s.ret = some ret → ret = -1 ∧ (∃ errno, s.last = some (.fails errno)) ∨
    ret = s.received.length ∧ (s.last = some .zero ∨ s.received.length = buffer.n.toNat)

/-- What holds of an exact write between two calls and when it has returned. -/
structure WritesExactly (buffer : Buffer) (memory : Memory) (s : WriteLoop) : Prop where
  window : s.ret = none → Remaining buffer s.sent.length s.ptr s.nleft
  sent : s.sent = loadAt memory buffer.vptr s.sent.length
  eintr : s.last = some (.fails eintr) → s.ret = none
  error : ∀ errno, errno ≠ ExactTransfer.eintr → s.last = some (.fails errno) → s.ret = some (-1)
  ret : ∀ ret, s.ret = some ret →
    ret = -1 ∧ (s.last = some .zero ∨ ∃ errno, s.last = some (.fails errno)) ∨
      ret = buffer.n.toNat ∧ s.sent.length = buffer.n.toNat

/-! ### Windows -/

/-- A word as a number, for counts that an `ssize_t` can hold. -/
theorem toInt_of_toNat {word : BitVec 64} {count : ℕ} (hword : word.toNat = count)
    (hlt : count < 2 ^ 63) : word.toInt = count := by
  rw [BitVec.toInt_eq_toNat_of_lt (by omega), hword]

/-- An unsigned word is never below zero. -/
theorem not_lt_zero (word : BitVec 64) : ¬ word < 0 := by
  rw [BitVec.lt_def]
  exact Nat.not_lt_zero _

theorem ofNat_ne_zero {count : ℕ} (hpos : 0 < count) (hlt : count < 2 ^ 64) :
    BitVec.ofNat 64 count ≠ 0 := by
  intro hzero
  have htoNat := congrArg BitVec.toNat hzero
  rw [BitVec.toNat_ofNat, Nat.mod_eq_of_lt hlt] at htoNat
  exact hpos.ne' htoNat

theorem le_zero_iff (word : BitVec 64) : word ≤ 0 ↔ word = 0 := by
  rw [BitVec.le_def, ← BitVec.toNat_inj]
  exact Nat.le_zero

section Window

variable {buffer : Buffer} {done : ℕ} {ptr nleft : BitVec 64}

theorem Remaining.moves (h : Remaining buffer done ptr nleft) {count : ℕ}
    (hcount : count ≤ nleft.toNat) :
    (nleft - BitVec.ofNat 64 count).toNat = buffer.n.toNat - (done + count) ∧
      ptr + BitVec.ofNat 64 count = buffer.vptr + BitVec.ofNat 64 (done + count) := by
  have hnleft := h.nleft_eq
  have hlt := nleft.isLt
  have hword : (BitVec.ofNat 64 count).toNat = count := by
    rw [BitVec.toNat_ofNat, Nat.mod_eq_of_lt (by omega)]
  constructor
  · rw [BitVec.toNat_sub_of_le (by rw [BitVec.le_def, hword]; exact hcount), hword]
    omega
  · rw [h.ptr_eq, BitVec.ofNat_add, BitVec.add_assoc]

/-- The bytes counted when the loop ends with part of the window left. -/
theorem Remaining.toInt_sub (h : Remaining buffer done ptr nleft) :
    (buffer.n - nleft).toInt = done := by
  have hlt := buffer.length_lt
  have hnleft := h.nleft_eq
  have hdone := h.done_lt
  refine toInt_of_toNat ?_ (by omega)
  rw [BitVec.toNat_sub_of_le (by rw [BitVec.le_def]; omega)]
  omega

/-- A failing call leaves one byte more to be moved. -/
theorem Remaining.toNat_fails (h : Remaining buffer done ptr nleft) :
    (nleft - -1).toNat = nleft.toNat + 1 := by
  have hnleft := h.nleft_eq
  have hlt := buffer.length_lt
  have hsub : nleft - -1 = nleft + 1 := by ring
  have hone : (1 : BitVec 64).toNat = 1 := rfl
  rw [hsub, BitVec.toNat_add, hone, Nat.mod_eq_of_lt (by omega)]

theorem Remaining.pos_fails (h : Remaining buffer done ptr nleft) : 0 < nleft - -1 := by
  rw [BitVec.lt_def, h.toNat_fails]
  exact Nat.succ_pos _

/-- The window after a failing call is not the one there was. -/
theorem Remaining.not_fails (h : Remaining buffer done ptr nleft) :
    ¬ Remaining buffer done (ptr + -1) (nleft - -1) := by
  intro h'
  have hbefore := h.nleft_eq
  have hafter := h'.nleft_eq
  rw [h.toNat_fails] at hafter
  omega

end Window

/-! ### Reads -/

/-- The bytes from an address on, after some have been stored behind the first of them. -/
theorem loadAt_storeAt (memory : Memory) (vptr : BitVec 64) {done : ℕ} {bytes : List Byte}
    (hlt : done + bytes.length < 2 ^ 64) :
    loadAt (storeAt memory (vptr + BitVec.ofNat 64 done) bytes) vptr (done + bytes.length) =
      loadAt memory vptr done ++ bytes := by
  have hoffset (indx : ℕ) : vptr + BitVec.ofNat 64 indx - (vptr + BitVec.ofNat 64 done) =
      BitVec.ofNat 64 indx - BitVec.ofNat 64 done := add_sub_add_left_eq_sub _ _ _
  have hbefore : ∀ indx ∈ List.range done,
      storeAt memory (vptr + BitVec.ofNat 64 done) bytes (vptr + BitVec.ofNat 64 indx) =
        memory (vptr + BitVec.ofNat 64 indx) := by
    intro indx hindx
    have hindx := List.mem_range.mp hindx
    rw [storeAt, if_neg]
    rw [hoffset, BitVec.toNat_sub, BitVec.toNat_ofNat, BitVec.toNat_ofNat]
    omega
  have hstored : ∀ indx < bytes.length,
      storeAt memory (vptr + BitVec.ofNat 64 done) bytes (vptr + BitVec.ofNat 64 (done + indx)) =
        bytes.getD indx 0 := by
    intro indx hindx
    have htoNat : (BitVec.ofNat 64 (done + indx) - BitVec.ofNat 64 done).toNat = indx := by
      rw [BitVec.toNat_sub, BitVec.toNat_ofNat, BitVec.toNat_ofNat]
      omega
    rw [storeAt, hoffset, htoNat, if_pos hindx]
  rw [loadAt, List.range_add, List.map_append, List.map_congr_left hbefore, List.map_map]
  congr 1
  refine List.ext_getElem (by simp) fun indx hindx hindx' ↦ ?_
  simp only [List.getElem_map, List.getElem_range, Function.comp_apply]
  rw [hstored indx hindx', List.getD_eq_getElem?_getD, List.getElem?_eq_getElem hindx']
  rfl

section Read

variable {buffer : Buffer} {s : ReadLoop}

theorem readnBody_eq (nread : BitVec 64) :
    readnBody buffer nread s =
      if nread = 0 then { s with ret := some (buffer.n - s.nleft).toInt }
      else readnHead buffer { s with nleft := s.nleft - nread, ptr := s.ptr + nread } := by
  rw [readnBody, if_neg (not_lt_zero nread)]

/-- The head of the loop on a window: the loop goes on, or it ends with all bytes received. -/
theorem readsExactly_head {bytes : List Byte} (hret : s.ret = none)
    (hlast : s.last = some (.moves bytes) ∨ s.last = none)
    (hstored : loadAt s.memory buffer.vptr s.received.length = s.received)
    (hptr : s.ptr = buffer.vptr + BitVec.ofNat 64 s.received.length)
    (hnleft : s.nleft.toNat = buffer.n.toNat - s.received.length)
    (hle : s.received.length ≤ buffer.n.toNat) : ReadsExactly buffer (readnHead buffer s) := by
  have hfails (errno : ℕ) : s.last ≠ some (.fails errno) := by
    rcases hlast with hlast | hlast <;> rw [hlast] <;> exact nofun
  have hzero : s.last ≠ some .zero := by
    rcases hlast with hlast | hlast <;> rw [hlast] <;> exact nofun
  rw [readnHead]
  split_ifs with hleft
  · have hpos : 0 < s.nleft.toNat := BitVec.lt_def.mp hleft
    refine ⟨fun _ ↦ ⟨hptr, hnleft, by omega⟩, hstored, fun hl ↦ (hfails _ hl).elim,
      fun errno _ hl ↦ (hfails errno hl).elim, fun hl ↦ (hzero hl).elim, fun ret hr ↦ ?_⟩
    rw [hret] at hr
    cases hr
  · have hnone : s.nleft.toNat = 0 := by
      rw [BitVec.lt_def] at hleft
      exact Nat.eq_zero_of_not_pos hleft
    have hall : s.received.length = buffer.n.toNat := by omega
    refine ⟨nofun, hstored, fun hl ↦ (hfails _ hl).elim, fun errno _ hl ↦ (hfails errno hl).elim,
      fun hl ↦ (hzero hl).elim, fun ret hr ↦ .inr ⟨?_, .inr hall⟩⟩
    have hlt := buffer.length_lt
    rw [← Option.some.inj hr, hall]
    refine toInt_of_toNat ?_ hlt
    rw [BitVec.toNat_sub_of_le (by rw [BitVec.le_def]; omega), hnone, Nat.sub_zero]

theorem readsExactly_start (buffer : Buffer) (memory : Memory) :
    ReadsExactly buffer (readnStart buffer memory) :=
  @readsExactly_head buffer _ [] rfl (.inr rfl) rfl (BitVec.add_zero _).symm rfl (Nat.zero_le _)

/-- A call leaves an exact read exact if and only if it does not fail. -/
theorem readsExactly_step {outcome : Outcome (List Byte)} {next : ReadLoop}
    (h : ReadsExactly buffer s) (htaken : readnStep buffer s outcome = some next) :
    ReadsExactly buffer next ↔ ¬ outcome.Fails := by
  unfold readnStep at htaken
  split_ifs at htaken with hreturned
  have hret : s.ret = none := Option.not_isSome_iff_eq_none.mp hreturned
  have hwindow := h.window hret
  have hlt := buffer.length_lt
  have hdone := hwindow.done_lt
  have hnleft := hwindow.nleft_eq
  cases outcome with
  | moves bytes =>
    refine iff_of_true ?_ not_false
    simp only at htaken
    split_ifs at htaken with hcount
    cases htaken
    obtain ⟨hpos, hle⟩ := hcount
    have hne : BitVec.ofNat 64 bytes.length ≠ 0 := ofNat_ne_zero hpos (by omega)
    obtain ⟨hnleft', hptr'⟩ := hwindow.moves hle
    rw [readnBody_eq, if_neg hne]
    refine @readsExactly_head buffer _ bytes hret (.inl rfl) ?_ ?_ ?_ ?_
    · show loadAt (storeAt s.memory s.ptr bytes) buffer.vptr (s.received ++ bytes).length = _
      rw [List.length_append, hwindow.ptr_eq, loadAt_storeAt _ _ (by omega), h.stored]
    · rw [List.length_append]
      exact hptr'
    · rw [List.length_append]
      exact hnleft'
    · rw [List.length_append]
      omega
  | zero =>
    refine iff_of_true ?_ not_false
    cases htaken
    rw [readnBody_eq, if_pos rfl, hwindow.toInt_sub]
    refine ⟨nofun, h.stored, nofun, nofun, fun _ ↦ rfl, fun ret hr ↦ .inr ⟨?_, .inl rfl⟩⟩
    exact (Option.some.inj hr).symm
  | fails errno =>
    refine iff_of_false (fun hexact ↦ ?_) (not_not.mpr trivial)
    cases htaken
    have hne : (-1 : BitVec 64) ≠ 0 := by decide
    rw [readnBody_eq, if_neg hne, readnHead, if_pos hwindow.pos_fails] at hexact
    exact hwindow.not_fails (hexact.window hret)

end Read

/-! ### Writes -/

section Write

variable {buffer : Buffer} {memory : Memory} {s : WriteLoop}

theorem writenBody_eq (nwritten : BitVec 64) :
    writenBody buffer nwritten s =
      if nwritten = 0 then { s with ret := some (-1) }
      else writenHead buffer { s with nleft := s.nleft - nwritten, ptr := s.ptr + nwritten } := by
  by_cases hzero : nwritten = 0
  · rw [writenBody, if_pos ((le_zero_iff nwritten).mpr hzero),
      if_neg fun hinterrupted ↦ not_lt_zero nwritten hinterrupted.1, if_pos hzero]
  · rw [writenBody, if_neg (mt (le_zero_iff nwritten).mp hzero), if_neg hzero]

/-- The bytes of two neighbouring windows. -/
theorem loadAt_add (memory : Memory) (vptr : BitVec 64) (done count : ℕ) :
    loadAt memory vptr (done + count) =
      loadAt memory vptr done ++ loadAt memory (vptr + BitVec.ofNat 64 done) count := by
  rw [loadAt, List.range_add, List.map_append, List.map_map]
  congr 1
  refine List.map_congr_left fun indx _ ↦ ?_
  rw [Function.comp_apply, BitVec.ofNat_add, BitVec.add_assoc]

theorem length_loadAt (memory : Memory) (ptr : BitVec 64) (count : ℕ) :
    (loadAt memory ptr count).length = count := by
  rw [loadAt, List.length_map, List.length_range]

/-- The head of the loop on a window: the loop goes on, or it ends with all bytes sent. -/
theorem writesExactly_head {count : ℕ} (hret : s.ret = none)
    (hlast : s.last = some (.moves count) ∨ s.last = none)
    (hsent : s.sent = loadAt memory buffer.vptr s.sent.length)
    (hptr : s.ptr = buffer.vptr + BitVec.ofNat 64 s.sent.length)
    (hnleft : s.nleft.toNat = buffer.n.toNat - s.sent.length)
    (hle : s.sent.length ≤ buffer.n.toNat) :
    WritesExactly buffer memory (writenHead buffer s) := by
  have hfails (errno : ℕ) : s.last ≠ some (.fails errno) := by
    rcases hlast with hlast | hlast <;> rw [hlast] <;> exact nofun
  rw [writenHead]
  split_ifs with hleft
  · have hpos : 0 < s.nleft.toNat := BitVec.lt_def.mp hleft
    refine ⟨fun _ ↦ ⟨hptr, hnleft, by omega⟩, hsent, fun hl ↦ (hfails _ hl).elim,
      fun errno _ hl ↦ (hfails errno hl).elim, fun ret hr ↦ ?_⟩
    rw [hret] at hr
    cases hr
  · have hnone : s.nleft.toNat = 0 := by
      rw [BitVec.lt_def] at hleft
      exact Nat.eq_zero_of_not_pos hleft
    refine ⟨nofun, hsent, fun hl ↦ (hfails _ hl).elim, fun errno _ hl ↦ (hfails errno hl).elim,
      fun ret hr ↦ .inr ⟨?_, ?_⟩⟩
    · rw [← Option.some.inj hr]
      exact toInt_of_toNat rfl buffer.length_lt
    · show s.sent.length = buffer.n.toNat
      omega

theorem writesExactly_start (buffer : Buffer) (memory : Memory) :
    WritesExactly buffer memory (writenStart buffer) :=
  @writesExactly_head buffer memory _ 0 rfl (.inr rfl) rfl (BitVec.add_zero _).symm rfl
    (Nat.zero_le _)

/-- A call leaves an exact write exact if and only if it does not fail. -/
theorem writesExactly_step {outcome : Outcome ℕ} {next : WriteLoop}
    (h : WritesExactly buffer memory s) (htaken : writenStep buffer memory s outcome = some next) :
    WritesExactly buffer memory next ↔ ¬ outcome.Fails := by
  unfold writenStep at htaken
  split_ifs at htaken with hreturned
  have hret : s.ret = none := Option.not_isSome_iff_eq_none.mp hreturned
  have hwindow := h.window hret
  have hlt := buffer.length_lt
  have hdone := hwindow.done_lt
  have hnleft := hwindow.nleft_eq
  cases outcome with
  | moves count =>
    refine iff_of_true ?_ not_false
    simp only at htaken
    split_ifs at htaken with hcount
    cases htaken
    obtain ⟨hpos, hle⟩ := hcount
    have hne : BitVec.ofNat 64 count ≠ 0 := ofNat_ne_zero hpos (by omega)
    obtain ⟨hnleft', hptr'⟩ := hwindow.moves hle
    have hlength : (s.sent ++ loadAt memory s.ptr count).length = s.sent.length + count := by
      rw [List.length_append, length_loadAt]
    rw [writenBody_eq, if_neg hne]
    refine @writesExactly_head buffer memory _ count hret (.inl rfl) ?_ ?_ ?_ ?_
    · show s.sent ++ loadAt memory s.ptr count = _
      rw [hlength, loadAt_add, ← h.sent, hwindow.ptr_eq]
    · rw [hlength]
      exact hptr'
    · rw [hlength]
      exact hnleft'
    · rw [hlength]
      omega
  | zero =>
    refine iff_of_true ?_ not_false
    cases htaken
    rw [writenBody_eq, if_pos rfl]
    refine ⟨nofun, h.sent, nofun, nofun, fun ret hr ↦ .inl ⟨?_, .inl rfl⟩⟩
    exact (Option.some.inj hr).symm
  | fails errno =>
    refine iff_of_false (fun hexact ↦ ?_) (not_not.mpr trivial)
    cases htaken
    have hne : (-1 : BitVec 64) ≠ 0 := by decide
    rw [writenBody_eq, if_neg hne, writenHead, if_pos hwindow.pos_fails] at hexact
    exact hwindow.not_fails (hexact.window hret)

end Write

/-! ### Whole transfers -/

/-- In a run of `readn` or `writen` over any outcomes of its calls the transfer is exact at every call
and at the return if and only if no call fails. -/
theorem exact_iff (buffer : Buffer) (memory : Memory) :
    (∀ (outcomes : List (Outcome (List Byte))) (last : ReadLoop),
      execute (readnStep buffer) anyEvent (readnStart buffer memory) outcomes = some last →
      (ReadsExactly buffer (readnStart buffer memory) ∧
          Along (readnStep buffer) (Keeps (readnStep buffer) (ReadsExactly buffer))
            (readnStart buffer memory) outcomes ↔ ∀ outcome ∈ outcomes, ¬ outcome.Fails)) ∧
    ∀ (outcomes : List (Outcome ℕ)) (last : WriteLoop),
      execute (writenStep buffer memory) anyEvent (writenStart buffer) outcomes = some last →
      (WritesExactly buffer memory (writenStart buffer) ∧
          Along (writenStep buffer memory)
            (Keeps (writenStep buffer memory) (WritesExactly buffer memory))
            (writenStart buffer) outcomes ↔ ∀ outcome ∈ outcomes, ¬ outcome.Fails) := by
  constructor
  · intro outcomes last hexecute
    have hstart := readsExactly_start buffer memory
    rw [and_iff_right hstart]
    exact along_keeps_iff (fun _ _ _ h htaken ↦ readsExactly_step h htaken) hstart hexecute
  · intro outcomes last hexecute
    have hstart := writesExactly_start buffer memory
    rw [and_iff_right hstart]
    exact along_keeps_iff (fun _ _ _ h htaken ↦ writesExactly_step h htaken) hstart hexecute

/-- A buffer of four bytes. -/
def fourBytes : Buffer := ⟨0x1000, 4, by decide⟩

/-- A read of four bytes in two parts. -/
theorem exact_iff_twoParts :
    Along (readnStep fourBytes) (Keeps (readnStep fourBytes) (ReadsExactly fourBytes))
      (readnStart fourBytes fun _ ↦ 0) [.moves [1, 2, 3], .moves [4]] := by
  obtain ⟨last, hexecute⟩ : ∃ last, execute (readnStep fourBytes) anyEvent
      (readnStart fourBytes fun _ ↦ 0) [.moves [1, 2, 3], .moves [4]] = some last := ⟨_, rfl⟩
  refine (((exact_iff fourBytes _).1 _ last hexecute).mpr fun outcome houtcome ↦ ?_).2
  simp only [List.mem_cons, List.not_mem_nil, or_false] at houtcome
  rcases houtcome with rfl | rfl <;> exact not_false

/-- A signal before the first byte has `read` store in front of the buffer. -/
theorem not_readsExactly_interrupted :
    ¬ ∀ outcomes last, execute (readnStep fourBytes) anyEvent (readnStart fourBytes fun _ ↦ 0)
        outcomes = some last → ReadsExactly fourBytes last := by
  intro hexact
  obtain ⟨last, hexecute, hret, hreceived, hptr⟩ : ∃ last, execute (readnStep fourBytes) anyEvent
      (readnStart fourBytes fun _ ↦ 0) [.fails eintr] = some last ∧ last.ret = none ∧
        last.received = [] ∧ last.ptr = 0xfff := ⟨_, rfl, rfl, rfl, rfl⟩
  have hwindow := (hexact _ last hexecute).window hret
  rw [hreceived, hptr] at hwindow
  exact absurd hwindow.ptr_eq (by decide)

end CppLearn.SearchEngine.ExactTransfer
