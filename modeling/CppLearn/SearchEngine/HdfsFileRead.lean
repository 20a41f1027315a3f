import Mathlib.Algebra.BigOperators.Group.List.Basic
import Mathlib.Algebra.Order.Group.Int
import Mathlib.Algebra.Ring.Int.Defs
import CppLearn.Foundation.GuardedRun

/-!
# Loading a file from HDFS

The loop of `HdfsParquetReader::read_file_from_dfs` calls `hdfsRead` until it returns zero, at the
position behind what it has read and for the length of the whole file each time. The result is added
to the position whatever it is, also -1.

`LoadsBounded` is what the loop is for: every call is for bytes inside the buffer, an error ends the
loop, and it ends. It is met exactly if no call before the first zero fails and what these calls have
read leaves room for one more of the whole length (`loadsBounded_iff`), which a file with bytes in it
does not leave.
-/

set_option autoImplicit false
set_option relaxedAutoImplicit false

namespace CppLearn.SearchEngine.HdfsFileRead

open Foundation.GuardedRun

/-! ### The loop -/

/-- The last argument of `hdfsRead`: `file_len` as a `tSize`. -/
def askedLen (fileLen : ℕ) : ℤ := (BitVec.ofNat 32 fileLen).toInt

/-- What `hdfsRead` may return for a length: a count up to it, or -1. -/
def HdfsReadReturns (len readLen : ℤ) : Prop := 0 ≤ readLen ∧ readLen ≤ len ∨ readLen = -1

instance (len readLen : ℤ) : Decidable (HdfsReadReturns len readLen) :=
  inferInstanceAs (Decidable (_ ∨ _))

/-- The variables of the loop, and whether it has been left. -/
structure FileRead where
  readLen : Option ℤ
  alreadyReadLen : ℤ
  ended : Bool

/-- Before the first call. -/
def FileRead.start : FileRead := { readLen := none, alreadyReadLen := 0, ended := false }

/-- One call of `hdfsRead` and the test of its result. -/
def readStep (fileLen : ℕ) (s : FileRead) (readLen : ℤ) : Option FileRead :=
  if s.ended then none
  else if HdfsReadReturns (askedLen fileLen) readLen then
    if readLen = 0 then some { s with readLen := some readLen, ended := true }
    else
      some { s with
        readLen := some readLen
        alreadyReadLen := s.alreadyReadLen + readLen }
  else none

/-! ### Bounded loads -/

/-- The next call is for bytes inside the buffer, and the loop has been left after an error. -/
structure Inside (fileLen : ℕ) (s : FileRead) : Prop where
  position : 0 ≤ s.alreadyReadLen
  fits : s.ended = false → s.alreadyReadLen + askedLen fileLen ≤ fileLen
  error : s.readLen = some (-1) → s.ended = true

/-- Every call of a load is inside the buffer, and there are not more calls than bytes, and one. -/
structure LoadsBounded (fileLen : ℕ) (results : List ℤ) : Prop where
  start : Inside fileLen .start
  calls : Along (readStep fileLen) (Keeps (readStep fileLen) (Inside fileLen)) .start results
  length_le : results.length ≤ fileLen + 1

/-- A `tSize` is at most the length it is made of. -/
theorem askedLen_le (fileLen : ℕ) : askedLen fileLen ≤ fileLen := by
  have hmod : fileLen % 2 ^ 32 ≤ fileLen := Nat.mod_le ..
  rw [askedLen, BitVec.toInt_eq_toNat_cond, BitVec.toNat_ofNat]
  split_ifs <;> omega

section Step

variable {fileLen : ℕ} {s next : FileRead} {readLen : ℤ}

/-- What holds between two calls, and at the end, of a load that is inside the buffer. -/
structure Room (fileLen : ℕ) (s : FileRead) : Prop extends Inside fileLen s where
  room : s.alreadyReadLen + askedLen fileLen ≤ fileLen

/-- The call does not fail, and it leaves room for another. -/
def LeavesRoom (fileLen : ℕ) (s : FileRead) (readLen : ℤ) : Prop :=
  readLen ≠ -1 ∧ s.alreadyReadLen + readLen + askedLen fileLen ≤ fileLen

theorem room_start (fileLen : ℕ) : Room fileLen .start where
  position := le_rfl
  fits _ := by
    show 0 + askedLen fileLen ≤ fileLen
    rw [Int.zero_add]
    exact askedLen_le fileLen
  error := nofun
  room := by
    show 0 + askedLen fileLen ≤ fileLen
    rw [Int.zero_add]
    exact askedLen_le fileLen

theorem readStep_eq (htaken : readStep fileLen s readLen = some next) :
    s.ended = false ∧ HdfsReadReturns (askedLen fileLen) readLen ∧
      next.alreadyReadLen = s.alreadyReadLen + readLen ∧ next.readLen = some readLen ∧
      next.ended = decide (readLen = 0) := by
  unfold readStep at htaken
  split_ifs at htaken with hended hreturns hzero
  · cases htaken
    exact ⟨Bool.eq_false_iff.mpr hended, hreturns, by simp [hzero], rfl, by simp [hzero]⟩
  · cases htaken
    exact ⟨Bool.eq_false_iff.mpr hended, hreturns, rfl, rfl,
      by simp [hzero, Bool.eq_false_iff.mpr hended]⟩

/-- A call stays inside the buffer exactly if it leaves room, or finds the end of the file. -/
theorem inside_iff (h : Room fileLen s) (htaken : readStep fileLen s readLen = some next) :
    Inside fileLen next ↔ LeavesRoom fileLen s readLen := by
  obtain ⟨-, hreturns, halready, hreadLen, hended⟩ := readStep_eq htaken
  have hposition := h.position
  have hroom := h.room
  constructor
  · intro hinside
    have hfits := hinside.fits
    have herror := hinside.error
    rw [hended, halready] at hfits
    rw [hreadLen, hended] at herror
    constructor
    · rintro rfl
      exact absurd (herror rfl) (by decide)
    · by_cases hzero : readLen = 0
      · omega
      · exact hfits (decide_eq_false hzero)
  · rintro ⟨hne, hleaves⟩
    have hnonneg : 0 ≤ readLen := (hreturns.resolve_right hne).1
    refine ⟨by omega, fun _ ↦ by omega, fun herror ↦ ?_⟩
    rw [hreadLen] at herror
    exact (hne (Option.some.inj herror)).elim

theorem Room.step (h : Room fileLen s) (hleaves : LeavesRoom fileLen s readLen)
    (htaken : readStep fileLen s readLen = some next) : Room fileLen next where
  toInside := (inside_iff h htaken).mpr hleaves
  room := by
    rw [(readStep_eq htaken).2.2.1]
    exact hleaves.2

end Step

/-! ### Whole loads -/

section Loads

variable {fileLen : ℕ} {s last : FileRead} {results : List ℤ}

/-- Results other than -1 are counts, of which only the last can be zero. -/
theorem length_le_sum (hexecute : execute (readStep fileLen) anyEvent s results = some last)
    (hne : ∀ readLen ∈ results, readLen ≠ -1) :
    0 ≤ results.sum ∧ results.length ≤ results.sum + 1 := by
  induction results generalizing s with
  | nil => exact ⟨le_rfl, Int.one_nonneg⟩
  | cons readLen results ih =>
    obtain ⟨next, -, htaken, hrest⟩ := execute_cons hexecute
    obtain ⟨hfirst, hlater⟩ := List.forall_mem_cons.mp hne
    obtain ⟨-, hreturns, -, -, hended⟩ := readStep_eq htaken
    have hnonneg : 0 ≤ readLen := (hreturns.resolve_right hfirst).1
    rw [List.sum_cons, List.length_cons]
    by_cases hzero : readLen = 0
    · cases results with
      | nil => simp [hzero]
      | cons other results =>
        obtain ⟨_, -, hnone, -⟩ := execute_cons hrest
        rw [(readStep_eq hnone).1, decide_eq_true hzero] at hended
        cases hended
    · have hsum := ih hrest hlater
      omega

/-- Every call leaves room exactly if none fails and all together do. -/
theorem along_leavesRoom_iff (h : Room fileLen s)
    (hexecute : execute (readStep fileLen) anyEvent s results = some last) :
    Along (readStep fileLen) (LeavesRoom fileLen) s results ↔
      (∀ readLen ∈ results, readLen ≠ -1) ∧
        s.alreadyReadLen + results.sum + askedLen fileLen ≤ fileLen := by
  induction results generalizing s with
  | nil =>
    refine iff_of_true trivial ⟨fun _ hmem ↦ (List.not_mem_nil hmem).elim, ?_⟩
    rw [List.sum_nil, Int.add_zero]
    exact h.room
  | cons readLen results ih =>
    obtain ⟨next, -, htaken, hrest⟩ := execute_cons hexecute
    have halready := (readStep_eq htaken).2.2.1
    rw [along_cons_iff htaken, List.forall_mem_cons, List.sum_cons]
    constructor
    · rintro ⟨hleaves, hlater⟩
      obtain ⟨hne, hsum⟩ := (ih (h.step hleaves htaken) hrest).mp hlater
      rw [halready] at hsum
      exact ⟨⟨hleaves.1, hne⟩, by omega⟩
    · rintro ⟨⟨hfirst, hne⟩, hsum⟩
      have hnonneg := (length_le_sum hrest hne).1
      have hleaves : LeavesRoom fileLen s readLen := ⟨hfirst, by omega⟩
      refine ⟨hleaves, (ih (h.step hleaves htaken) hrest).mpr ⟨hne, ?_⟩⟩
      rw [halready]
      omega

/-- A load is bounded if and only if no call fails and what all calls return leaves room for another
call. Assumes: results that `hdfsRead` may return, up to the end of the loop or any point before. -/
theorem loadsBounded_iff
    (hexecute : execute (readStep fileLen) anyEvent .start results = some last) :
    LoadsBounded fileLen results ↔
      (∀ readLen ∈ results, readLen ≠ -1) ∧ results.sum + askedLen fileLen ≤ fileLen := by
  have hiffStep : ∀ state readLen next, Room fileLen state →
      readStep fileLen state readLen = some next →
      (Keeps (readStep fileLen) (Inside fileLen) state readLen ↔ LeavesRoom fileLen state readLen) :=
    fun _ _ _ hstate htaken ↦ (keeps_iff htaken).trans (inside_iff hstate htaken)
  have hroom := room_start fileLen
  have halong := (along_iff hiffStep (fun _ _ _ hstate hleaves htaken ↦ hstate.step hleaves htaken)
    hroom hexecute).1.trans (along_leavesRoom_iff hroom hexecute)
  have hzero : FileRead.start.alreadyReadLen = 0 := rfl
  rw [hzero, Int.zero_add] at halong
  constructor
  · intro h
    exact halong.mp h.calls
  · rintro ⟨hne, hsum⟩
    refine ⟨hroom.toInside, halong.mpr ⟨hne, hsum⟩, ?_⟩
    cases results with
    | nil => exact Nat.zero_le _
    | cons readLen results =>
      obtain ⟨next, -, htaken, -⟩ := execute_cons hexecute
      have hreturns := (readStep_eq htaken).2.1.resolve_right (hne readLen (List.mem_cons_self ..))
      have hlength := (length_le_sum hexecute hne).2
      have hbound : ((readLen :: results).length : ℤ) ≤ fileLen + 1 := by omega
      exact_mod_cast hbound

end Loads

/-- A file so long that every call is for ten bytes, which are read in two parts. -/
theorem loadsBounded_shortReads : LoadsBounded (2 ^ 32 + 10) [4, 6, 0] := by
  obtain ⟨last, hexecute⟩ :
      ∃ last, execute (readStep (2 ^ 32 + 10)) anyEvent .start [4, 6, 0] = some last := ⟨_, rfl⟩
  exact (loadsBounded_iff hexecute).mpr (by decide)

/-- A file of ten bytes that is read in two parts: the second call is for four bytes more than there
are. -/
theorem not_loadsBounded_shortRead :
    ¬ ∀ results last, execute (readStep 10) anyEvent .start results = some last →
      LoadsBounded 10 results := by
  intro hbounded
  obtain ⟨last, hexecute⟩ : ∃ last, execute (readStep 10) anyEvent .start [4] = some last :=
    ⟨_, rfl⟩
  have hinside := (hbounded _ last hexecute).calls.1 _ rfl
  have hfits := hinside.fits rfl
  revert hfits
  decide

end CppLearn.SearchEngine.HdfsFileRead
