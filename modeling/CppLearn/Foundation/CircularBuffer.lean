import CppLearn.Foundation.WrappingIndex
import Mathlib.Data.List.Basic

/-!
# Circular buffers by place and count

A queue in an array of `size` slots is the slots from a first place on, counted around the end of the
array. `contents` reads it off: writing the slot after the last appends an entry as long as a slot is
free (`contents_update`), and moving the first place on by one drops the oldest (`contents_succ`). An
empty queue and a full one have the same two places (`last_eq_first_iff`), which is why a program
keeps a count as well, or never fills the last slot.
-/

set_option autoImplicit false
set_option relaxedAutoImplicit false

namespace CppLearn.Foundation.CircularBuffer

open WrappingIndex

variable {Slot : Type*}

/-- The entries of `count` slots from a place on, oldest first. -/
def contents (size : ℕ) (slots : ℕ → Slot) (first count : ℕ) : List Slot :=
  (List.range count).map fun place ↦ slots ((first + place) % size)

@[simp] theorem length_contents (size : ℕ) (slots : ℕ → Slot) (first count : ℕ) :
    (contents size slots first count).length = count := by
  rw [contents, List.length_map, List.length_range]

@[simp] theorem contents_zero (size : ℕ) (slots : ℕ → Slot) (first : ℕ) :
    contents size slots first 0 = [] := rfl

/-- Only the place within the array counts. -/
@[simp] theorem contents_mod (size : ℕ) (slots : ℕ → Slot) (first count : ℕ) :
    contents size slots (first % size) count = contents size slots first count := by
  simp only [contents, Nat.mod_add_mod]

/-- The oldest entry and the others. -/
theorem contents_succ (size : ℕ) (slots : ℕ → Slot) (first count : ℕ) :
    contents size slots first (count + 1) =
      slots (first % size) :: contents size slots (first + 1) count := by
  rw [contents, List.range_succ_eq_map, List.map_cons, List.map_map, contents]
  refine congrArg (slots (first % size) :: ·) (List.map_congr_left fun place _ ↦ ?_)
  rw [Function.comp_apply, Nat.succ_eq_add_one, Nat.add_assoc, Nat.add_comm 1]

/-- The youngest entry and the others. -/
theorem contents_succ_last (size : ℕ) (slots : ℕ → Slot) (first count : ℕ) :
    contents size slots first (count + 1) =
      contents size slots first count ++ [slots ((first + count) % size)] := by
  rw [contents, List.range_succ, List.map_append, List.map_singleton, contents]

/-- A slot outside of the queue can be written. -/
theorem contents_update_of_free {size count first place : ℕ} (hplace : count ≤ place)
    (hroom : place < size) (slots : ℕ → Slot) (entry : Slot) :
    contents size (Function.update slots ((first + place) % size) entry) first count =
      contents size slots first count := by
  refine List.map_congr_left fun other hother ↦ Function.update_of_ne ?_ _ _
  have hlt := List.mem_range.mp hother
  exact slot_ne_of_lt (by omega) (by omega)

/-- Writing the slot after the last appends an entry. -/
theorem contents_update {size count : ℕ} (hroom : count < size) (slots : ℕ → Slot) (first : ℕ)
    (entry : Slot) :
    contents size (Function.update slots ((first + count) % size) entry) first (count + 1) =
      contents size slots first count ++ [entry] := by
  rw [contents_succ_last, contents_update_of_free (Nat.le_refl count) hroom, Function.update_self]

/-- The place after the last is the first again if there are no entries, or as many as slots. -/
theorem last_eq_first_iff {size first count : ℕ} (hfirst : first < size) (hcount : count ≤ size) :
    (first + count) % size = first ↔ count = 0 ∨ count = size := by
  constructor
  · intro hsame
    by_contra hne
    refine slot_ne_of_lt (show first < first + count by omega)
      (show first + count < first + size by omega) ?_
    rw [hsame, Nat.mod_eq_of_lt hfirst]
  · rintro (rfl | rfl)
    · exact Nat.mod_eq_of_lt hfirst
    · rw [Nat.add_mod_right, Nat.mod_eq_of_lt hfirst]

/-- The next place of an array: back to its start at the end. -/
theorem wrap_eq_mod {size place : ℕ} (hplace : place < size) :
    (if size ≤ place + 1 then 0 else place + 1) = (place + 1) % size := by
  split_ifs with hend
  · obtain rfl : size = place + 1 := by omega
    exact (Nat.mod_self _).symm
  · exact (Nat.mod_eq_of_lt (Nat.lt_of_not_le hend)).symm

/-- The same with the test for equality. -/
theorem wrap_eq_mod_of_eq {size place : ℕ} (hplace : place < size) :
    (if place + 1 = size then 0 else place + 1) = (place + 1) % size := by
  rw [← wrap_eq_mod hplace]
  exact if_congr (by omega) rfl rfl

end CppLearn.Foundation.CircularBuffer
