import Mathlib.Order.Lattice
import Mathlib.Tactic.Common

/-!
# A buffer that is filled and emptied from its front

Elements are put behind those that are there, as long as there is room, and taken from the front. A
buffer that is emptied begins anew, so that its room comes back only then. The structure carries what
the two positions always meet; `contents_put` and `contents_get` say what a put and a get do to the
elements between them.
-/

set_option autoImplicit false
set_option relaxedAutoImplicit false

namespace CppLearn.Foundation.LinearBuffer

/-- Slots, the place of the next element that is put, and that of the next that is taken. -/
structure Buffer (α : Type*) (capacity : ℕ) where
  slots : ℕ → α
  iptr : ℕ
  optr : ℕ
  optr_le : optr ≤ iptr
  iptr_le : iptr ≤ capacity
  anew : optr = iptr → iptr = 0

namespace Buffer

variable {α : Type*} {capacity : ℕ} (b : Buffer α capacity)

/-- A buffer with nothing in it. -/
def empty (slots : ℕ → α) : Buffer α capacity where
  slots := slots
  iptr := 0
  optr := 0
  optr_le := Nat.le_refl 0
  iptr_le := Nat.zero_le capacity
  anew _ := rfl

/-- The elements in a buffer, in their order. -/
def contents : List α := (List.range (b.iptr - b.optr)).map fun k ↦ b.slots (b.optr + k)

/-- Elements are put where there is room for them. -/
def put (elements : List α) (hroom : b.iptr + elements.length ≤ capacity) : Buffer α capacity where
  slots i := if i < b.iptr then b.slots i else elements.getD (i - b.iptr) (b.slots i)
  iptr := b.iptr + elements.length
  optr := b.optr
  optr_le := Nat.le_trans b.optr_le (Nat.le_add_right _ _)
  iptr_le := hroom
  anew heq := by
    have hle := b.optr_le
    have hanew := b.anew (by omega)
    omega

/-- So many elements are taken, and a buffer that is emptied begins anew. -/
def get (count : ℕ) (hcount : b.optr + count ≤ b.iptr) : Buffer α capacity :=
  if hempty : b.optr + count = b.iptr then empty b.slots
  else
    { b with
      optr := b.optr + count
      optr_le := hcount
      anew := fun heq ↦ absurd heq hempty }

@[simp] theorem length_contents : b.contents.length = b.iptr - b.optr := by
  rw [contents, List.length_map, List.length_range]

theorem contents_empty (slots : ℕ → α) : (empty slots : Buffer α capacity).contents = [] := rfl

theorem contents_eq_nil_iff : b.contents = [] ↔ b.optr = b.iptr := by
  have hle := b.optr_le
  rw [← List.length_eq_zero_iff, length_contents]
  omega

/-- Nothing is in a buffer exactly if it begins anew. -/
theorem iptr_eq_zero_iff : b.iptr = 0 ↔ b.contents = [] := by
  have hle := b.optr_le
  rw [contents_eq_nil_iff]
  exact ⟨fun hzero ↦ by omega, b.anew⟩

theorem getElem?_contents {k : ℕ} (hk : k < b.iptr - b.optr) :
    b.contents[k]? = some (b.slots (b.optr + k)) := by
  rw [contents, List.getElem?_map, List.getElem?_range hk, Option.map_some]

/-- A put appends. -/
theorem contents_put {elements : List α} (hroom : b.iptr + elements.length ≤ capacity) :
    (b.put elements hroom).contents = b.contents ++ elements := by
  have hle := b.optr_le
  refine List.ext_getElem? fun k ↦ ?_
  by_cases hold : k < b.iptr - b.optr
  · have hlt : b.optr + k < b.iptr := by omega
    rw [List.getElem?_append_left (by rw [length_contents]; exact hold), getElem?_contents b hold,
      getElem?_contents (b.put elements hroom) (by simp only [put]; omega)]
    simp only [put, if_pos hlt]
  · rw [List.getElem?_append_right (by rw [length_contents]; omega), length_contents]
    by_cases hnew : k < b.iptr + elements.length - b.optr
    · have hge : ¬ b.optr + k < b.iptr := by omega
      have hindex : b.optr + k - b.iptr = k - (b.iptr - b.optr) := by omega
      have hlt : k - (b.iptr - b.optr) < elements.length := by omega
      rw [getElem?_contents (b.put elements hroom) hnew]
      simp only [put, if_neg hge, hindex, List.getD_eq_getElem?_getD, List.getElem?_eq_getElem hlt,
        Option.getD_some]
    · rw [List.getElem?_eq_none (by rw [length_contents]; exact Nat.not_lt.mp hnew),
        List.getElem?_eq_none (by omega)]

/-- A get takes from the front. -/
theorem contents_get {count : ℕ} (hcount : b.optr + count ≤ b.iptr) :
    (b.get count hcount).contents = b.contents.drop count := by
  have hlength : (b.contents.drop count).length = b.iptr - (b.optr + count) := by
    rw [List.length_drop, length_contents, Nat.sub_sub]
  unfold get
  split_ifs with hempty
  · rw [contents_empty, eq_comm, ← List.length_eq_zero_iff, hlength]
    omega
  · refine List.ext_getElem? fun k ↦ ?_
    by_cases hk : k < b.iptr - (b.optr + count)
    · rw [List.getElem?_drop, getElem?_contents b (by omega), getElem?_contents _ hk, Nat.add_assoc]
    · have hnone : b.iptr - (b.optr + count) ≤ k := Nat.not_lt.mp hk
      rw [List.getElem?_eq_none ((length_contents _).trans_le hnone),
        List.getElem?_eq_none (hlength.trans_le hnone)]

/-- A buffer with something in it can be emptied. -/
theorem exists_get_all (hsome : b.contents ≠ []) :
    b.optr < b.iptr ∧ ∃ hcount : b.optr + (b.iptr - b.optr) ≤ b.iptr,
      (b.get (b.iptr - b.optr) hcount).contents = [] := by
  have hne := mt b.contents_eq_nil_iff.mpr hsome
  have hle := b.optr_le
  refine ⟨by omega, by omega, ?_⟩
  rw [contents_get]
  exact List.drop_of_length_le (Nat.le_of_eq b.length_contents)

/-- A buffer without room has something in it. -/
theorem contents_ne_nil_of_full (hpos : 0 < capacity) (hfull : ¬ b.iptr < capacity) :
    b.contents ≠ [] := by
  intro hnil
  have hzero := b.iptr_eq_zero_iff.mpr hnil
  omega

end Buffer

end CppLearn.Foundation.LinearBuffer
