import Mathlib.Algebra.BigOperators.Group.Finset.Basic
import Mathlib.Algebra.Order.BigOperators.Group.Finset
import Mathlib.Data.List.Count

/-!
# How often an element occurs

Where the occurrences of an element lie at least `gap` places apart, one in `gap` elements is one of
them at most, but for the last few (`Spaced.mul_count_le`). Where an element has half of all places
and there are as many others as that, each of the others occurs once (`count_le_one_of_card`).
-/

set_option autoImplicit false
set_option relaxedAutoImplicit false

namespace CppLearn.Foundation.SpacedElements

variable {α : Type*} {gap : ℕ} {val other : α} {vals : List α}

/-- Two occurrences lie at least `gap` places apart. -/
def Spaced (gap : ℕ) (val : α) (vals : List α) : Prop :=
  ∀ first second, first < second → second < first + gap →
    vals[first]? = some val → vals[second]? ≠ some val

theorem Spaced.drop (h : Spaced gap val vals) (size : ℕ) : Spaced gap val (vals.drop size) := by
  intro first second hlt hgap hfirst
  rw [List.getElem?_drop] at hfirst ⊢
  exact h (size + first) (size + second) (by omega) (by omega) hfirst

theorem Spaced.tail (h : Spaced gap val (other :: vals)) : Spaced gap val vals := h.drop 1

variable [DecidableEq α]

/-- The next `gap - 1` elements after an occurrence are others. -/
theorem Spaced.count_eq (h : Spaced gap val (val :: vals)) :
    vals.count val = (vals.drop (gap - 1)).count val := by
  have hzero : (vals.take (gap - 1)).count val = 0 := by
    rw [List.count_eq_zero]
    intro hmem
    obtain ⟨indx, hlt, hval⟩ := List.mem_take_iff_getElem.mp hmem
    refine h 0 (indx + 1) (by omega) (by omega) rfl ?_
    rw [List.getElem?_cons_succ, List.getElem?_eq_getElem (by omega), hval]
  conv_lhs => rw [← List.take_append_drop (gap - 1) vals]
  rw [List.count_append, hzero, Nat.zero_add]

theorem Spaced.mul_count_le (h : Spaced gap val vals) :
    gap * vals.count val ≤ vals.length + (gap - 1) := by
  induction hlength : vals.length using Nat.strong_induction_on generalizing vals with
  | _ length ih =>
    cases vals with
    | nil => exact Nat.zero_le _
    | cons other vals =>
      rw [List.length_cons] at hlength
      by_cases heq : other = val
      · subst heq
        have hdrop := ih _ (by rw [List.length_drop]; omega) (h.tail.drop (gap - 1)) rfl
        rw [List.length_drop] at hdrop
        rw [List.count_cons_self, Nat.mul_succ, h.count_eq]
        rcases Nat.lt_or_ge vals.length (gap - 1) with hlt | hge
        · rw [List.drop_eq_nil_of_le hlt.le, List.count_nil, Nat.mul_zero]
          omega
        · omega
      · have hrest := ih vals.length (by omega) h.tail rfl
        rw [List.count_cons_of_ne heq]
        omega

/-! ### One element and as many others -/

/-- The places that are left are as many as the others. -/
theorem count_le_one_of_card {size : ℕ} (hlength : vals.length = 2 * size)
    (hcard : vals.toFinset.card = size + 1) (hcount : vals.count val = size) (hne : other ≠ val) :
    vals.count other ≤ 1 := by
  by_contra hge
  have hother : other ∈ vals := List.count_pos_iff.mp (by omega)
  have hval : val ∈ vals := by
    rw [← List.count_pos_iff, hcount]
    refine Nat.pos_of_ne_zero fun hzero ↦ ?_
    rw [List.length_eq_zero_iff.mp (by omega : vals.length = 0)] at hother
    cases hother
  have hvalMem : val ∈ vals.toFinset := List.mem_toFinset.mpr hval
  have hotherMem : other ∈ vals.toFinset.erase val :=
    Finset.mem_erase.mpr ⟨hne, List.mem_toFinset.mpr hother⟩
  have hrest : ((vals.toFinset.erase val).erase other).card ≤
      ∑ rest ∈ (vals.toFinset.erase val).erase other, vals.count rest := by
    rw [Finset.card_eq_sum_ones]
    refine Finset.sum_le_sum fun rest hmem ↦ List.count_pos_iff.mpr ?_
    exact List.mem_toFinset.mp (Finset.mem_of_mem_erase (Finset.mem_of_mem_erase hmem))
  have hsum := List.sum_toFinset_count_eq_length vals
  rw [← Finset.add_sum_erase _ _ hvalMem, hcount, ← Finset.add_sum_erase _ _ hotherMem] at hsum
  rw [Finset.card_erase_of_mem hotherMem, Finset.card_erase_of_mem hvalMem, hcard] at hrest
  omega

end CppLearn.Foundation.SpacedElements
