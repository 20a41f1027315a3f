import Mathlib.Data.List.Basic
import Mathlib.Data.List.Chain
import Mathlib.Tactic.Common

/-!
# Rows one after the other

The cells of rows of equal length are those of one list, in which a cell is found by one number: the
number of its row is the quotient by the length of the rows, and its number in the row is the
remainder (`bind_getElem?_eq`). Where each row ascends and starts above the end of the one before
it, the list ascends (`pairwise_flatten_of_isChain`).
-/

set_option autoImplicit false
set_option relaxedAutoImplicit false

namespace CppLearn.Foundation.RowMajor

variable {α : Type*} {rows : List (List α)} {ncols : ℕ}

theorem length_flatten_of_rows (hrows : ∀ row ∈ rows, row.length = ncols) :
    rows.flatten.length = rows.length * ncols := by
  induction rows with
  | nil => exact (Nat.zero_mul ncols).symm
  | cons row rows ih =>
    obtain ⟨hrow, hrest⟩ := List.forall_mem_cons.mp hrows
    rw [List.flatten_cons, List.length_append, hrow, ih hrest, List.length_cons, Nat.succ_mul,
      Nat.add_comm]

theorem bind_getElem?_eq (hrows : ∀ row ∈ rows, row.length = ncols) (hncols : 0 < ncols)
    (indx : ℕ) :
    (rows[indx / ncols]?.bind fun row ↦ row[indx % ncols]?) = rows.flatten[indx]? := by
  induction rows generalizing indx with
  | nil => rfl
  | cons row rows ih =>
    obtain ⟨hrow, hrest⟩ := List.forall_mem_cons.mp hrows
    rw [List.flatten_cons]
    rcases Nat.lt_or_ge indx ncols with hlt | hge
    · rw [Nat.div_eq_of_lt hlt, Nat.mod_eq_of_lt hlt, List.getElem?_cons_zero, Option.bind_some,
        List.getElem?_append_left (by omega)]
    · obtain ⟨more, rfl⟩ := Nat.exists_eq_add_of_le' hge
      rw [Nat.add_div_right more hncols, Nat.add_mod_right, List.getElem?_cons_succ, ih hrest,
        List.getElem?_append_right (by omega), hrow, Nat.add_sub_cancel]

variable [LE α] [Std.IsPreorder α]

theorem le_last_of_pairwise {front : List α} {last val : α}
    (hrow : (front ++ [last]).Pairwise (· ≤ ·)) (hval : val ∈ front ++ [last]) : val ≤ last := by
  rcases List.mem_append.mp hval with hfront | hlast
  · exact (List.pairwise_append.mp hrow).2.2 val hfront last (List.mem_singleton_self last)
  · rw [List.mem_singleton.mp hlast]
    exact Std.le_refl last

theorem pairwise_flatten_of_isChain (hne : ∀ row ∈ rows, row ≠ [])
    (hrows : ∀ row ∈ rows, row.Pairwise (· ≤ ·))
    (hnext : rows.IsChain fun row next ↦
      ∀ last ∈ row.getLast?, ∀ first ∈ next.head?, last ≤ first) :
    rows.flatten.Pairwise (· ≤ ·) := by
  induction rows with
  | nil => exact List.Pairwise.nil
  | cons row rows ih =>
    obtain ⟨hrow, hrest⟩ := List.forall_mem_cons.mp hrows
    have hflatten := ih (fun row hmem ↦ hne row (List.mem_cons_of_mem _ hmem)) hrest hnext.tail
    rw [List.flatten_cons, List.pairwise_append]
    refine ⟨hrow, hflatten, fun val hval other hother ↦ ?_⟩
    cases rows with
    | nil => cases hother
    | cons next rows =>
      obtain ⟨first, more, rfl⟩ := List.exists_cons_of_ne_nil
        (hne next (List.mem_cons_of_mem _ List.mem_cons_self))
      obtain rfl | ⟨front, last, rfl⟩ := row.eq_nil_or_concat
      · cases hval
      rw [List.concat_eq_append] at *
      have hlast : val ≤ last := le_last_of_pairwise hrow hval
      have hfirst : first ≤ other := by
        rw [List.flatten_cons, List.cons_append] at hflatten hother
        rcases List.mem_cons.mp hother with rfl | hother
        · exact Std.le_refl _
        · exact (List.pairwise_cons.mp hflatten).1 other hother
      have hstep : last ≤ first :=
        (List.isChain_cons_cons.mp hnext).1 last (List.getLast?_concat ..) first rfl
      exact Std.le_trans hlast (Std.le_trans hstep hfirst)

end CppLearn.Foundation.RowMajor
