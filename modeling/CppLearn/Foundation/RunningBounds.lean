import Mathlib.Order.MinMax
import Mathlib.Order.Bounds.Basic
import Mathlib.Data.List.Induction

/-!
# Running minima and maxima

A program that keeps the least and the greatest of the values it has seen starts from a bound that
no value passes and folds `min` and `max` over the values. `isLeast_foldl_min` and
`isGreatest_foldl_max` say that over a nonempty list this gives the least and the greatest element.
-/

set_option autoImplicit false
set_option relaxedAutoImplicit false

namespace CppLearn.Foundation.RunningBounds

variable {α : Type*} [LinearOrder α]

/-- The fold of `min` from above the elements of a nonempty list is its least element. -/
theorem isLeast_foldl_min {values : List α} {top : α} (hne : values ≠ [])
    (htop : ∀ value ∈ values, value ≤ top) :
    IsLeast {value | value ∈ values} (values.foldl min top) := by
  induction values using List.reverseRecOn with
  | nil => exact absurd rfl hne
  | append_singleton values last ih =>
    rw [List.foldl_append]
    change IsLeast _ (min (values.foldl min top) last)
    by_cases hvalues : values = []
    · subst hvalues
      have hlast : min top last = last := min_eq_right (htop last (by simp))
      simp [IsLeast, lowerBounds, hlast]
    · obtain ⟨hmem, hbound⟩ := ih hvalues fun value hvalue ↦ htop value (by simp [hvalue])
      refine ⟨?_, ?_⟩
      · rcases min_choice (values.foldl min top) last with hmin | hmin <;> rw [hmin]
        · exact List.mem_append_left _ hmem
        · exact List.mem_append_right _ (List.mem_singleton_self last)
      · intro value hvalue
        rcases List.mem_append.mp hvalue with hvalue | hvalue
        · exact (min_le_left _ _).trans (hbound hvalue)
        · exact (min_le_right _ _).trans (List.mem_singleton.mp hvalue).ge

/-- The fold of `max` from below the elements of a nonempty list is its greatest element. -/
theorem isGreatest_foldl_max {values : List α} {bottom : α} (hne : values ≠ [])
    (hbottom : ∀ value ∈ values, bottom ≤ value) :
    IsGreatest {value | value ∈ values} (values.foldl max bottom) :=
  isLeast_foldl_min (α := αᵒᵈ) hne hbottom

/-- A further value updates the least one. -/
theorem isLeast_append_min {values : List α} {least : α}
    (hleast : IsLeast {value | value ∈ values} least) (last : α) :
    IsLeast {value | value ∈ values ++ [last]} (min last least) := by
  constructor
  · rcases min_choice last least with hmin | hmin <;> rw [hmin]
    · exact List.mem_append_right _ (List.mem_singleton_self last)
    · exact List.mem_append_left _ hleast.1
  · intro value hvalue
    rcases List.mem_append.mp hvalue with hvalue | hvalue
    · exact (min_le_right _ _).trans (hleast.2 hvalue)
    · exact (min_le_left _ _).trans (List.mem_singleton.mp hvalue).ge

/-- A further value updates the greatest one. -/
theorem isGreatest_append_max {values : List α} {greatest : α}
    (hgreatest : IsGreatest {value | value ∈ values} greatest) (last : α) :
    IsGreatest {value | value ∈ values ++ [last]} (max last greatest) :=
  isLeast_append_min (α := αᵒᵈ) hgreatest last

theorem isLeast_singleton (value : α) : IsLeast {other | other ∈ [value]} value :=
  ⟨List.mem_singleton_self value, fun _ hother ↦ (List.mem_singleton.mp hother).ge⟩

theorem isGreatest_singleton (value : α) : IsGreatest {other | other ∈ [value]} value :=
  isLeast_singleton (α := αᵒᵈ) value

/-- The least of the least values of some groups is the least of all their values. -/
theorem isLeast_flatMap {Group : Type*} {groups : List Group} {values : Group → List α}
    {least : Group → α} {bound : α}
    (hgroups : ∀ group ∈ groups, IsLeast {value | value ∈ values group} (least group))
    (hbound : IsLeast {value | value ∈ groups.map least} bound) :
    IsLeast {value | value ∈ groups.flatMap values} bound := by
  constructor
  · obtain ⟨group, hgroup, rfl⟩ := List.mem_map.mp hbound.1
    exact List.mem_flatMap.mpr ⟨group, hgroup, (hgroups group hgroup).1⟩
  · intro value hvalue
    obtain ⟨group, hgroup, hvalue⟩ := List.mem_flatMap.mp hvalue
    exact (hbound.2 (List.mem_map_of_mem hgroup)).trans ((hgroups group hgroup).2 hvalue)

theorem isGreatest_flatMap {Group : Type*} {groups : List Group} {values : Group → List α}
    {greatest : Group → α} {bound : α}
    (hgroups : ∀ group ∈ groups, IsGreatest {value | value ∈ values group} (greatest group))
    (hbound : IsGreatest {value | value ∈ groups.map greatest} bound) :
    IsGreatest {value | value ∈ groups.flatMap values} bound :=
  isLeast_flatMap (α := αᵒᵈ) hgroups hbound

end CppLearn.Foundation.RunningBounds
