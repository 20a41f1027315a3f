import Mathlib.Data.List.Perm.Basic
import Mathlib.Data.List.Range
import Mathlib.Logic.Function.Basic
import Mathlib.Tactic.Common

/-!
# Resources in one place each

A fixed set of resources lies in a shared pool and with a number of users. The list of all places is
the pool followed by what each user holds. That every resource is in exactly one place means that
this list is a permutation of the resources. A step of one user keeps it if the pool and that user
have together what they had before (`perm_places`).
-/

set_option autoImplicit false
set_option relaxedAutoImplicit false

namespace CppLearn.Foundation.SharedPlaces

variable {Resource : Type*}

/-- The pool, and what the first `users` users hold. -/
def places (pool : List Resource) (users : ℕ) (held : ℕ → List Resource) : List Resource :=
  pool ++ (List.range users).flatMap held

/-- What the users hold is what one of them holds and what the others do. -/
theorem flatMap_range_perm {users user : ℕ} (huser : user < users) (held : ℕ → List Resource) :
    ((List.range users).flatMap held).Perm
      (held user ++ ((List.range users).erase user).flatMap held) := by
  have hperm : (List.range users).Perm (user :: (List.range users).erase user) :=
    List.perm_cons_erase (List.mem_range.mpr huser)
  exact hperm.flatMap_right held

/-- Assumes: a step in which only one user changes what it holds, and the pool and that user have
together what they had before. Then all places have. -/
theorem perm_places {users user : ℕ} (huser : user < users) {pool pool' : List Resource}
    {held held' : ℕ → List Resource} (hothers : ∀ other, other ≠ user → held' other = held other)
    (hmoved : (pool' ++ held' user).Perm (pool ++ held user)) :
    (places pool' users held').Perm (places pool users held) := by
  have hrest : ((List.range users).erase user).flatMap held' =
      ((List.range users).erase user).flatMap held := by
    apply List.flatMap_congr
    intro other hother
    refine hothers other ?_
    rintro rfl
    exact List.nodup_range.not_mem_erase hother
  calc
    _ = pool' ++ (List.range users).flatMap held' := rfl
    List.Perm _ (pool' ++ (held' user ++ ((List.range users).erase user).flatMap held')) :=
      (flatMap_range_perm huser held').append_left pool'
    List.Perm _ (pool ++ (held user ++ ((List.range users).erase user).flatMap held)) := by
      rw [hrest, ← List.append_assoc, ← List.append_assoc]
      exact hmoved.append_right _
    List.Perm _ (pool ++ (List.range users).flatMap held) :=
      (flatMap_range_perm huser held).symm.append_left pool

/-- Assumes: places without repetition. A resource that a user holds is not in the pool. -/
theorem not_mem_pool_of_held {pool : List Resource} {users user : ℕ} {held : ℕ → List Resource}
    (hnodup : (places pool users held).Nodup) (huser : user < users) {resource : Resource}
    (hheld : resource ∈ held user) : resource ∉ pool := by
  intro hpool
  have hheld' := List.mem_flatMap.mpr ⟨user, List.mem_range.mpr huser, hheld⟩
  exact (List.nodup_append.mp hnodup).2.2 resource hpool resource hheld' rfl

/-- Assumes: places without repetition. What one user holds no other does. -/
theorem not_mem_held_of_held {pool : List Resource} {users user other : ℕ}
    {held : ℕ → List Resource} (hnodup : (places pool users held).Nodup) (huser : user < users)
    (hother : other < users) (hne : other ≠ user) {resource : Resource}
    (hheld : resource ∈ held user) : resource ∉ held other := by
  intro hheld'
  have hsplit := ((flatMap_range_perm huser held).nodup_iff.mp (List.nodup_append.mp hnodup).2.1)
  have hmem : other ∈ (List.range users).erase user :=
    (List.mem_erase_of_ne hne).mpr (List.mem_range.mpr hother)
  exact (List.nodup_append.mp hsplit).2.2 resource hheld resource
    (List.mem_flatMap.mpr ⟨other, hmem, hheld'⟩) rfl

end CppLearn.Foundation.SharedPlaces
