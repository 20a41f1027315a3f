import Mathlib.Data.Finset.Dedup
import Mathlib.Data.Finset.Erase
import Mathlib.Data.Finset.Insert

/-!
# Handles that a program holds

A program that opens and closes handles knows some of those that are open: they are in its variables,
and it can still close them. `Holds` says that the handles it knows are open, and that it knows each
by one variable; `NoneLost` says that no others are open. Opening a handle into a variable and closing
one from a variable keep both, in both directions, so that a handle that is lost stays lost. A
variable that is overwritten loses one for good.
-/

set_option autoImplicit false
set_option relaxedAutoImplicit false

namespace CppLearn.Foundation.HeldHandles

variable {Handle : Type*}

/-- The handles in the variables of a program are open, and no two variables have the same. -/
structure Holds (held : List Handle) (opened : Finset Handle) : Prop where
  nodup : held.Nodup
  opened_of_mem : ∀ handle ∈ held, handle ∈ opened

/-- Every open handle is in a variable. -/
def NoneLost (held : List Handle) (opened : Finset Handle) : Prop := ∀ handle ∈ opened, handle ∈ held

/-- The order of the variables does not matter. -/
theorem Holds.perm {held held' : List Handle} {opened : Finset Handle} (holds : Holds held opened)
    (hperm : held.Perm held') : Holds held' opened where
  nodup := hperm.nodup_iff.mp holds.nodup
  opened_of_mem := fun handle hmem ↦ holds.opened_of_mem handle (hperm.mem_iff.mpr hmem)

theorem noneLost_perm {held held' : List Handle} (hperm : held.Perm held')
    (opened : Finset Handle) : NoneLost held opened ↔ NoneLost held' opened :=
  forall₂_congr fun _ _ ↦ hperm.mem_iff

/-- A variable is overwritten while its handle is open: the handle is lost. -/
theorem Holds.lose {held : List Handle} {opened : Finset Handle} {handle : Handle}
    (holds : Holds (handle :: held) opened) : Holds held opened ∧ ¬ NoneLost held opened := by
  obtain ⟨hnot, hnodup⟩ := List.nodup_cons.mp holds.nodup
  refine ⟨⟨hnodup, fun other hmem ↦ holds.opened_of_mem other (List.mem_cons_of_mem handle hmem)⟩,
    fun hnone ↦ hnot (hnone handle ?_)⟩
  exact holds.opened_of_mem handle (List.mem_cons_self ..)

variable [DecidableEq Handle]

/-- Where none is lost, the open handles are those held. -/
theorem Holds.noneLost_iff {held : List Handle} {opened : Finset Handle}
    (holds : Holds held opened) : NoneLost held opened ↔ opened = held.toFinset := by
  constructor
  · intro hnone
    ext handle
    rw [List.mem_toFinset]
    exact ⟨hnone handle, holds.opened_of_mem handle⟩
  · rintro rfl handle hmem
    exact List.mem_toFinset.mp hmem

/-- Assumes: a handle that was not open. It is opened into a variable. -/
theorem Holds.open {held : List Handle} {opened : Finset Handle} (holds : Holds held opened)
    {handle : Handle} (hnew : handle ∉ opened) :
    Holds (handle :: held) (insert handle opened) ∧
      (NoneLost (handle :: held) (insert handle opened) ↔ NoneLost held opened) := by
  refine ⟨⟨List.nodup_cons.mpr ⟨fun hmem ↦ hnew (holds.opened_of_mem handle hmem), holds.nodup⟩,
    fun other hmem ↦ ?_⟩, fun hnone other hmem ↦ ?_, fun hnone other hmem ↦ ?_⟩
  · rcases List.mem_cons.mp hmem with rfl | hmem
    · exact Finset.mem_insert_self other opened
    · exact Finset.mem_insert_of_mem (holds.opened_of_mem other hmem)
  · rcases List.mem_cons.mp (hnone other (Finset.mem_insert_of_mem hmem)) with rfl | hheld
    · exact absurd hmem hnew
    · exact hheld
  · rcases Finset.mem_insert.mp hmem with rfl | hmem
    · exact List.mem_cons_self ..
    · exact List.mem_cons_of_mem handle (hnone other hmem)

/-- A handle is closed from its variable. -/
theorem Holds.close {held : List Handle} {opened : Finset Handle} {handle : Handle}
    (holds : Holds (handle :: held) opened) :
    Holds held (opened.erase handle) ∧
      (NoneLost held (opened.erase handle) ↔ NoneLost (handle :: held) opened) := by
  obtain ⟨hnot, hnodup⟩ := List.nodup_cons.mp holds.nodup
  refine ⟨⟨hnodup, fun other hmem ↦ ?_⟩, fun hnone other hmem ↦ ?_, fun hnone other hmem ↦ ?_⟩
  · refine Finset.mem_erase.mpr ⟨?_, holds.opened_of_mem other (List.mem_cons_of_mem handle hmem)⟩
    rintro rfl
    exact hnot hmem
  · by_cases hother : other = handle
    · exact List.mem_cons.mpr (.inl hother)
    · exact List.mem_cons_of_mem handle (hnone other (Finset.mem_erase.mpr ⟨hother, hmem⟩))
  · obtain ⟨hother, hmem⟩ := Finset.mem_erase.mp hmem
    exact List.mem_of_ne_of_mem hother (hnone other hmem)

end CppLearn.Foundation.HeldHandles
