import Mathlib.Data.Finset.Card
import Mathlib.Data.Finset.Range
import Mathlib.Dynamics.PeriodicPts.Defs
import Mathlib.Tactic.Ring

/-!
# Walks that come round

A walk follows a function from a point on. Where it stays in finitely many points it comes back to one
it has been at, and from there on goes round for ever. Two walkers, of whom one takes two steps where
the other takes one, then meet (`exists_meeting`), and the points at which the walk is on its cycle are
those from which as many steps as the slow one has taken lead back (`onCycle_iff`).
-/

set_option autoImplicit false
set_option relaxedAutoImplicit false

namespace CppLearn.Foundation.EventualCycle

variable {α : Type*} {step : α → α} {start : α}

/-- The point is on a cycle. -/
abbrev OnCycle (step : α → α) (point : α) : Prop := point ∈ Function.periodicPts step

/-- A walk in a finite set comes back to a point after as many steps as there are points. -/
theorem exists_iterate_eq [DecidableEq α] {points : Finset α} {count : ℕ}
    (hcard : points.card ≤ count) (hpoints : ∀ time ≤ count, step^[time] start ∈ points) :
    ∃ first second, first < second ∧ second ≤ count ∧ step^[first] start = step^[second] start := by
  have hlt : points.card < (Finset.range (count + 1)).card := by
    rw [Finset.card_range]
    omega
  obtain ⟨first, hfirst, second, hsecond, hne, heq⟩ :=
    Finset.exists_ne_map_eq_of_card_lt_of_maps_to hlt
      (f := fun time ↦ step^[time] start) fun time htime ↦
        hpoints time (Nat.lt_succ_iff.mp (Finset.mem_range.mp htime))
  rw [Finset.mem_range, Nat.lt_succ_iff] at hfirst hsecond
  rcases Nat.lt_or_gt_of_ne hne with hlt | hgt
  · exact ⟨first, second, hlt, hsecond, heq⟩
  · exact ⟨second, first, hgt, hfirst, heq.symm⟩

/-- The first of the times at which something does not hold. -/
theorem exists_first {holds : ℕ → Prop} {bound : ℕ} (h : ∃ time ≤ bound, ¬ holds time) :
    ∃ time ≤ bound, ¬ holds time ∧ ∀ earlier < time, holds earlier := by
  classical
  obtain ⟨time, hle, hnot⟩ := h
  have hexists : ∃ time, ¬ holds time := ⟨time, hnot⟩
  refine ⟨Nat.find hexists, (Nat.find_min' hexists hnot).trans hle, Nat.find_spec hexists,
    fun earlier hearlier ↦ ?_⟩
  exact not_not.mp (Nat.find_min hexists hearlier)

section Return

variable {first second : ℕ}

/-- From the point that the walk comes back to it goes round. -/
theorem iterate_add_mul (hreturn : step^[first] start = step^[second] start) (hlt : first < second)
    {time : ℕ} (htime : first ≤ time) (rounds : ℕ) :
    step^[time + (second - first) * rounds] start = step^[time] start := by
  induction rounds with
  | zero => rfl
  | succ rounds ih =>
    have hround : time + (second - first) * (rounds + 1) =
        (time + (second - first) * rounds - first) + second := by
      rw [Nat.mul_succ]
      omega
    have hbefore : time + (second - first) * rounds =
        (time + (second - first) * rounds - first) + first := by omega
    rw [hround, Function.iterate_add_apply, ← hreturn, ← Function.iterate_add_apply, ← hbefore, ih]

/-- The slow and the fast walker meet before the walk has come round. -/
theorem exists_meeting (hreturn : step^[first] start = step^[second] start) (hlt : first < second) :
    ∃ time, 0 < time ∧ time ≤ second ∧ step^[time] start = step^[2 * time] start := by
  have hpos : 0 < second - first := Nat.sub_pos_of_lt hlt
  -- The first multiple of the length of the round past the point that the walk comes back to.
  have hdiv := Nat.div_add_mod first (second - first)
  have hmod := Nat.mod_lt first hpos
  have hmul := Nat.mul_add_one (second - first) (first / (second - first))
  refine ⟨(second - first) * (first / (second - first) + 1), by omega, by omega, ?_⟩
  rw [two_mul]
  exact (iterate_add_mul hreturn hlt (by omega) _).symm

end Return

/-- The walk is on its cycle exactly where as many steps as the slow walker has taken lead back. -/
theorem onCycle_iff {meeting : ℕ} (hpos : 0 < meeting)
    (hmeeting : step^[meeting] start = step^[2 * meeting] start) (time : ℕ) :
    OnCycle step (step^[time] start) ↔ step^[time] start = step^[meeting + time] start := by
  constructor
  · rintro ⟨length, hlength, hperiod⟩
    -- Enough rounds lead past the meeting, and back.
    have hrounds := Function.IsPeriodicPt.mul_const hperiod meeting
    have hpast : meeting ≤ length * meeting + time :=
      (Nat.le_mul_of_pos_left meeting hlength).trans (Nat.le_add_right ..)
    have hreturn : step^[meeting] start = step^[meeting + meeting] start := by
      rw [← two_mul]
      exact hmeeting
    have hback := iterate_add_mul hreturn (by omega) hpast 1
    rw [Nat.add_sub_cancel, Nat.mul_one, Nat.add_assoc, Nat.add_comm time,
      Function.iterate_add_apply, Function.iterate_add_apply _ (length * meeting) time] at hback
    have hother : step^[length * meeting] (step^[meeting + time] start) =
        step^[meeting + time] start := by
      rw [Function.iterate_add_apply step meeting]
      exact hrounds.apply_iterate meeting
    rw [hother, hrounds] at hback
    exact hback.symm
  · intro hback
    refine Function.mk_mem_periodicPts hpos ?_
    rw [Function.IsPeriodicPt, Function.IsFixedPt, ← Function.iterate_add_apply]
    exact hback.symm

end CppLearn.Foundation.EventualCycle
