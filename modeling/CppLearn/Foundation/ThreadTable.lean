import Mathlib.Algebra.GroupWithZero.Nat
import Mathlib.Algebra.Order.BigOperators.Group.List
import Mathlib.Algebra.Order.Group.Nat
import Mathlib.Tactic.Common

/-!
# Sums over a table of threads

The threads of a program stand in a list, and a step of one of them replaces its entry. A resource
that each thread holds some of, or a count that each adds to, is a sum of weights over the list.
`total_set` is how a step changes it: by the weights of the one thread before and after.
-/

set_option autoImplicit false
set_option relaxedAutoImplicit false

namespace CppLearn.Foundation.ThreadTable

variable {Thread : Type*}

/-- After a step of one thread the table has its new entry, and the old ones of the others. -/
theorem getElem?_set_cases {threads : List Thread} {index other : ℕ} {new thread : Thread}
    (hthread : (threads.set index new)[other]? = some thread) :
    (other ≠ index ∧ threads[other]? = some thread) ∨ (other = index ∧ new = thread) := by
  by_cases heq : other = index
  · subst heq
    rw [List.getElem?_set_self'] at hthread
    obtain ⟨_, -, hnew⟩ := Option.map_eq_some_iff.mp hthread
    exact .inr ⟨rfl, hnew⟩
  · rw [List.getElem?_set_ne (Ne.symm heq)] at hthread
    exact .inl ⟨heq, hthread⟩

/-- The sum of a weight over the threads. -/
def total (weight : Thread → ℕ) (threads : List Thread) : ℕ := (threads.map weight).sum

/-- A thread that moves changes a sum by its own weight. -/
theorem total_set (weight : Thread → ℕ) {threads : List Thread} {index : ℕ} {old : Thread}
    (hold : threads[index]? = some old) (new : Thread) :
    total weight (threads.set index new) + weight old = total weight threads + weight new := by
  induction threads generalizing index with
  | nil => cases hold
  | cons thread threads ih =>
    cases index with
    | zero =>
      cases Option.some.inj hold
      simp only [total, List.set_cons_zero, List.map_cons, List.sum_cons]
      omega
    | succ index =>
      have htail := ih hold
      simp only [total, List.set_cons_succ, List.map_cons, List.sum_cons] at htail ⊢
      omega

/-- A thread of the table adds its weight. -/
theorem weight_le_total (weight : Thread → ℕ) {threads : List Thread} {thread : Thread}
    (hthread : thread ∈ threads) : weight thread ≤ total weight threads :=
  List.single_le_sum (fun _ _ ↦ Nat.zero_le _) _ (List.mem_map_of_mem hthread)

/-- So do two threads. -/
theorem weight_add_weight_le_total (weight : Thread → ℕ) {threads : List Thread} {first second : ℕ}
    {thread other : Thread} (hfirst : threads[first]? = some thread)
    (hsecond : threads[second]? = some other) (hne : first ≠ second) :
    weight thread + weight other ≤ total weight threads := by
  induction threads generalizing first second with
  | nil => cases hfirst
  | cons head threads ih =>
    rw [total, List.map_cons, List.sum_cons, ← total]
    rcases first with _ | first
    · rcases second with _ | second
      · exact absurd rfl hne
      · rw [List.getElem?_cons_zero] at hfirst
        rw [List.getElem?_cons_succ] at hsecond
        obtain rfl := Option.some.inj hfirst
        have hle := weight_le_total weight (List.mem_of_getElem? hsecond)
        omega
    · rw [List.getElem?_cons_succ] at hfirst
      rcases second with _ | second
      · rw [List.getElem?_cons_zero] at hsecond
        obtain rfl := Option.some.inj hsecond
        have hle := weight_le_total weight (List.mem_of_getElem? hfirst)
        omega
      · rw [List.getElem?_cons_succ] at hsecond
        have hle := ih hfirst hsecond fun heq ↦ hne (congrArg Nat.succ heq)
        omega

/-- A weight that is nowhere greater has no greater sum. -/
theorem total_le_total {weight weight' : Thread → ℕ} {threads : List Thread}
    (hle : ∀ thread ∈ threads, weight thread ≤ weight' thread) :
    total weight threads ≤ total weight' threads :=
  List.sum_le_sum hle

/-- A weight of at most one adds up to no more than the number of threads. -/
theorem total_le_length {weight : Thread → ℕ} (hle : ∀ thread, weight thread ≤ 1)
    (threads : List Thread) : total weight threads ≤ threads.length := by
  induction threads with
  | nil => exact Nat.le_refl 0
  | cons thread threads ih =>
    have hthread := hle thread
    simp only [total, List.map_cons, List.sum_cons, List.length_cons] at ih ⊢
    omega

/-- A table of one entry several times. -/
theorem total_replicate (weight : Thread → ℕ) (count : ℕ) (thread : Thread) :
    total weight (List.replicate count thread) = count * weight thread := by
  rw [total, List.map_replicate, List.sum_replicate_nat]

theorem total_eq_zero {weight : Thread → ℕ} {threads : List Thread}
    (hzero : ∀ thread ∈ threads, weight thread = 0) : total weight threads = 0 := by
  refine List.sum_eq_zero fun value hvalue ↦ ?_
  obtain ⟨thread, hthread, rfl⟩ := List.mem_map.mp hvalue
  exact hzero thread hthread

/-- A sum that is not zero has a thread with a weight. -/
theorem exists_of_total_pos {weight : Thread → ℕ} {threads : List Thread}
    (hpos : 0 < total weight threads) :
    ∃ (index : ℕ) (thread : Thread), threads[index]? = some thread ∧ 0 < weight thread := by
  by_contra hnone
  have hzero : total weight threads = 0 := by
    refine total_eq_zero fun thread hthread ↦ ?_
    obtain ⟨index, hindex⟩ := List.mem_iff_getElem?.mp hthread
    by_contra hweight
    exact hnone ⟨index, thread, hindex, Nat.pos_of_ne_zero hweight⟩
  omega

end CppLearn.Foundation.ThreadTable
