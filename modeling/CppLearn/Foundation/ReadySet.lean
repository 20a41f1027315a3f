import Mathlib.Data.Finset.Card
import Mathlib.Data.List.Basic

/-!
# Ready descriptors and their count

A server asks which of its descriptors are ready and serves them one after the other, while it counts
down how many there are left; when the count is used up it need not look further. `Counted` says what
the count is, and `Counted.served_eq` that nothing is left when it is used up.

A descriptor that is opened is the lowest that is not in use. An entry of a table is looked for from its
beginning, too (`firstWhere`).
-/

set_option autoImplicit false
set_option relaxedAutoImplicit false

namespace CppLearn.Foundation.ReadySet

/-! ### The count -/

section Count

variable {Key : Type*} [DecidableEq Key] {ready served : Finset Key} {left : ℤ} {key : Key}

/-- The count is that of the ready ones that have not been served. -/
structure Counted (ready served : Finset Key) (left : ℤ) : Prop where
  subset : served ⊆ ready
  left_eq : left = (ready \ served).card

theorem Counted.start (ready : Finset Key) : Counted ready ∅ ready.card where
  subset := Finset.empty_subset ready
  left_eq := by rw [Finset.sdiff_empty]

/-- One more is served. -/
theorem Counted.serve (counted : Counted ready served left) (hready : key ∈ ready)
    (hserved : key ∉ served) : Counted ready (insert key served) (left - 1) where
  subset := Finset.insert_subset hready counted.subset
  left_eq := by
    have hmem : key ∈ ready \ served := Finset.mem_sdiff.mpr ⟨hready, hserved⟩
    have hpos := Finset.card_pos.mpr ⟨key, hmem⟩
    rw [Finset.sdiff_insert, Finset.card_erase_of_mem hmem, counted.left_eq]
    omega

/-- All have been served if there is none that has not. -/
theorem Counted.served_eq_of_forall (counted : Counted ready served left)
    (hall : ∀ key ∈ ready, key ∈ served) : served = ready :=
  Finset.Subset.antisymm counted.subset hall

/-- When the count is used up, all have been served. -/
theorem Counted.served_eq (counted : Counted ready served left) (hle : left ≤ 0) : served = ready := by
  have hzero : (ready \ served).card = 0 := by
    have heq := counted.left_eq
    omega
  exact counted.served_eq_of_forall (Finset.sdiff_eq_empty_iff_subset.mp (Finset.card_eq_zero.mp hzero))

end Count

/-! ### The first entry -/

section First

variable {holds : ℕ → Bool}

/-- The first of so many numbers from `i` on for which something holds. -/
def firstFrom (holds : ℕ → Bool) : ℕ → ℕ → Option ℕ
  | 0, _ => none
  | count + 1, i => if holds i then some i else firstFrom holds count (i + 1)

/-- The first number below a bound for which something holds. -/
def firstWhere (holds : ℕ → Bool) (bound : ℕ) : Option ℕ := firstFrom holds bound 0

theorem firstFrom_eq_some {count i j : ℕ} (hfirst : firstFrom holds count i = some j) :
    holds j = true ∧ j < i + count := by
  induction count generalizing i with
  | zero => cases hfirst
  | succ count ih =>
    rw [firstFrom] at hfirst
    split_ifs at hfirst with hi
    · obtain rfl := Option.some.inj hfirst
      exact ⟨hi, by omega⟩
    · obtain ⟨hj, hlt⟩ := ih hfirst
      exact ⟨hj, by omega⟩

theorem firstFrom_eq_none {count i j : ℕ} (hnone : firstFrom holds count i = none) (hle : i ≤ j)
    (hlt : j < i + count) : holds j = false := by
  induction count generalizing i with
  | zero => omega
  | succ count ih =>
    rw [firstFrom] at hnone
    split_ifs at hnone with hi
    rcases Nat.eq_or_lt_of_le hle with rfl | hlt'
    · exact Bool.eq_false_iff.mpr hi
    · exact ih hnone hlt' (by omega)

theorem firstWhere_eq_some {bound j : ℕ} (hfirst : firstWhere holds bound = some j) :
    holds j = true ∧ j < bound := by
  have hspec := firstFrom_eq_some hfirst
  rwa [Nat.zero_add] at hspec

theorem firstWhere_eq_none {bound j : ℕ} (hnone : firstWhere holds bound = none) (hlt : j < bound) :
    holds j = false :=
  firstFrom_eq_none hnone (Nat.zero_le j) (by omega)

end First

/-! ### The lowest descriptor -/

/-- The lowest descriptor that is not in use. -/
def lowest (opened : Finset ℕ) : ℕ :=
  ((List.range (opened.card + 1)).find? fun fd ↦ decide (fd ∉ opened)).getD opened.card

theorem exists_lowest (opened : Finset ℕ) :
    lowest opened ∉ opened ∧ ∀ fd < lowest opened, fd ∈ opened := by
  rw [lowest]
  cases hfind : (List.range (opened.card + 1)).find? fun fd ↦ decide (fd ∉ opened) with
  | none =>
    have hsubset : Finset.range (opened.card + 1) ⊆ opened := by
      intro fd hfd
      have hused := List.find?_eq_none.mp hfind fd (List.mem_range.mpr (Finset.mem_range.mp hfd))
      simpa only [decide_not, Bool.not_eq_eq_eq_not, Bool.not_true, decide_eq_false_iff_not,
        not_not] using hused
    have hle := Finset.card_le_card hsubset
    rw [Finset.card_range] at hle
    omega
  | some fd =>
    obtain ⟨hfree, -, hused⟩ := List.find?_range_eq_some.mp hfind
    refine ⟨of_decide_eq_true hfree, fun other hlt ↦ ?_⟩
    have hother := hused other hlt
    simpa only [decide_not, Bool.not_not, decide_eq_true_eq] using hother

theorem lowest_notMem (opened : Finset ℕ) : lowest opened ∉ opened := (exists_lowest opened).1

/-- There is a descriptor below a bound exactly if there are fewer in use, where none is above it. -/
theorem lowest_lt_iff {opened : Finset ℕ} {bound : ℕ} (hbound : ∀ fd ∈ opened, fd < bound) :
    lowest opened < bound ↔ opened.card < bound := by
  have hsubset : opened ⊆ Finset.range bound := fun fd hfd ↦ Finset.mem_range.mpr (hbound fd hfd)
  constructor
  · intro hlt
    have hproper : opened ⊂ Finset.range bound := by
      refine Finset.ssubset_iff_subset_ne.mpr ⟨hsubset, fun heq ↦ lowest_notMem opened ?_⟩
      rw [heq]
      exact Finset.mem_range.mpr (heq ▸ hlt)
    simpa only [Finset.card_range] using Finset.card_lt_card hproper
  · intro hcard
    by_contra hle
    have hall : Finset.range bound ⊆ opened := by
      intro fd hfd
      exact (exists_lowest opened).2 fd (Nat.lt_of_lt_of_le (Finset.mem_range.mp hfd) (Nat.not_lt.mp hle))
    have hge := Finset.card_le_card hall
    rw [Finset.card_range] at hge
    omega

end CppLearn.Foundation.ReadySet
