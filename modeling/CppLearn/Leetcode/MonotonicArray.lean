import CppLearn.Foundation.VectorAccess
import Mathlib.Algebra.Order.Group.Int
import Mathlib.Algebra.Order.Group.Unbundled.Basic
import Mathlib.Data.List.Chain
import Mathlib.Tactic.Common

/-!
# Whether an array is monotonic

`isMonotonic` goes along an array until a step goes against the first one. It multiplies the sign of
the first step with the difference of two neighbours, a number that need not fit in the word that it
is computed in: a step of at least half of all words seems to go back, and a step back of more than
half of them forth. The number of elements is an `int` as well.
-/

set_option autoImplicit false
set_option relaxedAutoImplicit false

namespace CppLearn.Leetcode.MonotonicArray

open Foundation.VectorAccess (sizeToInt sizeToInt_le)

/-! ### The program -/

/-- The loop, which returns where it ends. -/
def slopeLoop (A : List Int32) (lens : ℤ) : ℕ → ℕ → Int32 → Option ℕ
  | 0, _, _ => none
  | fuel + 1, index, flag =>
    if index < lens then do
      let next ← A[index]?
      let val ← A[index - 1]?
      if next = val then slopeLoop A lens fuel (index + 1) flag
      else if flag = 0 then slopeLoop A lens fuel (index + 1) (if next > val then 1 else -1)
      else if flag * (next - val) < 0 then return index
      else slopeLoop A lens fuel (index + 1) flag
    else return index

/-- No round is without a step, which bounds the rounds. -/
def isMonotonic (A : List Int32) : Option Bool := do
  let lens := sizeToInt A.length
  let index ← slopeLoop A lens (A.length + 1) 1 0
  return lens = 0 || index = lens

/-! ### Steps -/

def Monotonic (A : List Int32) : Prop := A.Pairwise (· ≤ ·) ∨ A.Pairwise (· ≥ ·)

/-- The differences of neighbours. -/
def steps : List Int32 → List ℤ
  | val :: next :: rest => (next.toInt - val.toInt) :: steps (next :: rest)
  | _ => []

/-- The steps that come after the first one, in its direction. -/
def laterSteps : List Int32 → List ℤ
  | val :: next :: rest =>
    if next = val then laterSteps (next :: rest)
    else (steps (next :: rest)).map ((next.toInt - val.toInt).sign * ·)
  | _ => []

/-- What a step is taken for when it is computed in a word. -/
def SeemsBack (step : ℤ) : Prop := (-2 ^ 31 ≤ step ∧ step < 0) ∨ 2 ^ 31 ≤ step

variable {A front rest beyond : List Int32} {val next flag : Int32} {lens : ℤ} {fuel : ℕ}

/-- An order of the elements that is one of the differences is one of neighbours. -/
theorem pairwise_iff_steps {rel : Int32 → Int32 → Prop} {ofStep : ℤ → Prop} [IsTrans Int32 rel]
    (hrel : ∀ val next, rel val next ↔ ofStep (next.toInt - val.toInt)) :
    A.Pairwise rel ↔ ∀ step ∈ steps A, ofStep step := by
  rw [← List.isChain_iff_pairwise]
  induction A with
  | nil => exact iff_of_true List.IsChain.nil fun _ ↦ nofun
  | cons val rest ih =>
    cases rest with
    | nil => exact iff_of_true (List.IsChain.singleton val) fun _ ↦ nofun
    | cons next rest =>
      rw [List.isChain_cons_cons, steps, List.forall_mem_cons, hrel]
      exact and_congr_right' ih

theorem pairwise_le_iff : A.Pairwise (· ≤ ·) ↔ ∀ step ∈ steps A, 0 ≤ step := by
  have : IsTrans Int32 (· ≤ ·) := ⟨fun _ _ _ ↦ Int32.le_trans⟩
  refine pairwise_iff_steps fun val next ↦ ?_
  rw [Int32.le_iff_toInt_le, sub_nonneg]

theorem pairwise_ge_iff : A.Pairwise (· ≥ ·) ↔ ∀ step ∈ steps A, step ≤ 0 := by
  have : IsTrans Int32 (· ≥ ·) := ⟨fun _ _ _ h h' ↦ Int32.le_trans h' h⟩
  refine pairwise_iff_steps fun val next ↦ ?_
  rw [ge_iff_le, Int32.le_iff_toInt_le, sub_nonpos]

/-- No later step goes back. -/
theorem monotonic_iff : Monotonic A ↔ ∀ step ∈ laterSteps A, 0 ≤ step := by
  rw [Monotonic, pairwise_le_iff, pairwise_ge_iff]
  induction A with
  | nil => exact iff_of_true (Or.inl fun _ ↦ nofun) fun _ ↦ nofun
  | cons val rest ih =>
    cases rest with
    | nil => exact iff_of_true (Or.inl fun _ ↦ nofun) fun _ ↦ nofun
    | cons next rest =>
      rw [steps, laterSteps, List.forall_mem_cons, List.forall_mem_cons]
      by_cases heq : next = val
      · rw [if_pos heq, heq, Int.sub_self, ← heq, ← ih]
        simp only [le_refl, true_and]
      · rw [if_neg heq, List.forall_mem_map]
        have hne : next.toInt ≠ val.toInt := mt Int32.toInt_inj.mp heq
        rcases lt_or_gt_of_ne hne with hlt | hgt
        · rw [Int.sign_eq_neg_one_of_neg (by omega), or_iff_right (by omega),
            and_iff_right (by omega)]
          exact forall₂_congr fun step _ ↦ by omega
        · rw [Int.sign_eq_one_of_pos (by omega), or_iff_left (by omega),
            and_iff_right (by omega)]
          exact forall₂_congr fun step _ ↦ by omega

/-! ### The loop -/

/-- The test of the loop. -/
theorem mul_sub_neg_iff (hflag : flag.toInt = 1 ∨ flag.toInt = -1) (val next : Int32) :
    flag * (next - val) < 0 ↔ SeemsBack (flag.toInt * (next.toInt - val.toInt)) := by
  have hval := val.le_toInt
  have hval' := val.toInt_lt
  have hnext := next.le_toInt
  have hnext' := next.toInt_lt
  have hword (step : ℤ) (hge : -2 ^ 32 < step) (hlt : step < 2 ^ 32) :
      step.bmod (2 ^ 32) < 0 ↔ SeemsBack step := by
    rw [SeemsBack, Int.bmod_def]
    split <;> omega
  rw [Int32.lt_iff_toInt_lt, Int32.toInt_mul, Int32.toInt_sub, Int32.toInt_zero, Int.mul_bmod_bmod]
  rcases hflag with heq | heq <;> rw [heq] <;> exact hword _ (by omega) (by omega)

/-- The loop has gone along `front` and `val`, and has `rest` to go. -/
structure At (A : List Int32) (lens : ℤ) (front : List Int32) (val : Int32) (rest : List Int32) :
    Prop where
  split : ∃ beyond, A = front ++ val :: (rest ++ beyond)
  lens_eq : lens = front.length + 1 + rest.length

theorem At.tail (h : At A lens front val (next :: rest)) :
    At A lens (front ++ [val]) next rest := by
  obtain ⟨⟨beyond, hA⟩, hlens⟩ := h
  refine ⟨⟨beyond, ?_⟩, ?_⟩
  · rw [hA, List.append_assoc]
    rfl
  · rw [hlens, List.length_cons, List.length_append, List.length_singleton]
    push_cast
    omega

theorem At.lt (h : At A lens front val (next :: rest)) : ((front.length + 1 : ℕ) : ℤ) < lens := by
  have hlens := h.lens_eq
  rw [List.length_cons] at hlens
  push_cast at hlens ⊢
  omega

/-- From `start` on the loop goes to the end or not. -/
def EndsFrom (A : List Int32) (lens : ℤ) (start : ℕ) (flag : Int32) (toEnd : Prop) : Prop :=
  ∀ fuel : ℕ, lens < start + fuel →
    ∃ index : ℕ, slopeLoop A lens fuel start flag = some index ∧ (index = lens ↔ toEnd)

variable {start : ℕ} {flag' : Int32} {toEnd : Prop}

/-- A round goes on. -/
theorem EndsFrom.step (h : EndsFrom A lens (start + 1) flag' toEnd) (hlt : start < lens)
    (hloop : ∀ fuel,
      slopeLoop A lens (fuel + 1) start flag = slopeLoop A lens fuel (start + 1) flag') :
    EndsFrom A lens start flag toEnd := by
  intro fuel hfuel
  obtain ⟨fuel, rfl⟩ : ∃ more, fuel = more + 1 := ⟨fuel - 1, by omega⟩
  rw [hloop]
  exact h fuel (by push_cast at hfuel ⊢; omega)

/-- Or breaks the loop. -/
theorem endsFrom_of_break (hlt : start < lens)
    (hloop : ∀ fuel, slopeLoop A lens (fuel + 1) start flag = some start) (hend : ¬toEnd) :
    EndsFrom A lens start flag toEnd := by
  intro fuel hfuel
  obtain ⟨fuel, rfl⟩ : ∃ more, fuel = more + 1 := ⟨fuel - 1, by omega⟩
  exact ⟨start, hloop fuel, iff_of_false hlt.ne hend⟩

theorem endsFrom_of_le (heq : start = lens) (hend : toEnd) : EndsFrom A lens start flag toEnd := by
  intro fuel hfuel
  obtain ⟨fuel, rfl⟩ : ∃ more, fuel = more + 1 := ⟨fuel - 1, by omega⟩
  refine ⟨start, ?_, iff_of_true heq hend⟩
  rw [slopeLoop.eq_def]
  exact if_neg (by omega)

/-- A round looks at the next element and the one before it. -/
theorem At.slopeLoop_eq (h : At A lens front val (next :: rest)) (fuel : ℕ) (flag : Int32) :
    slopeLoop A lens (fuel + 1) (front.length + 1) flag =
      if next = val then slopeLoop A lens fuel (front.length + 2) flag
      else if flag = 0 then
        slopeLoop A lens fuel (front.length + 2) (if next > val then 1 else -1)
      else if flag * (next - val) < 0 then some (front.length + 1)
      else slopeLoop A lens fuel (front.length + 2) flag := by
  obtain ⟨beyond, hA⟩ := h.split
  have hnext : A[front.length + 1]? = some next := by
    rw [hA, List.getElem?_append_right (by omega), Nat.add_sub_cancel_left]
    rfl
  have hval : A[front.length + 1 - 1]? = some val := by
    rw [hA, Nat.add_sub_cancel, List.getElem?_append_right le_rfl, Nat.sub_self]
    rfl
  rw [slopeLoop, if_pos h.lt, hnext, Option.bind_eq_bind, Option.bind_some, hval, Option.bind_some]
  rfl

/-- The loop once it has a direction. -/
theorem At.endsFrom_flag (h : At A lens front val rest) (hflag : flag.toInt = 1 ∨ flag.toInt = -1) :
    EndsFrom A lens (front.length + 1) flag
      (∀ step ∈ steps (val :: rest), ¬SeemsBack (flag.toInt * step)) := by
  induction rest generalizing front val with
  | nil => exact endsFrom_of_le h.lens_eq.symm fun _ ↦ nofun
  | cons next rest ih =>
    have hne : flag ≠ 0 := by
      rintro rfl
      rcases hflag with heq | heq <;> cases heq
    have hrest := ih h.tail
    rw [List.length_append, List.length_singleton] at hrest
    rw [steps, List.forall_mem_cons, ← mul_sub_neg_iff hflag]
    by_cases hback : next ≠ val ∧ flag * (next - val) < 0
    · refine endsFrom_of_break h.lt (fun fuel ↦ ?_) fun hend ↦ hend.1 hback.2
      rw [h.slopeLoop_eq, if_neg hback.1, if_neg hne, if_pos hback.2]
    · have hforth : ¬flag * (next - val) < 0 := by
        intro hneg
        refine hback ⟨?_, hneg⟩
        rintro rfl
        rw [Int32.sub_self, Int32.mul_zero] at hneg
        exact absurd hneg (by decide)
      rw [and_iff_right hforth]
      refine hrest.step h.lt fun fuel ↦ ?_
      rw [h.slopeLoop_eq, if_neg hne, if_neg hforth, ite_self]

/-- The loop while it has no direction. -/
theorem At.endsFrom_zero (h : At A lens front val rest) :
    EndsFrom A lens (front.length + 1) 0 (∀ step ∈ laterSteps (val :: rest), ¬SeemsBack step) := by
  induction rest generalizing front val with
  | nil => exact endsFrom_of_le h.lens_eq.symm fun _ ↦ nofun
  | cons next rest ih =>
    rw [laterSteps]
    by_cases heq : next = val
    · rw [if_pos heq]
      have hrest := ih h.tail
      rw [List.length_append, List.length_singleton] at hrest
      refine hrest.step h.lt fun fuel ↦ ?_
      rw [h.slopeLoop_eq, if_pos heq]
    · obtain ⟨flag, hif, hflag, hsign⟩ : ∃ flag : Int32, (if next > val then 1 else -1) = flag ∧
          (flag.toInt = 1 ∨ flag.toInt = -1) ∧ (next.toInt - val.toInt).sign = flag.toInt := by
        have hne : next.toInt ≠ val.toInt := mt Int32.toInt_inj.mp heq
        have hiff : next > val ↔ val.toInt < next.toInt := Int32.lt_iff_toInt_lt
        rcases lt_or_gt_of_ne hne with hlt | hgt
        · refine ⟨-1, if_neg (mt hiff.mp (by omega)), Or.inr rfl, ?_⟩
          rw [Int.sign_eq_neg_one_of_neg (by omega)]
          rfl
        · refine ⟨1, if_pos (hiff.mpr hgt), Or.inl rfl, ?_⟩
          rw [Int.sign_eq_one_of_pos (by omega)]
          rfl
      have hrest := h.tail.endsFrom_flag hflag
      rw [List.length_append, List.length_singleton] at hrest
      rw [if_neg heq, List.forall_mem_map, hsign]
      refine hrest.step h.lt fun fuel ↦ ?_
      rw [h.slopeLoop_eq, if_neg heq, if_pos rfl, hif]

/-! ### What is judged -/

/-- The elements up to that number. -/
def counted (A : List Int32) : List Int32 := A.take (sizeToInt A.length).toNat

theorem isMonotonic_eq (A : List Int32) :
    ∃ result, isMonotonic A = some result ∧
      (result = true ↔
        0 ≤ sizeToInt A.length ∧ ∀ step ∈ laterSteps (counted A), ¬SeemsBack step) := by
  have hle := sizeToInt_le A.length
  have hresult (index : ℕ)
      (hloop : slopeLoop A (sizeToInt A.length) (A.length + 1) 1 0 = some index) :
      isMonotonic A = some (sizeToInt A.length = 0 || index = sizeToInt A.length) := by
    rw [isMonotonic, hloop]
    rfl
  rcases lt_or_ge 0 (sizeToInt A.length) with hpos | hnonpos
  · obtain ⟨val, rest, hcounted⟩ : ∃ val rest, counted A = val :: rest := by
      refine List.exists_cons_of_ne_nil (List.ne_nil_of_length_pos ?_)
      rw [counted, List.length_take]
      omega
    have hat : At A (sizeToInt A.length) [] val rest := by
      refine ⟨⟨A.drop (sizeToInt A.length).toNat, ?_⟩, ?_⟩
      · rw [List.nil_append, ← List.cons_append, ← hcounted, counted, List.take_append_drop]
      · have hlength := congrArg List.length hcounted
        rw [counted, List.length_take, List.length_cons] at hlength
        rw [List.length_nil]
        omega
    obtain ⟨index, hloop, hindex⟩ := hat.endsFrom_zero (A.length + 1) (by
      rw [List.length_nil]
      push_cast
      omega)
    refine ⟨_, hresult index hloop, ?_⟩
    rw [hcounted, and_iff_right (by omega), ← hindex, decide_eq_false (by omega), Bool.false_or,
      decide_eq_true_iff]
  · have hloop : slopeLoop A (sizeToInt A.length) (A.length + 1) 1 0 = some 1 := by
      rw [slopeLoop.eq_def]
      exact if_neg (by omega)
    refine ⟨_, hresult 1 hloop, ?_⟩
    have hnil : counted A = [] := by
      rw [counted, List.take_eq_nil_iff]
      omega
    rw [hnil, and_iff_left (fun _ ↦ nofun), Bool.or_eq_true, decide_eq_true_iff,
      decide_eq_true_iff]
    omega

/-- No step that is judged goes on by so much that it seems to go back; or, where the array is not
monotonic, one of them seems to go back, or the number of elements to be less than none. -/
def Judged (A : List Int32) : Prop :=
  (Monotonic A ∧ 0 ≤ sizeToInt A.length ∧ ∀ step ∈ laterSteps (counted A), step < 2 ^ 31) ∨
    ¬Monotonic A ∧ (sizeToInt A.length < 0 ∨ ∃ step ∈ laterSteps (counted A), SeemsBack step)

theorem monotonic_take (h : Monotonic A) (size : ℕ) : Monotonic (A.take size) :=
  h.imp (fun hle ↦ hle.take) fun hge ↦ hge.take

theorem isMonotonic_iff (A : List Int32) :
    (∃ result, isMonotonic A = some result ∧ (result = true ↔ Monotonic A)) ↔ Judged A := by
  obtain ⟨result, hresult, hiff⟩ := isMonotonic_eq A
  have hsame : (∃ result, isMonotonic A = some result ∧ (result = true ↔ Monotonic A)) ↔
      (result = true ↔ Monotonic A) := by
    rw [hresult]
    constructor
    · rintro ⟨_, ⟨⟩, h⟩
      exact h
    · exact fun h ↦ ⟨result, rfl, h⟩
  rw [hsame, hiff, Judged]
  by_cases hmonotonic : Monotonic A
  · have hforth := monotonic_iff.mp (monotonic_take hmonotonic (sizeToInt A.length).toNat)
    rw [iff_true_right hmonotonic, and_iff_right hmonotonic, or_iff_left (fun h ↦ h.1 hmonotonic)]
    refine and_congr_right fun _ ↦ forall₂_congr fun step hstep ↦ ?_
    have hge := hforth step hstep
    rw [SeemsBack]
    omega
  · rw [iff_false_right hmonotonic, and_iff_right hmonotonic, or_iff_right (fun h ↦ hmonotonic h.1),
      not_and_or, not_le]
    simp only [not_forall, not_not, exists_prop]

/-- The steps of an ascending array of which the second one is that large. -/
theorem isMonotonic_wrong :
    isMonotonic [-2147483648, -2147483647, 2147483647] = some false ∧
      Monotonic [-2147483648, -2147483647, 2147483647] :=
  ⟨by decide, Or.inl (by decide)⟩

end CppLearn.Leetcode.MonotonicArray
