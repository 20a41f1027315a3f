import CppLearn.Foundation.SpacedElements
import CppLearn.Foundation.VectorAccess
import Mathlib.Order.Interval.Finset.Nat
import Mathlib.Data.Int.Interval

/-!
# The element that is repeated

In an array of `2 * N` elements, of which one occurs `N` times and each other one once,
`repeatedNTimes` looks for two equal elements at most two places apart, and takes the first element
where there are none. It does not look at the last two elements alone: of four elements they may be
the only ones that are equal, and of six they may be so with one that is further away.
-/

set_option autoImplicit false
set_option relaxedAutoImplicit false

namespace CppLearn.Leetcode.RepeatedElement

open Foundation.SpacedElements
open Foundation.VectorAccess (toInt toInt_of_lt toInt_of_le wrapSub wrapSub_of_le)

/-! ### The program -/

/-- The loop, in which `ret` is what has been read before it. -/
def pairLoop (A : List Int32) (ret : Int32) : ℕ → ℕ → Option Int32
  | 0, _ => none
  | fuel + 1, i =>
    if i < wrapSub A.length 2 then do
      let val ← A[i]?
      let next ← toInt (i + 1)
      let nextVal ← A[next]?
      if val = nextVal then return val
      else
        let second ← toInt (i + 2)
        let secondVal ← A[second]?
        if val = secondVal then return val
        else pairLoop A ret fuel next
    else return ret

/-- There are fewer rounds than elements. -/
def repeatedNTimes (A : List Int32) : Option Int32 := do
  let ret ← A[0]?
  pairLoop A ret A.length 0

/-! ### The loop -/

/-- An element is equal to one of the next two. -/
def Close (A : List Int32) (i : ℕ) : Prop :=
  ∃ val, A[i]? = some val ∧ (A[i + 1]? = some val ∨ A[i + 2]? = some val)

/-- The elements that an `int` can be the number of. -/
def counted (A : List Int32) : List Int32 := A.take (2 ^ 31)

variable {A : List Int32} {ret x y : Int32} {N i j fuel : ℕ}

theorem getElem?_counted (hlt : i < 2 ^ 31) : (counted A)[i]? = A[i]? :=
  List.getElem?_take_of_lt hlt

theorem getElem?_counted_of_le (hle : 2 ^ 31 ≤ i) : (counted A)[i]? = none :=
  List.getElem?_eq_none ((List.length_take_le ..).trans hle)

theorem counted_of_le (hle : A.length ≤ 2 ^ 31) : counted A = A := List.take_of_length_le hle

theorem lt_of_close (h : Close (counted A) i) : i + 1 < 2 ^ 31 := by
  obtain ⟨val, -, hnext | hsecond⟩ := h
  · by_contra hge
    rw [getElem?_counted_of_le (by omega)] at hnext
    cases hnext
  · by_contra hge
    rw [getElem?_counted_of_le (by omega)] at hsecond
    cases hsecond

theorem close_of_counted (h : Close (counted A) i) : Close A i := by
  have hsub (indx : ℕ) (y : Int32) (hy : (counted A)[indx]? = some y) : A[indx]? = some y := by
    rcases Nat.lt_or_ge indx (2 ^ 31) with hlt | hge
    · rwa [getElem?_counted hlt] at hy
    · rw [getElem?_counted_of_le hge] at hy
      cases hy
  obtain ⟨val, hval, hpair⟩ := h
  exact ⟨val, hsub _ _ hval, hpair.imp (hsub _ _) (hsub _ _)⟩

theorem close_counted_iff {val next second : Int32} (hlt : i + 1 < 2 ^ 31)
    (hval : A[i]? = some val) (hnext : A[i + 1]? = some next) (hsecond : A[i + 2]? = some second) :
    Close (counted A) i ↔ val = next ∨ (i + 2 < 2 ^ 31 ∧ val = second) := by
  rw [Close, getElem?_counted (by omega), getElem?_counted hlt, hval, hnext]
  rcases Nat.lt_or_ge (i + 2) (2 ^ 31) with hint | hint
  · rw [getElem?_counted hint, hsecond]
    simp only [Option.some_inj, exists_eq_left', hint, true_and, eq_comm]
  · rw [getElem?_counted_of_le hint]
    simp only [Option.some_inj, exists_eq_left', hint.not_gt, false_and, or_false, reduceCtorEq,
      eq_comm]

/-- The loop ends at a pair of equal elements, or it finds none. -/
theorem pairLoop_spec (hsize : 2 ≤ A.length) (hlt : A.length < 2 ^ 64) (hi : i + 2 ≤ 2 ^ 31)
    (hle : i + 2 ≤ A.length) (hfuel : A.length < i + 2 + fuel) :
    (∃ j, j + 2 < A.length ∧ Close (counted A) j ∧ pairLoop A ret fuel i = A[j]?) ∨
      (∀ j, i ≤ j → j + 2 < A.length → ¬Close (counted A) j) ∧
        pairLoop A ret fuel i = if A.length ≤ 2 ^ 31 then some ret else none := by
  induction fuel generalizing i with
  | zero => omega
  | succ fuel ih =>
    rw [pairLoop, wrapSub_of_le hsize hlt]
    by_cases hround : i < A.length - 2
    · have hval := List.getElem?_eq_getElem (by omega : i < A.length)
      have hnext := List.getElem?_eq_getElem (by omega : i + 1 < A.length)
      have hsecond := List.getElem?_eq_getElem (by omega : i + 2 < A.length)
      generalize A[i] = val at hval
      generalize A[i + 1] = next at hnext
      generalize A[i + 2] = second at hsecond
      rw [if_pos hround, hval, Option.bind_eq_bind, Option.bind_some, toInt_of_lt (by omega),
        Option.bind_eq_bind, Option.bind_some, hnext, Option.bind_some]
      have hclose := close_counted_iff (by omega) hval hnext hsecond
      by_cases hfirstEq : val = next
      · refine Or.inl ⟨i, by omega, hclose.mpr (Or.inl hfirstEq), ?_⟩
        rw [if_pos hfirstEq, hval]
        rfl
      rw [if_neg hfirstEq]
      rcases Nat.lt_or_ge (i + 2) (2 ^ 31) with hint | hint
      · rw [toInt_of_lt hint, Option.bind_some, hsecond, Option.bind_some]
        by_cases hsecondEq : val = second
        · refine Or.inl ⟨i, by omega, hclose.mpr (Or.inr ⟨hint, hsecondEq⟩), ?_⟩
          rw [if_pos hsecondEq, hval]
          rfl
        rw [if_neg hsecondEq]
        refine (ih (by omega) (by omega) (by omega)).imp_right fun ⟨hnone, hresult⟩ ↦ ?_
        refine ⟨fun j hj hjlt hjclose ↦ ?_, hresult⟩
        rcases Nat.eq_or_lt_of_le hj with rfl | hgt
        · exact (hclose.mp hjclose).elim hfirstEq fun hboth ↦ hsecondEq hboth.2
        · exact hnone j hgt hjlt hjclose
      · refine Or.inr ⟨fun j hj hjlt hjclose ↦ ?_, ?_⟩
        · have hjint := lt_of_close hjclose
          obtain rfl : i = j := by omega
          exact (hclose.mp hjclose).elim hfirstEq fun hboth ↦ hboth.1.not_ge hint
        · rw [toInt_of_le hint, if_neg (by omega)]
          rfl
    · refine Or.inr ⟨fun j hj hjlt ↦ ?_, ?_⟩
      · omega
      · rw [if_neg hround, if_pos (by omega)]
        rfl

/-! ### The arrays -/

/-- Of twice `N` elements one occurs `N` times, and there are `N` others. -/
structure NRepeated (N : ℕ) (A : List Int32) (x : Int32) : Prop where
  two_le : 2 ≤ N
  length_eq : A.length = 2 * N
  distinct : A.toFinset.card = N + 1
  count_eq : A.count x = N
  unique : ∀ y, A.count y = N → y = x

theorem NRepeated.count_le_one (h : NRepeated N A x) (hne : y ≠ x) : A.count y ≤ 1 :=
  count_le_one_of_card h.length_eq h.distinct h.count_eq hne

/-- There are no more values than words. -/
theorem NRepeated.lt (h : NRepeated N A x) : N < 2 ^ 32 := by
  have hcard : A.toFinset.card ≤ (Finset.Ico (-2 ^ 31 : ℤ) (2 ^ 31)).card := by
    refine Finset.card_le_card_of_injOn Int32.toInt (fun y _ ↦ ?_) fun y _ z _ heq ↦ ?_
    · exact Finset.mem_coe.mpr (Finset.mem_Ico.mpr ⟨y.le_toInt, y.toInt_lt⟩)
    · exact Int32.toInt_inj.mp heq
  rw [h.distinct, Int.card_Ico] at hcard
  omega

/-- Only one element occurs at two places. -/
theorem NRepeated.eq_of_getElem? (h : NRepeated N A x) (hlt : i < j) (hi : A[i]? = some y)
    (hj : A[j]? = some y) : y = x := by
  by_contra hne
  have hcount := h.count_le_one hne
  have hfront : y ∈ A.take j := by
    rw [← List.getElem?_take_of_lt hlt] at hi
    exact List.mem_of_getElem? hi
  have hback : y ∈ A.drop j := by
    rw [← Nat.add_zero j, ← List.getElem?_drop] at hj
    exact List.mem_of_getElem? hj
  have hfrontCount := List.count_pos_iff.mpr hfront
  have hbackCount := List.count_pos_iff.mpr hback
  have hsplit : A.count y = (A.take j).count y + (A.drop j).count y := by
    rw [← List.count_append, List.take_append_drop]
  omega

theorem NRepeated.close_iff (h : NRepeated N A x) :
    Close A j ↔ A[j]? = some x ∧ (A[j + 1]? = some x ∨ A[j + 2]? = some x) := by
  constructor
  · rintro ⟨y, hy, hnext | hsecond⟩
    · obtain rfl := h.eq_of_getElem? (Nat.lt_succ_self j) hy hnext
      exact ⟨hy, Or.inl hnext⟩
    · obtain rfl := h.eq_of_getElem? (Nat.lt_add_of_pos_right two_pos) hy hsecond
      exact ⟨hy, Or.inr hsecond⟩
  · exact fun hx ↦ ⟨x, hx⟩

/-! ### Where no pair is found -/

/-- The last two elements are equal, and there is no other pair at most two places apart. -/
def LastPairOnly (N : ℕ) (A : List Int32) : Prop :=
  (N = 2 ∧ A[2]? = A[3]?) ∨ (N = 3 ∧ A[1]? = A[4]? ∧ A[4]? = A[5]?)

/-- Where no pair is found and the first element is another one, there are few elements. -/
theorem NRepeated.le_three (h : NRepeated N A x) (hfirst : A[0]? ≠ some x)
    (hnone : ∀ j, j + 2 < A.length → ¬Close A j) : N ≤ 3 := by
  have hlength := h.length_eq
  have htwo := h.two_le
  obtain ⟨first, others, rfl⟩ := List.exists_cons_of_length_pos (by omega : 0 < A.length)
  rw [List.length_cons] at hlength
  obtain rfl | ⟨middle, last, rfl⟩ := others.eq_nil_or_concat
  · rw [List.length_nil] at hlength
    omega
  rw [List.concat_eq_append] at *
  rw [List.length_append, List.length_singleton] at hlength
  have hspaced : Spaced 3 x middle := by
    intro i j hlt hgap hi hj
    obtain ⟨hjlt, -⟩ := List.getElem?_eq_some_iff.mp hj
    have hat (indx : ℕ) (hindx : indx < middle.length) :
        (first :: (middle ++ [last]))[indx + 1]? = middle[indx]? := by
      rw [List.getElem?_cons_succ, List.getElem?_append_left hindx]
    refine hnone (i + 1) ?_ (h.close_iff.mpr ⟨?_, ?_⟩)
    · rw [List.length_cons, List.length_append, List.length_singleton]
      omega
    · rw [hat i (by omega), hi]
    · obtain rfl | rfl : j = i + 1 ∨ j = i + 2 := by omega
      · exact Or.inl (by rw [hat (i + 1) hjlt, hj])
      · exact Or.inr (by rw [hat (i + 2) hjlt, hj])
  have hcount := h.count_eq
  have hle := hspaced.mul_count_le
  have hlast := List.count_le_length (a := x) (l := [last])
  have hne : first ≠ x := fun heq ↦ hfirst (congrArg some heq)
  rw [List.count_cons_of_ne hne, List.count_append] at hcount
  rw [List.length_singleton] at hlast
  omega

theorem NRepeated.lastPairOnly_two {a b c d : Int32} (h : NRepeated 2 [a, b, c, d] x) :
    c = d ↔ a ≠ x ∧ ∀ j, j + 2 < 4 → ¬Close [a, b, c, d] j := by
  have hcount : (if d = x then 1 else 0) + (if c = x then 1 else 0) + (if b = x then 1 else 0) +
      (if a = x then 1 else 0) = 2 := by
    simpa only [List.count_cons, List.count_nil, beq_iff_eq, Nat.zero_add] using h.count_eq
  have hlast : c = d ↔ c = x ∧ d = x := by
    refine ⟨fun heq ↦ ?_, fun ⟨hc, hd⟩ ↦ hc.trans hd.symm⟩
    have hx := @NRepeated.eq_of_getElem? _ x c 2 2 3 h (by decide) rfl (congrArg some heq.symm)
    exact ⟨hx, heq ▸ hx⟩
  have hclose : (∀ j, j + 2 < 4 → ¬Close [a, b, c, d] j) ↔
      ¬(a = x ∧ (b = x ∨ c = x)) ∧ ¬(b = x ∧ (c = x ∨ d = x)) := by
    simp only [h.close_iff]
    constructor
    · intro hnone
      exact ⟨by simpa using hnone 0 (by decide), by simpa using hnone 1 (by decide)⟩
    · rintro ⟨hzero, hone⟩ j hj
      obtain rfl | rfl : j = 0 ∨ j = 1 := by omega
      · simpa using hzero
      · simpa using hone
  rw [hlast, hclose]
  grind

theorem NRepeated.lastPairOnly_three {a b c d e f : Int32}
    (h : NRepeated 3 [a, b, c, d, e, f] x) :
    b = e ∧ e = f ↔ a ≠ x ∧ ∀ j, j + 2 < 6 → ¬Close [a, b, c, d, e, f] j := by
  have hcount : (if f = x then 1 else 0) + (if e = x then 1 else 0) + (if d = x then 1 else 0) +
      (if c = x then 1 else 0) + (if b = x then 1 else 0) + (if a = x then 1 else 0) = 3 := by
    simpa only [List.count_cons, List.count_nil, beq_iff_eq, Nat.zero_add] using h.count_eq
  have hlast : b = e ∧ e = f ↔ b = x ∧ e = x ∧ f = x := by
    refine ⟨fun ⟨hbe, hef⟩ ↦ ?_, fun ⟨hb, he, hf⟩ ↦ ⟨hb.trans he.symm, he.trans hf.symm⟩⟩
    have hx := @NRepeated.eq_of_getElem? _ x e 3 4 5 h (by decide) rfl (congrArg some hef.symm)
    exact ⟨hbe.trans hx, hx, hef ▸ hx⟩
  have hclose : (∀ j, j + 2 < 6 → ¬Close [a, b, c, d, e, f] j) ↔
      ¬(a = x ∧ (b = x ∨ c = x)) ∧ ¬(b = x ∧ (c = x ∨ d = x)) ∧
        ¬(c = x ∧ (d = x ∨ e = x)) ∧ ¬(d = x ∧ (e = x ∨ f = x)) := by
    simp only [h.close_iff]
    constructor
    · intro hnone
      exact ⟨by simpa using hnone 0 (by decide), by simpa using hnone 1 (by decide),
        by simpa using hnone 2 (by decide), by simpa using hnone 3 (by decide)⟩
    · rintro ⟨hzero, hone, htwo, hthree⟩ j hj
      obtain rfl | rfl | rfl | rfl : j = 0 ∨ j = 1 ∨ j = 2 ∨ j = 3 := by omega
      · simpa using hzero
      · simpa using hone
      · simpa using htwo
      · simpa using hthree
  rw [hlast, hclose]
  grind

/-- These are the arrays in which no pair is found and the first element is another one. -/
theorem NRepeated.lastPairOnly_iff (h : NRepeated N A x) :
    LastPairOnly N A ↔ A[0]? ≠ some x ∧ ∀ j, j + 2 < A.length → ¬Close A j := by
  have hlength := h.length_eq
  have htwo := h.two_le
  by_cases hN : N ≤ 3
  · obtain rfl | rfl : N = 2 ∨ N = 3 := by omega
    · match A, hlength with
      | [a, b, c, d], _ =>
        have hiff := h.lastPairOnly_two
        simpa [LastPairOnly] using hiff
    · match A, hlength with
      | [a, b, c, d, e, f], _ =>
        have hiff := h.lastPairOnly_three
        simpa [LastPairOnly] using hiff
  · refine iff_of_false ?_ fun ⟨hfirst, hnone⟩ ↦ hN (h.le_three hfirst hnone)
    rintro (⟨rfl, -⟩ | ⟨rfl, -⟩)
    · exact hN (by decide)
    · exact hN le_rfl

/-- A pair is found where the numbers of the places are those of an `int`, and the pair is not the
last one alone. -/
def Found (N : ℕ) (A : List Int32) : Prop :=
  (2 * N ≤ 2 ^ 31 → ¬LastPairOnly N A) ∧ (2 ^ 31 < 2 * N → ∃ i, Close (counted A) i)

/-- The element that is repeated is returned. -/
theorem repeatedNTimes_iff (h : NRepeated N A x) : repeatedNTimes A = some x ↔ Found N A := by
  have hlength := h.length_eq
  have htwo := h.two_le
  have hlt := h.lt
  obtain ⟨ret, hret⟩ : ∃ ret, A[0]? = some ret :=
    ⟨_, List.getElem?_eq_getElem (by omega : 0 < A.length)⟩
  have hrun : repeatedNTimes A = pairLoop A ret A.length 0 := by
    rw [repeatedNTimes, hret]
    rfl
  have hsub (hsmall : 2 * N ≤ 2 ^ 31) : counted A = A := counted_of_le (by omega)
  rw [hrun, Found]
  rcases @pairLoop_spec A ret 0 A.length (by omega) (by omega) (by omega) (by omega) (by omega) with
    ⟨j, hj, hclose, hloop⟩ | ⟨hnone, hloop⟩
  · have hresult : A[j]? = some x := (h.close_iff.mp (close_of_counted hclose)).1
    rw [hloop, hresult]
    refine iff_of_true rfl ⟨fun hsmall hlast ↦ ?_, fun _ ↦ ⟨j, hclose⟩⟩
    rw [hsub hsmall] at hclose
    exact (h.lastPairOnly_iff.mp hlast).2 j hj hclose
  · rw [hloop]
    split
    next hsmall =>
      rw [hsub (by omega)] at hnone
      rw [and_iff_left (by omega), imp_iff_right (by omega), h.lastPairOnly_iff, hret]
      have hnone' : ∀ j, j + 2 < A.length → ¬Close A j := fun j ↦ hnone j (Nat.zero_le j)
      rw [and_iff_left hnone', not_not]
    next hlarge =>
      refine iff_of_false nofun fun ⟨_, hclose⟩ ↦ ?_
      obtain ⟨i, hi⟩ := hclose (by omega)
      have hint := lt_of_close hi
      exact hnone i (Nat.zero_le i) (by omega) hi

theorem repeatedNTimes_iff_six :
    repeatedNTimes [2, 1, 2, 5, 3, 2] = some 2 ↔ Found 3 [2, 1, 2, 5, 3, 2] := by
  refine repeatedNTimes_iff ⟨by decide, rfl, by decide, by decide, fun y hy ↦ ?_⟩
  by_contra hne
  have hle := @count_le_one_of_card _ 2 y [2, 1, 2, 5, 3, 2] _ 3 rfl (by decide) (by decide) hne
  omega

/-- The first example of the description. -/
theorem repeatedNTimes_wrong :
    repeatedNTimes [1, 2, 3, 3] = some 1 ∧ NRepeated 2 [1, 2, 3, 3] 3 := by
  refine ⟨by decide, by decide, rfl, by decide, by decide, fun y hy ↦ ?_⟩
  by_contra hne
  have hle := @count_le_one_of_card _ 3 y [1, 2, 3, 3] _ 2 rfl (by decide) (by decide) hne
  omega

end CppLearn.Leetcode.RepeatedElement
