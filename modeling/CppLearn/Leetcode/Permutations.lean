import CppLearn.Foundation.Enumeration
import CppLearn.Foundation.VectorAccess
import Mathlib.Algebra.Order.Ring.Int
import Mathlib.Data.Finset.Insert

/-!
# Permutations

`permute` and `permuteUnique` bring each element to the front in turn and go on behind it;
`permuteUnique` leaves out an element that has been in front before. Both swap back, so that each
element is brought from where it was. The size is taken for an `int`, which a size from two to the
power of 31 on is not.
-/

set_option autoImplicit false
set_option relaxedAutoImplicit false

namespace CppLearn.Leetcode.Permutations

open Foundation.Enumeration Foundation.VectorAccess

/-! ### The programs -/

/-- `lens - 1`. -/
def lastOf (lens : ℤ) : Option ℤ := if lens = -2 ^ 31 then none else some (lens - 1)

/-- `swap(nums[i], nums[index])`. -/
def swapAt (nums : List ℤ) (i index : ℕ) : Option (List ℤ) := (swap nums i index).toOption

/-- The loop of `permuteImpl` around its call, with a limit on its rounds. -/
def permuteLoop
    (call : List ℤ → ℕ → List (List ℤ) → Option (List ℤ × List (List ℤ))) (index : ℕ) (lens : ℤ) :
    ℕ → List ℤ → ℕ → List (List ℤ) → Option (List ℤ × List (List ℤ))
  | 0, _, _, _ => none
  | fuel + 1, nums, i, permutations =>
    if i < lens then do
      let nums ← swapAt nums i index
      let (nums, permutations) ← call nums (index + 1) permutations
      let nums ← swapAt nums i index
      permuteLoop call index lens fuel nums (i + 1) permutations
    else some (nums, permutations)

/-- `permuteImpl`, with a limit on the depth of its recursion. -/
def permuteImpl :
    ℕ → List ℤ → ℕ → List (List ℤ) → Option (List ℤ × List (List ℤ))
  | 0, _, _, _ => none
  | fuel + 1, nums, index, permutations => do
    let lens := sizeToInt nums.length
    let last ← lastOf lens
    if index ≥ last then return (nums, permutations ++ [nums])
    else permuteLoop (permuteImpl fuel) index lens (nums.length + 1) nums index permutations

/-- `permute`, and `nums` after it. -/
def permute (nums : List ℤ) : Option (List (List ℤ) × List ℤ) := do
  let (nums, permutations) ← permuteImpl (nums.length + 1) nums 0 []
  return (permutations, nums)

/-- The loop of `permuteUniqueImpl` around its call, with a limit on its rounds. -/
def uniqueLoop
    (call : List ℤ → ℕ → List (List ℤ) → Option (List ℤ × List (List ℤ))) (index : ℕ) (lens : ℤ) :
    ℕ → List ℤ → Finset ℤ → ℕ → List (List ℤ) → Option (List ℤ × List (List ℤ))
  | 0, _, _, _, _ => none
  | fuel + 1, nums, s, i, permutations =>
    if i < lens then do
      let num ← nums[i]?
      if num ∈ s then uniqueLoop call index lens fuel nums s (i + 1) permutations
      else do
        let s := insert num s
        let nums ← swapAt nums i index
        let (nums, permutations) ← call nums (index + 1) permutations
        let nums ← swapAt nums i index
        uniqueLoop call index lens fuel nums s (i + 1) permutations
    else some (nums, permutations)

/-- `permuteUniqueImpl`, with a limit on the depth of its recursion. -/
def permuteUniqueImpl :
    ℕ → List ℤ → ℕ → List (List ℤ) → Option (List ℤ × List (List ℤ))
  | 0, _, _, _ => none
  | fuel + 1, nums, index, permutations => do
    let lens := sizeToInt nums.length
    let last ← lastOf lens
    if index ≥ last then return (nums, permutations ++ [nums])
    else uniqueLoop (permuteUniqueImpl fuel) index lens (nums.length + 1) nums ∅ index permutations

/-- `permuteUnique`, and `nums` after it. -/
def permuteUnique (nums : List ℤ) : Option (List (List ℤ) × List ℤ) := do
  let (nums, permutations) ← permuteUniqueImpl (nums.length + 1) nums 0 []
  return (permutations, nums)

/-! ### Bringing an element to the front -/

variable {nums front seen todo rest : List ℤ} {num : ℤ} {index i fuel : ℕ} {lens : ℤ}
    {permutations : List (List ℤ)}

/-- An element is exchanged for the first one, and back. -/
theorem exists_brought (front seen : List ℤ) (num : ℤ) (todo : List ℤ) :
    ∃ rest, swapAt (front ++ (seen ++ num :: todo)) (front.length + seen.length) front.length =
      some (front ++ num :: rest) ∧ (num :: rest).Perm (seen ++ num :: todo) ∧
      swapAt (front ++ num :: rest) (front.length + seen.length) front.length =
        some (front ++ (seen ++ num :: todo)) := by
  cases seen with
  | nil =>
    refine ⟨todo, ?_, .refl _, ?_⟩
    all_goals
      rw [List.length_nil, Nat.add_zero, swapAt, List.nil_append, swap_self]
      rfl
  | cons first seen =>
    have hlength (other : ℤ) :
        front.length + (first :: seen).length = (front ++ other :: seen).length := by
      rw [List.length_append, List.length_cons, List.length_cons]
    refine ⟨seen ++ first :: todo, ?_, ?_, ?_⟩
    · have hswap := swap_append' front first seen num todo
      rw [List.append_assoc, List.cons_append, List.append_assoc, List.cons_append] at hswap
      rw [swapAt, hlength first, List.cons_append, hswap]
      rfl
    · calc (num :: (seen ++ first :: todo)).Perm (num :: first :: (seen ++ todo)) :=
            List.perm_middle.cons num
        _ |>.Perm (first :: num :: (seen ++ todo)) := List.Perm.swap first num _
        _ |>.Perm (first :: (seen ++ num :: todo)) := List.perm_middle.symm.cons first
    · have hswap := swap_append' front num seen first todo
      rw [List.append_assoc, List.cons_append, List.append_assoc, List.cons_append] at hswap
      rw [swapAt, hlength num, hswap]
      rfl

/-- The place of an element behind those that have been seen. -/
theorem getElem?_place (front seen : List ℤ) (num : ℤ) (todo : List ℤ) :
    (front ++ (seen ++ num :: todo))[front.length + seen.length]? = some num := by
  rw [List.getElem?_append_right (Nat.le_add_right ..), Nat.add_sub_cancel_left,
    List.getElem?_append_right le_rfl, Nat.sub_self]
  rfl

theorem place_lt (front seen : List ℤ) (num : ℤ) (todo : List ℤ) :
    ((front.length + seen.length : ℕ) : ℤ) < (front ++ (seen ++ num :: todo)).length := by
  rw [List.length_append, List.length_append, List.length_cons]
  omega

/-- The element is one that has been seen, then. -/
theorem mem_insert_iff {s : Finset ℤ} (hs : ∀ other, other ∈ s ↔ other ∈ seen) (num other : ℤ) :
    other ∈ insert num s ↔ other ∈ seen ++ [num] := by
  rw [Finset.mem_insert, hs, List.mem_append, List.mem_singleton, or_comm]

/-! ### The size -/

theorem lastOf_eq (hlength : nums.length < 2 ^ 31) :
    lastOf (sizeToInt nums.length) = some (nums.length - 1 : ℤ) := by
  rw [sizeToInt_of_lt hlength, lastOf, if_neg (by omega)]

/-- What is behind one more element is no longer. -/
theorem bounds_of_perm (hperm : (num :: todo).Perm rest) (hlength : (front ++ rest).length < 2 ^ 31)
    (hfuel : rest.length < fuel + 1) :
    ((front ++ [num]) ++ todo).length < 2 ^ 31 ∧ todo.length < fuel := by
  have heq := hperm.length_eq
  rw [List.length_cons] at heq
  rw [List.length_append] at hlength
  rw [List.length_append, List.length_append, List.length_singleton]
  omega

/-! ### The distinct arrangements -/

/-- The arrangements with one element in front, and those with others. -/
theorem enumerates_append {first second : List (List ℤ)} {whole : List ℤ}
    (hfirst : Enumerates first (·.Perm rest))
    (hsecond : Enumerates second fun nums ↦
      nums.Perm whole ∧ ∃ other ∈ nums.head?, other ∉ seen ++ [num])
    (hperm : (num :: rest).Perm whole) (hnew : num ∉ seen) :
    Enumerates (first.map (num :: ·) ++ second) fun nums ↦
      nums.Perm whole ∧ ∃ other ∈ nums.head?, other ∉ seen := by
  refine ((hfirst.map List.cons_injective).append hsecond ?_).congr fun nums ↦ ?_
  · rintro _ ⟨tail, -, rfl⟩ ⟨-, other, ⟨⟩, hnot⟩
    exact hnot (List.mem_append_right _ (List.mem_singleton_self _))
  · constructor
    · rintro (⟨tail, htail, rfl⟩ | ⟨hnums, other, hhead, hnot⟩)
      · exact ⟨(htail.cons num).trans hperm, num, rfl, hnew⟩
      · exact ⟨hnums, other, hhead, fun hmem ↦ hnot (List.mem_append_left _ hmem)⟩
    · rintro ⟨hnums, other, hhead, hnot⟩
      cases nums with
      | nil => cases hhead
      | cons head tail =>
        obtain rfl : head = other := Option.some.inj hhead
        by_cases heq : head = num
        · subst heq
          exact .inl ⟨tail, (hnums.trans hperm.symm).cons_inv, rfl⟩
        · refine .inr ⟨hnums, head, rfl, fun hmem ↦ ?_⟩
          rcases List.mem_append.mp hmem with hmem | hmem
          · exact hnot hmem
          · exact heq (List.mem_singleton.mp hmem)

/-- What a call does that has the elements of `front` in front of its own. -/
def Completes (call : List ℤ → ℕ → List (List ℤ) → Option (List ℤ × List (List ℤ)))
    (front rest : List ℤ) : Prop :=
  ∀ permutations, ∃ arrangements,
    call (front ++ rest) front.length permutations =
      some (front ++ rest, permutations ++ arrangements.map (front ++ ·)) ∧
    Enumerates arrangements (·.Perm rest)

theorem Completes.behind
    {call : List ℤ → ℕ → List (List ℤ) → Option (List ℤ × List (List ℤ))}
    (h : Completes call (front ++ [num]) rest) (permutations : List (List ℤ)) :
    ∃ arrangements, call (front ++ num :: rest) (front.length + 1) permutations =
        some (front ++ num :: rest,
          permutations ++ (arrangements.map (num :: ·)).map (front ++ ·)) ∧
      Enumerates arrangements (·.Perm rest) := by
  obtain ⟨arrangements, hcall, henumerates⟩ := h permutations
  have hmap : arrangements.map (front ++ [num] ++ ·) =
      (arrangements.map (num :: ·)).map (front ++ ·) := by
    rw [List.map_map]
    refine List.map_congr_left fun tail _ ↦ ?_
    rw [Function.comp_apply, List.append_assoc, List.singleton_append]
  rw [List.append_assoc, List.singleton_append, List.length_append, List.length_singleton,
    hmap] at hcall
  exact ⟨arrangements, hcall, henumerates⟩

/-- The rounds that are left add the arrangements that begin with an element not seen before. -/
theorem uniqueLoop_spec
    {call : List ℤ → ℕ → List (List ℤ) → Option (List ℤ × List (List ℤ))} {s : Finset ℤ}
    (hcall : ∀ num rest, (num :: rest).Perm (seen ++ todo) → Completes call (front ++ [num]) rest)
    (hs : ∀ num, num ∈ s ↔ num ∈ seen) (hwhole : seen ++ todo ≠ [])
    (hlens : lens = (front ++ (seen ++ todo)).length) (hfuel : todo.length < fuel) :
    ∃ arrangements, uniqueLoop call front.length lens fuel (front ++ (seen ++ todo)) s
      (front.length + seen.length) permutations =
        some (front ++ (seen ++ todo), permutations ++ arrangements.map (front ++ ·)) ∧
      Enumerates arrangements fun nums ↦
        nums.Perm (seen ++ todo) ∧ ∃ first ∈ nums.head?, first ∉ seen := by
  induction todo generalizing seen s fuel permutations with
  | nil =>
    obtain ⟨fuel, rfl⟩ := Nat.exists_eq_succ_of_ne_zero (Nat.ne_of_gt hfuel)
    rw [List.append_nil] at hlens hwhole ⊢
    refine ⟨[], ?_, enumerates_nil ?_⟩
    · rw [uniqueLoop, if_neg (by rw [hlens, List.length_append]; exact lt_irrefl _), List.map_nil,
        List.append_nil]
    · rintro nums ⟨hperm, first, hhead, hnot⟩
      exact absurd (hperm.subset (List.mem_of_mem_head? hhead)) hnot
  | cons num todo ih =>
    obtain ⟨fuel, rfl⟩ := Nat.exists_eq_succ_of_ne_zero (Nat.ne_of_gt (Nat.zero_lt_of_lt hfuel))
    have hassoc : seen ++ num :: todo = (seen ++ [num]) ++ todo := by
      rw [List.append_assoc, List.singleton_append]
    have hnext : front.length + seen.length + 1 = front.length + (seen ++ [num]).length := by
      rw [List.length_append, List.length_singleton, Nat.add_assoc]
    have hin : ((front.length + seen.length : ℕ) : ℤ) < lens := hlens ▸ place_lt front seen num todo
    rw [uniqueLoop, if_pos hin, getElem?_place, Option.bind_eq_bind, Option.bind_some, hnext]
    have hloop (permutations : List (List ℤ)) {s : Finset ℤ}
        (hs : ∀ other, other ∈ s ↔ other ∈ seen ++ [num]) :=
      @ih (seen ++ [num]) fuel permutations s (hassoc ▸ hcall) hs (hassoc ▸ hwhole)
        (hassoc ▸ hlens) (Nat.lt_of_succ_lt_succ hfuel)
    rw [← hassoc] at hloop
    by_cases hmem : num ∈ s
    · have hsame (other : ℤ) : other ∈ seen ++ [num] ↔ other ∈ seen := by
        rw [List.mem_append, List.mem_singleton, or_iff_left_iff_imp]
        rintro rfl
        exact (hs other).mp hmem
      obtain ⟨arrangements, hrest, henumerates⟩ := hloop permutations fun other ↦
        (hs other).trans (hsame other).symm
      simp only [hsame] at henumerates
      rw [if_pos hmem]
      exact ⟨arrangements, hrest, henumerates⟩
    · obtain ⟨rest, hswap, hperm, hback⟩ := exists_brought front seen num todo
      obtain ⟨first, hfirst, hfirstEnumerates⟩ := (hcall num rest hperm).behind permutations
      obtain ⟨second, hrest, hsecondEnumerates⟩ :=
        hloop (permutations ++ (first.map (num :: ·)).map (front ++ ·)) (mem_insert_iff hs num)
      refine ⟨first.map (num :: ·) ++ second, ?_,
        enumerates_append hfirstEnumerates hsecondEnumerates hperm fun hin ↦
          hmem ((hs num).mpr hin)⟩
      simp only [if_neg hmem, hswap, Option.bind_eq_bind, Option.bind_some, hfirst, hback, hrest,
        List.map_append, List.append_assoc]

/-- Behind the elements that stand there are the distinct arrangements of the others. -/
theorem permuteUniqueImpl_spec (hlength : (front ++ rest).length < 2 ^ 31)
    (hfuel : rest.length < fuel) : Completes (permuteUniqueImpl fuel) front rest := by
  induction fuel generalizing front rest with
  | zero => cases hfuel
  | succ fuel ih =>
    intro permutations
    rw [permuteUniqueImpl, lastOf_eq hlength, Option.bind_eq_bind, Option.bind_some]
    by_cases hshort : rest.length ≤ 1
    · have hself (nums : List ℤ) : nums.Perm rest ↔ nums = rest := by
        match rest, hshort with
        | [], _ => exact List.perm_nil
        | [num], _ => exact List.perm_singleton
      refine ⟨[rest], ?_, enumerates_singleton hself⟩
      exact if_pos (by rw [List.length_append]; omega)
    · have hne : rest ≠ [] := fun heq ↦ hshort (by rw [heq]; exact Nat.zero_le 1)
      have hcall (num : ℤ) (rest' : List ℤ) (hperm : (num :: rest').Perm ([] ++ rest)) :
          Completes (permuteUniqueImpl fuel) (front ++ [num]) rest' := by
        obtain ⟨hlength', hfuel'⟩ := bounds_of_perm hperm hlength hfuel
        exact ih hlength' hfuel'
      obtain ⟨arrangements, hloop, henumerates⟩ :=
        @uniqueLoop_spec front [] rest ((front ++ rest).length + 1) (sizeToInt (front ++ rest).length)
          permutations (permuteUniqueImpl fuel) ∅ hcall (fun num ↦ by simp) hne
          (sizeToInt_of_lt hlength) (by rw [List.length_append]; omega)
      refine ⟨arrangements, ?_, henumerates.congr fun nums ↦ ?_⟩
      · rw [if_neg (by rw [List.length_append]; omega)]
        exact hloop
      · refine and_iff_left_of_imp fun hperm ↦ ?_
        cases nums with
        | nil => exact absurd hperm.nil_eq.symm hne
        | cons first nums => exact ⟨first, rfl, List.not_mem_nil⟩

/-! ### Distinct elements -/

/-- Where no element occurs twice none is left out. -/
theorem uniqueLoop_eq
    {call call' : List ℤ → ℕ → List (List ℤ) → Option (List ℤ × List (List ℤ))} {s : Finset ℤ}
    (hcall : ∀ num rest, (num :: rest).Perm (seen ++ todo) → Completes call (front ++ [num]) rest)
    (hsame : ∀ num rest permutations, (num :: rest).Perm (seen ++ todo) →
      call (front ++ num :: rest) (front.length + 1) permutations =
        call' (front ++ num :: rest) (front.length + 1) permutations)
    (hs : ∀ num, num ∈ s ↔ num ∈ seen) (hnodup : (seen ++ todo).Nodup) :
    uniqueLoop call front.length (front ++ (seen ++ todo)).length fuel (front ++ (seen ++ todo)) s
      (front.length + seen.length) permutations =
      permuteLoop call' front.length (front ++ (seen ++ todo)).length fuel
        (front ++ (seen ++ todo)) (front.length + seen.length) permutations := by
  induction todo generalizing seen s fuel permutations with
  | nil =>
    cases fuel with
    | zero => rfl
    | succ fuel =>
      have hout : ¬ (((front.length + seen.length : ℕ) : ℤ) < (front ++ (seen ++ [])).length) := by
        rw [List.append_nil, List.length_append]
        exact lt_irrefl _
      rw [uniqueLoop, permuteLoop, if_neg hout, if_neg hout]
  | cons num todo ih =>
    cases fuel with
    | zero => rfl
    | succ fuel =>
      have hassoc : seen ++ num :: todo = (seen ++ [num]) ++ todo := by
        rw [List.append_assoc, List.singleton_append]
      have hnext : front.length + seen.length + 1 = front.length + (seen ++ [num]).length := by
        rw [List.length_append, List.length_singleton, Nat.add_assoc]
      have hin := place_lt front seen num todo
      have hnew : num ∉ s := fun hmem ↦
        (List.nodup_append'.mp hnodup).2.2 ((hs num).mp hmem) List.mem_cons_self
      have hloop (permutations : List (List ℤ)) :=
        @ih (seen ++ [num]) fuel permutations (insert num s) (hassoc ▸ hcall) (hassoc ▸ hsame)
          (mem_insert_iff hs num) (hassoc ▸ hnodup)
      rw [← hassoc, ← hnext] at hloop
      obtain ⟨rest, hswap, hperm, hback⟩ := exists_brought front seen num todo
      obtain ⟨arrangements, hfirst, -⟩ := (hcall num rest hperm).behind permutations
      have hfirst' := (hsame num rest permutations hperm).symm.trans hfirst
      rw [uniqueLoop, permuteLoop, if_pos hin, if_pos hin, getElem?_place]
      simp only [Option.bind_eq_bind, Option.bind_some, if_neg hnew, hswap, hfirst, hfirst', hback,
        hloop]

theorem permuteUniqueImpl_eq (hlength : (front ++ rest).length < 2 ^ 31)
    (hfuel : rest.length < fuel) (hnodup : rest.Nodup) :
    permuteUniqueImpl fuel (front ++ rest) front.length permutations =
      permuteImpl fuel (front ++ rest) front.length permutations := by
  induction fuel generalizing front rest permutations with
  | zero => cases hfuel
  | succ fuel ih =>
    have hless {num : ℤ} {rest' : List ℤ} (hperm : (num :: rest').Perm rest) :
        ((front ++ [num]) ++ rest').length < 2 ^ 31 ∧ rest'.length < fuel :=
      bounds_of_perm hperm hlength hfuel
    have hloop := @uniqueLoop_eq front [] rest ((front ++ rest).length + 1) permutations
      (permuteUniqueImpl fuel) (permuteImpl fuel) ∅
      (fun num rest' hperm ↦ permuteUniqueImpl_spec (hless hperm).1 (hless hperm).2)
      (fun num rest' permutations hperm ↦ by
        have hrest := @ih (front ++ [num]) rest' permutations (hless hperm).1 (hless hperm).2
          (List.nodup_cons.mp (hperm.nodup_iff.mpr hnodup)).2
        rwa [List.append_assoc, List.singleton_append, List.length_append,
          List.length_singleton] at hrest)
      (fun num ↦ by simp) hnodup
    simp only [List.nil_append, List.length_nil, Nat.add_zero] at hloop
    rw [permuteUniqueImpl, permuteImpl, lastOf_eq hlength, sizeToInt_of_lt hlength, hloop]

/-! ### The results -/

/-- Every distinct arrangement is returned, each once, and the array is what it was. Where no
element occurs twice `permute` returns the same. -/
theorem permuteUnique_spec (hlength : nums.length < 2 ^ 31) :
    ∃ arrangements, permuteUnique nums = some (arrangements, nums) ∧ arrangements.Nodup ∧
      (∀ other : List ℤ, other ∈ arrangements ↔ other.Perm nums) ∧
      (nums.Nodup → permute nums = some (arrangements, nums)) := by
  obtain ⟨arrangements, hcall, henumerates⟩ :=
    @permuteUniqueImpl_spec [] nums (nums.length + 1) hlength (Nat.lt_succ_self _) []
  have hself : arrangements.map (([] : List ℤ) ++ ·) = arrangements := List.map_id' _
  rw [List.nil_append, List.length_nil, List.nil_append, hself] at hcall
  refine ⟨arrangements, ?_, henumerates.nodup, henumerates.mem_iff, fun hnodup ↦ ?_⟩
  · rw [permuteUnique, hcall]
    rfl
  · have heq := @permuteUniqueImpl_eq [] nums (nums.length + 1) [] hlength (Nat.lt_succ_self _)
      hnodup
    rw [List.nil_append, List.length_nil] at heq
    rw [permute, ← heq, hcall]
    rfl

/-- An array with two equal elements. -/
theorem permuteUnique_three :
    ∃ arrangements, permuteUnique [1, 2, 1] = some (arrangements, [1, 2, 1]) ∧
      arrangements.Nodup ∧ (∀ other : List ℤ, other ∈ arrangements ↔ other.Perm [1, 2, 1]) ∧
      (([1, 2, 1] : List ℤ).Nodup → permute [1, 2, 1] = some (arrangements, [1, 2, 1])) :=
  permuteUnique_spec (by decide)

/-! ### Too many elements -/

theorem permuteUnique_eq_none (hlength : nums.length = 2 ^ 31) : permuteUnique nums = none := by
  rw [permuteUnique, permuteUniqueImpl, lastOf, hlength, if_pos sizeToInt_two_pow]
  rfl

theorem permuteUnique_long :
    ∃ nums : List ℤ, nums.length = 2 ^ 31 ∧ permuteUnique nums = none := by
  have hexists (length : ℕ) : ∃ nums : List ℤ, nums.length = length :=
    ⟨List.replicate length 0, List.length_replicate⟩
  obtain ⟨nums, hlength⟩ := hexists (2 ^ 31)
  exact ⟨nums, hlength, permuteUnique_eq_none hlength⟩

end CppLearn.Leetcode.Permutations
