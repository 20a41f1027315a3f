import CppLearn.Foundation.HeapList
import CppLearn.Foundation.VectorAccess
import Mathlib.Algebra.BigOperators.Fin
import Mathlib.Data.Fintype.BigOperators
import Mathlib.Data.Nat.Factorial.BigOperators

/-!
# A random node of a list

`getRandom` goes over a list and takes the next node in place of the one it has where `rand()` is
divisible by the number of nodes so far. Each node is taken for the same number of sequences of
remainders. The nodes are counted in an `int`.
-/

set_option autoImplicit false
set_option relaxedAutoImplicit false

namespace CppLearn.Leetcode.RandomNode

open Foundation.HeapList Foundation.NodeHeap
open Foundation.VectorAccess (toInt toInt_of_lt toInt_of_le)

/-! ### The program -/

section Program

variable {β : Type} (read : Ptr → Option β) (rand : ℕ → ℕ) (heap : Heap (ListNode ℤ))

/-- `rand() % ++lens == 0 ? cur->val : res`, with what is read of the node left open. The results of
`rand()` are numbered by `lens`. -/
def choose (cur : Ptr) (res : β) (lens : ℕ) : Option β :=
  if rand lens % lens = 0 then read cur else some res

/-- The loop, with a limit on its rounds. -/
def sampleLoop : ℕ → Ptr → β → ℕ → Option β
  | 0, _, _, _ => none
  | fuel + 1, cur, res, lens =>
    if cur ≠ none then do
      let lens ← toInt (lens + 1)
      let res ← choose read rand cur res lens
      let cur ← nextOf heap cur
      sampleLoop fuel cur res lens
    else some res

def sample (mList : Ptr) : Option β := do
  let cur ← nextOf heap mList
  let res ← read mList
  sampleLoop read rand heap (heap.bound + 1) cur res 1

/-- `cur->val`. -/
def valOf (cur : Ptr) : Option ℤ := (heap.load cur).map ListNode.val

def getRandom (mList : Ptr) : Option ℤ := sample (valOf heap) rand heap mList

/-- The node whose value `getRandom` returns: the same run with the nodes in place of the values. -/
def getRandomNode (mList : Ptr) : Option ℕ := sample id rand heap mList

end Program

/-! ### The position -/

/-- The last position for which `rand()` is divisible, the first one if there is none. -/
def lastPick (rand : ℕ → ℕ) : ℕ → ℕ
  | 0 => 0
  | place + 1 => if rand (place + 2) % (place + 2) = 0 then place + 1 else lastPick rand place

theorem lastPick_le (rand : ℕ → ℕ) (place : ℕ) : lastPick rand place ≤ place := by
  induction place with
  | zero => exact le_rfl
  | succ place ih =>
    rw [lastPick]
    split
    · exact le_rfl
    · exact ih.trans (Nat.le_succ place)

variable {β : Type} {read : Ptr → Option β} {value : ℕ × ℤ → β} {rand : ℕ → ℕ}
    {heap : Heap (ListNode ℤ)} {mList : Ptr} {cells seen rest : Cells ℤ} {fuel lens : ℕ} {res : β}

/-- After as many nodes as have been seen the result is from the last position so far. -/
theorem sampleLoop_spec (h : Segment heap rest none)
    (hread : ∀ cell ∈ rest, read (some cell.1) = some (value cell))
    (hseen : ((seen[lastPick rand lens]?).map value) = some res) (hlens : seen.length = lens + 1)
    (hlength : (seen ++ rest).length < 2 ^ 31) (hfuel : rest.length < fuel) :
    sampleLoop read rand heap fuel (headOf rest none) res (lens + 1) =
      ((seen ++ rest)[lastPick rand ((seen ++ rest).length - 1)]?).map value := by
  induction rest generalizing seen fuel lens res with
  | nil =>
    obtain ⟨fuel, rfl⟩ := Nat.exists_eq_succ_of_ne_zero (Nat.ne_of_gt hfuel)
    rw [List.append_nil, hlens, Nat.add_sub_cancel, hseen]
    rfl
  | cons cell rest ih =>
    obtain ⟨fuel, rfl⟩ := Nat.exists_eq_succ_of_ne_zero (Nat.ne_of_gt (Nat.zero_lt_of_lt hfuel))
    rw [List.forall_mem_cons] at hread
    have happend : seen ++ cell :: rest = (seen ++ [cell]) ++ rest := by
      rw [List.append_assoc, List.singleton_append]
    have hsome : choose read rand (headOf (cell :: rest) none) res (lens + 1 + 1) =
        ((seen ++ [cell])[lastPick rand (lens + 1)]?).map value := by
      rw [choose, lastPick]
      split
      · rw [← hlens, List.getElem?_append_right le_rfl, Nat.sub_self]
        exact hread.1
      · rw [List.getElem?_append_left (by rw [hlens]; exact Nat.lt_succ_of_le (lastPick_le ..)),
          hseen]
    have hlt : lastPick rand (lens + 1) < (seen ++ [cell]).length := by
      rw [List.length_append, hlens]
      exact Nat.lt_succ_of_le (lastPick_le ..)
    rw [List.getElem?_eq_getElem hlt, Option.map_some] at hsome
    rw [happend] at hlength ⊢
    rw [sampleLoop, if_pos headOf_cons_ne_none, toInt_of_lt, Option.bind_eq_bind,
      Option.bind_some, hsome, Option.bind_eq_bind, Option.bind_some, h.nextOf,
      Option.bind_eq_bind, Option.bind_some]
    · refine ih h.2 hread.2 ?_ ?_ hlength (Nat.lt_of_succ_lt_succ hfuel)
      · rw [List.getElem?_eq_getElem hlt, Option.map_some]
      · rw [List.length_append, hlens, List.length_singleton]
    · rw [List.length_append, List.length_append, List.length_singleton] at hlength
      omega

/-- What is read of the node at the last position for which `rand()` is divisible. -/
theorem sample_eq (h : IsList heap mList cells) (hcells : cells ≠ [])
    (hread : ∀ cell ∈ cells, read (some cell.1) = some (value cell))
    (hlength : cells.length < 2 ^ 31) :
    sample read rand heap mList = (cells[lastPick rand (cells.length - 1)]?).map value := by
  obtain ⟨rfl, hsegment⟩ := h
  obtain ⟨⟨first, val⟩, rest, rfl⟩ := List.exists_cons_of_ne_nil hcells
  rw [List.forall_mem_cons] at hread
  have hle := hsegment.length_le hsegment.nodup
  rw [List.length_cons] at hle
  rw [sample, hsegment.nextOf, Option.bind_eq_bind, Option.bind_some, headOf_cons, hread.1,
    Option.bind_eq_bind, Option.bind_some]
  exact @sampleLoop_spec _ read value rand heap [(first, val)] rest _ 0 _ hsegment.2 hread.2 rfl rfl
    hlength (by omega)

/-! ### Counting the sequences -/

/-- A value below `i` for each `i` from 2 to `count + 1`. -/
abbrev Choices (count : ℕ) := (place : Fin count) → Fin (place + 2)

/-- The values as what `rand()` returns. -/
def results {count : ℕ} (choices : Choices count) (lens : ℕ) : ℕ :=
  if h : lens - 2 < count then choices ⟨lens - 2, h⟩ else 0

variable {count : ℕ}

theorem card_choices (count : ℕ) : Fintype.card (Choices count) = (count + 1).factorial := by
  rw [Fintype.card_pi]
  simp only [Fintype.card_fin]
  rw [Fin.prod_univ_eq_prod_range (fun place ↦ place + 2) count]
  induction count with
  | zero => rfl
  | succ count ih => rw [Finset.prod_range_succ, ih, Nat.factorial_succ (count + 1), mul_comm]

theorem lastPick_congr {rand rand' : ℕ → ℕ}
    (hsame : ∀ place < count, rand (place + 2) = rand' (place + 2)) :
    lastPick rand count = lastPick rand' count := by
  induction count with
  | zero => rfl
  | succ count ih =>
    rw [lastPick, lastPick, hsame count (Nat.lt_succ_self count),
      ih fun place hplace ↦ hsame place (hplace.trans (Nat.lt_succ_self count))]

/-- A value more, behind the others. -/
def extend (count : ℕ) : Fin (count + 2) × Choices count ≃ Choices (count + 1) :=
  Fin.snocEquiv fun place : Fin (count + 1) ↦ Fin (place + 2)

theorem results_extend_last (last : Fin (count + 2)) (choices : Choices count) :
    results (extend count (last, choices)) (count + 2) = last := by
  rw [results, dif_pos (show count + 2 - 2 < count + 1 by omega)]
  exact congrArg Fin.val (Fin.snoc_last (α := fun place : Fin (count + 1) ↦ Fin (place + 2)) ..)

theorem results_extend {place : ℕ} (hplace : place < count) (last : Fin (count + 2))
    (choices : Choices count) :
    results (extend count (last, choices)) (place + 2) = results choices (place + 2) := by
  rw [results, results, dif_pos (show place + 2 - 2 < count + 1 by omega),
    dif_pos (show place + 2 - 2 < count by omega)]
  exact congrArg Fin.val (Fin.snoc_castSucc (α := fun place : Fin (count + 1) ↦ Fin (place + 2))
    last choices ⟨place, hplace⟩)

/-- The position for one value more. -/
theorem lastPick_extend (last : Fin (count + 2)) (choices : Choices count) :
    lastPick (results (extend count (last, choices))) (count + 1) =
      if last = 0 then count + 1 else lastPick (results choices) count := by
  rw [lastPick, results_extend_last, Nat.mod_eq_of_lt last.isLt,
    lastPick_congr fun place hplace ↦ results_extend hplace last choices]
  exact if_congr Fin.val_eq_zero_iff rfl rfl

/-- Every position is that of the same number of sequences. -/
theorem card_lastPick {place : ℕ} (hplace : place ≤ count) :
    (Finset.univ.filter fun choices : Choices count ↦
      lastPick (results choices) count = place).card = count.factorial := by
  induction count with
  | zero =>
    obtain rfl := Nat.le_zero.mp hplace
    rfl
  | succ count ih =>
    have hcard : (Finset.univ.filter fun pair : Fin (count + 2) × Choices count ↦
        (if pair.1 = 0 then count + 1 else lastPick (results pair.2) count) = place).card =
        (Finset.univ.filter fun choices : Choices (count + 1) ↦
          lastPick (results choices) (count + 1) = place).card :=
      Finset.card_equiv (extend count) fun pair ↦ by simp [← lastPick_extend]
    rw [← hcard]
    rcases hplace.eq_or_lt with rfl | hlt
    · -- The last value is zero, and the others are any.
      have hlast : (Finset.univ.filter fun pair : Fin (count + 2) × Choices count ↦
          (if pair.1 = 0 then count + 1 else lastPick (results pair.2) count) = count + 1) =
          {0} ×ˢ Finset.univ := by
        ext ⟨last, choices⟩
        have hle := lastPick_le (results choices) count
        by_cases hzero : last = 0
        · simp [hzero]
        · simp only [Finset.mem_filter, Finset.mem_univ, true_and, hzero, if_false,
            Finset.mem_product, Finset.mem_singleton, false_and, iff_false]
          omega
      rw [hlast, Finset.card_product, Finset.card_singleton, Finset.card_univ, card_choices,
        one_mul]
    · -- The last value is another one, and the others have the position already.
      have hrest : (Finset.univ.filter fun pair : Fin (count + 2) × Choices count ↦
          (if pair.1 = 0 then count + 1 else lastPick (results pair.2) count) = place) =
          (Finset.univ.erase 0) ×ˢ Finset.univ.filter fun choices : Choices count ↦
            lastPick (results choices) count = place := by
        ext ⟨last, choices⟩
        by_cases hzero : last = 0
        · simp [hzero, hlt.ne']
        · simp [hzero]
      rw [hrest, Finset.card_product, Finset.card_erase_of_mem (Finset.mem_univ 0),
        Finset.card_univ, Fintype.card_fin, ih (Nat.le_of_lt_succ hlt), Nat.factorial_succ]
      rfl

/-! ### The nodes -/

theorem getRandom_eq (h : IsList heap mList cells) (hcells : cells ≠ [])
    (hlength : cells.length < 2 ^ 31) (rand : ℕ → ℕ) :
    getRandom rand heap mList = (cells[lastPick rand (cells.length - 1)]?).map Prod.snd := by
  refine sample_eq h hcells (fun cell hcell ↦ ?_) hlength
  obtain ⟨front, back, rfl⟩ := List.append_of_mem hcell
  have hnode := (segment_append.mp h.segment).2.1
  rw [valOf, Heap.load_some, hnode]
  rfl

theorem getRandomNode_eq (h : IsList heap mList cells) (hcells : cells ≠ [])
    (hlength : cells.length < 2 ^ 31) (rand : ℕ → ℕ) :
    getRandomNode rand heap mList = (cells[lastPick rand (cells.length - 1)]?).map Prod.fst :=
  sample_eq h hcells (fun _ _ ↦ rfl) hlength

/-- Of the sequences of values below `i` for each `i` from 2 to the number of nodes, each node has
as many for which `getRandom` returns its value as there are orders of the other nodes. -/
def Uniform (heap : Heap (ListNode ℤ)) (mList : Ptr) (cells : Cells ℤ) : Prop :=
  Fintype.card (Choices (cells.length - 1)) = cells.length.factorial ∧
  ∀ cell ∈ cells, (Finset.univ.filter fun choices : Choices (cells.length - 1) ↦
      getRandomNode (results choices) heap mList = some cell.1).card =
        (cells.length - 1).factorial ∧
    ∀ choices : Choices (cells.length - 1),
      getRandomNode (results choices) heap mList = some cell.1 →
        getRandom (results choices) heap mList = some cell.2

theorem uniform (h : IsList heap mList cells) (hcells : cells ≠ [])
    (hlength : cells.length < 2 ^ 31) : Uniform heap mList cells := by
  have hpositive := List.length_pos_iff.mpr hcells
  refine ⟨by rw [card_choices, Nat.sub_add_cancel hpositive], fun cell hcell ↦ ?_⟩
  obtain ⟨place, hplace, rfl⟩ := List.getElem_of_mem hcell
  have hiff (rand : ℕ → ℕ) : getRandomNode rand heap mList = some cells[place].1 ↔
      lastPick rand (cells.length - 1) = place := by
    have hlast : lastPick rand (cells.length - 1) < cells.length :=
      (lastPick_le ..).trans_lt (Nat.sub_lt hpositive Nat.one_pos)
    rw [getRandomNode_eq h hcells hlength, List.getElem?_eq_getElem hlast, Option.map_some,
      Option.some_inj]
    have hmap {i : ℕ} (hi : i < cells.length) : i < (addresses cells).length := by
      rwa [addresses, List.length_map]
    rw [← @List.Nodup.getElem_inj_iff _ _ h.nodup _ (hmap hlast) _ (hmap hplace)]
    simp only [addresses, List.getElem_map]
  constructor
  · simp only [hiff]
    exact card_lastPick (Nat.le_sub_one_of_lt hplace)
  · intro choices hnode
    rw [getRandom_eq h hcells hlength, (hiff _).mp hnode, List.getElem?_eq_getElem hplace]
    rfl

/-- A list of three nodes. -/
theorem uniform_three :
    let heap := ((Heap.empty.set 0 ⟨5, some 1⟩).set 1 ⟨6, some 2⟩).set 2 ⟨5, none⟩
    Uniform heap (some 0) [(0, 5), (1, 6), (2, 5)] := by
  intro heap
  have h : IsList heap (some 0) [(0, 5), (1, 6), (2, 5)] := ⟨rfl, rfl, rfl, rfl, trivial⟩
  exact uniform h (List.cons_ne_nil _ _) (by decide)

/-! ### Too many nodes -/

/-- More nodes than an `int` can count. -/
theorem sampleLoop_eq_none (h : Segment heap rest none) (hlens : lens < 2 ^ 31)
    (hlong : 2 ^ 31 ≤ lens + rest.length) :
    sampleLoop read rand heap fuel (headOf rest none) res lens = none := by
  induction rest generalizing fuel lens res with
  | nil => exact absurd hlens (Nat.not_lt.mpr hlong)
  | cons cell rest ih =>
    cases fuel with
    | zero => rfl
    | succ fuel =>
      rw [List.length_cons] at hlong
      rw [sampleLoop, if_pos headOf_cons_ne_none]
      by_cases hnext : lens + 1 < 2 ^ 31
      · rw [toInt_of_lt hnext, Option.bind_eq_bind, Option.bind_some, h.nextOf]
        cases hchoose : choose read rand (headOf (cell :: rest) none) res (lens + 1) with
        | none => rfl
        | some res => exact ih h.2 hnext (by omega)
      · rw [toInt_of_le (Nat.not_lt.mp hnext)]
        rfl

/-- Of two to the power of 31 nodes none is returned. -/
theorem not_uniform_long :
    ∃ (heap : Heap (ListNode ℤ)) (mList : Ptr) (cells : Cells ℤ), IsList heap mList cells ∧
      cells.length = 2 ^ 31 ∧ ¬ Uniform heap mList cells := by
  obtain ⟨heap, cells, h, hlength⟩ := exists_isList (0 : ℤ) (2 ^ 31)
  refine ⟨heap, _, cells, h, hlength, fun huniform ↦ ?_⟩
  match cells, h, hlength with
  | (first, val) :: rest, h, hlength =>
    have hcount := (huniform.2 _ List.mem_cons_self).1
    have hnone (rand : ℕ → ℕ) :
        getRandomNode rand heap (headOf ((first, val) :: rest) none) = none := by
      rw [List.length_cons] at hlength
      rw [getRandomNode, sample, h.segment.nextOf, Option.bind_eq_bind, Option.bind_some]
      exact sampleLoop_eq_none h.segment.2 (by decide) (by rw [Nat.add_comm, hlength])
    simp only [hnone, reduceCtorEq, Finset.filter_false, Finset.card_empty] at hcount
    exact Nat.factorial_ne_zero _ hcount.symm

end CppLearn.Leetcode.RandomNode
