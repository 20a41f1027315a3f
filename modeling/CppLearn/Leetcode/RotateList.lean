import CppLearn.Foundation.HeapList
import CppLearn.Foundation.VectorAccess
import Mathlib.Data.List.Rotate

/-!
# Rotating a list

`rotateRight` closes a list to a cycle and opens it again behind another node. It counts the nodes
in an `int`, so that the list must have less than two to the power of 31 of them.
-/

set_option autoImplicit false
set_option relaxedAutoImplicit false

namespace CppLearn.Leetcode.RotateList

open Foundation.HeapList Foundation.NodeHeap
open Foundation.VectorAccess (toInt toInt_of_lt toInt_of_le)

/-! ### The program -/

/-- The first loop, with a limit on its rounds: the last node, and the number of nodes. -/
def countLoop (heap : Heap (ListNode ℤ)) : ℕ → Ptr → ℕ → Option (Ptr × ℕ)
  | 0, _, _ => none
  | fuel + 1, cur, lens => do
    let next ← nextOf heap cur
    if next ≠ none then do
      let lens ← toInt (lens + 1)
      countLoop heap fuel next lens
    else return (cur, lens)

def rotateRight (heap : Heap (ListNode ℤ))
    (head : Ptr) (k : ℤ) : Option (Ptr × Heap (ListNode ℤ)) :=
  if head = none then some (head, heap)
  else do
    let (cur, lens) ← countLoop heap (heap.bound + 1) head 1
    let heap ← setNext heap cur head
    let stop ← toInt (lens - k.tmod lens).toNat
    let cur ← forward heap (stop - 1) head
    let head ← nextOf heap cur
    let heap ← setNext heap cur none
    return (head, heap)

/-! ### The number of nodes -/

variable {heap : Heap (ListNode ℤ)}
    {head : Ptr} {cells front back rest : Cells ℤ} {address lens : ℕ} {val : ℤ}

theorem countLoop_spec {fuel : ℕ} (h : Segment heap ((address, val) :: rest) none)
    (hlens : lens + rest.length < 2 ^ 31) (hfuel : rest.length < fuel) :
    countLoop heap fuel (some address) lens =
      some (some (lastOf address rest), lens + rest.length) := by
  induction rest generalizing fuel address val lens with
  | nil =>
    obtain ⟨fuel, rfl⟩ := Nat.exists_eq_succ_of_ne_zero (Nat.ne_of_gt hfuel)
    rw [countLoop, nextOf_some h.1]
    rfl
  | cons cell rest ih =>
    obtain ⟨fuel, rfl⟩ := Nat.exists_eq_succ_of_ne_zero (Nat.ne_of_gt (Nat.zero_lt_of_lt hfuel))
    obtain ⟨other, elem⟩ := cell
    rw [List.length_cons] at hlens
    have hloop := @ih other (lens + 1) elem fuel h.2 (by omega) (Nat.lt_of_succ_lt_succ hfuel)
    rw [countLoop, nextOf_some h.1, Option.bind_eq_bind, Option.bind_some, headOf_cons,
      if_pos (Option.some_ne_none other), toInt_of_lt (by omega), Option.bind_eq_bind,
      Option.bind_some, hloop, lastOf_cons, List.length_cons, Nat.add_assoc, Nat.add_comm 1]

/-- More nodes than an `int` can count. -/
theorem countLoop_eq_none {fuel : ℕ} (h : Segment heap ((address, val) :: rest) none)
    (hlens : lens < 2 ^ 31) (hlong : 2 ^ 31 ≤ lens + rest.length) :
    countLoop heap fuel (some address) lens = none := by
  induction rest generalizing fuel address val lens with
  | nil => exact absurd hlens (Nat.not_lt.mpr hlong)
  | cons cell rest ih =>
    cases fuel with
    | zero => rfl
    | succ fuel =>
      obtain ⟨other, elem⟩ := cell
      rw [List.length_cons] at hlong
      rw [countLoop, nextOf_some h.1, Option.bind_eq_bind, Option.bind_some, headOf_cons,
        if_pos (Option.some_ne_none other)]
      by_cases hnext : lens + 1 < 2 ^ 31
      · rw [toInt_of_lt hnext, Option.bind_eq_bind, Option.bind_some]
        exact ih h.2 hnext (by omega)
      · rw [toInt_of_le (Nat.not_lt.mp hnext)]
        rfl

/-! ### Opening the cycle -/

/-- The cycle is opened behind a node: what follows it comes first. -/
theorem open_spec
    (h : Segment heap (front ++ (address, val) :: back)
      (headOf (front ++ (address, val) :: back) none))
    (hnodup : (addresses (front ++ (address, val) :: back)).Nodup) :
    ∃ heap', forward heap front.length (headOf (front ++ (address, val) :: back) none) =
      some (some address) ∧
      nextOf heap (some address) = some (headOf (back ++ (front ++ [(address, val)])) none) ∧
      setNext heap (some address) none = some heap' ∧
      IsList heap' (headOf (back ++ (front ++ [(address, val)])) none)
      (back ++ (front ++ [(address, val)])) ∧ SameOff {address} heap heap' := by
  have hhead : headOf (front ++ (address, val) :: back) none =
      headOf (front ++ [(address, val)]) none := by
    rw [headOf_append, headOf_append]
    rfl
  rw [addresses_append, addresses_cons, List.nodup_middle, List.nodup_cons, List.mem_append,
    not_or] at hnodup
  obtain ⟨⟨hnotFront, hnotBack⟩, -⟩ := hnodup
  obtain ⟨hfront, hnode, hback⟩ := segment_append.mp h
  have hforward := h.forward
  rw [headOf_of_ne_nil (List.append_ne_nil_of_right_ne_nil _ (List.cons_ne_nil _ _)) _
    none] at hforward
  have hnext : headOf (back ++ (front ++ [(address, val)])) none =
      headOf back (headOf (front ++ (address, val) :: back) none) := by
    rw [headOf_append, hhead]
  refine ⟨_, hforward, ?_, setNext_some hnode none, ⟨rfl, ?_⟩, sameOff_set heap _ _⟩
  · rw [hnext]
    exact nextOf_some hnode
  · refine segment_append.mpr ⟨?_, ?_⟩
    · rw [← hhead]
      exact hback.set hnotBack
    · have hwhole : Segment heap (front ++ [(address, val)])
          (headOf back (headOf (front ++ (address, val) :: back) none)) :=
        segment_append.mpr ⟨hfront, hnode, trivial⟩
      exact hwhole.redirect hnotFront none

/-! ### The rotation -/

/-- The node at every position has moved on by as many positions. -/
def Rotated {α : Type*} (k : ℕ) (elems rotated : List α) : Prop :=
  ∀ i < elems.length, rotated[(i + k) % elems.length]? = elems[i]?

theorem rotated_rotate {α : Type*} {elems : List α} (helems : elems ≠ []) (k : ℕ) :
    Rotated k elems (elems.rotate (elems.length - k % elems.length)) := by
  intro i hi
  have hpositive := List.length_pos_iff.mpr helems
  have hlt := Nat.mod_lt k hpositive
  rw [List.getElem?_rotate (Nat.mod_lt _ hpositive), Nat.mod_add_mod]
  have hsum : i + k + (elems.length - k % elems.length) =
      i + elems.length * (k / elems.length + 1) := by
    have hdiv := Nat.div_add_mod k elems.length
    rw [Nat.mul_add, Nat.mul_one]
    omega
  rw [hsum, Nat.add_mul_mod_self_left, Nat.mod_eq_of_lt hi]

/-- `rotateRight` returns the list with its nodes moved on. -/
def Rotates (heap : Heap (ListNode ℤ)) (head : Ptr) (cells : Cells ℤ) (k : ℕ) : Prop :=
  ∃ head' heap' rotated, rotateRight heap head k = some (head', heap') ∧
    Relinked heap cells heap' head' rotated ∧ Rotated k cells rotated

theorem rotate_append (front back : Cells ℤ) (cell : ℕ × ℤ) :
    (front ++ cell :: back).rotate (front.length + 1) = back ++ (front ++ [cell]) := by
  have hle : front.length + 1 ≤ (front ++ cell :: back).length := by
    rw [List.length_append, List.length_cons]
    omega
  rw [List.rotate_eq_drop_append_take hle, List.drop_length_add_append, List.take_length_add_append]
  rfl

/-- It does so with every list whose nodes an `int` can count. -/
theorem rotates (h : IsList heap head cells) (hcells : cells ≠ [])
    (hlength : cells.length < 2 ^ 31) (k : ℕ) : Rotates heap head cells k := by
  obtain ⟨rfl, hsegment⟩ := h
  have hpositive := List.length_pos_iff.mpr hcells
  have hlt := Nat.mod_lt k hpositive
  obtain ⟨front, ⟨address, val⟩, back, hsplit, hfront⟩ := @exists_eq_append_cons _ cells
    (cells.length - k % cells.length - 1) (by omega)
  have hstop : cells.length - k % cells.length = front.length + 1 := by
    omega
  have hrotated := rotated_rotate hcells k
  rw [hstop, hsplit, rotate_append, ← hsplit] at hrotated
  obtain ⟨⟨first, firstVal⟩, rest, rfl⟩ := List.exists_cons_of_ne_nil hcells
  have hlens : 1 + rest.length = (((first, firstVal) :: rest).length) := Nat.add_comm 1 _
  have hcount :=
    @countLoop_spec heap rest first 1 firstVal (heap.bound + 1) hsegment (hlens ▸ hlength)
    (Nat.lt_succ_of_le ((Nat.le_succ _).trans (hsegment.length_le hsegment.nodup)))
  obtain ⟨heap1, hclose, -, hclosed, hsame⟩ := hsegment.setLast hsegment.nodup (some first)
  have hnodup := hsegment.nodup
  have hhead : some first = headOf (front ++ (address, val) :: back) none := by
    rw [← hsplit]
    rfl
  rw [hhead, hsplit] at hclosed
  rw [hsplit] at hnodup
  obtain ⟨heap2, hforward, hnext, hopen, hlist, hsame'⟩ := open_spec hclosed hnodup
  rw [← hhead] at hforward
  have hto : toInt (((1 + rest.length : ℕ) : ℤ) - (k : ℤ).tmod (1 + rest.length : ℕ)).toNat =
      some (front.length + 1) := by
    rw [← Int.ofNat_tmod, Int.toNat_sub, hlens, hstop]
    exact toInt_of_lt (by omega)
  have hperm : (back ++ (front ++ [(address, val)])).Perm ((first, firstVal) :: rest) := by
    rw [hsplit, ← rotate_append]
    exact List.rotate_perm _ _
  refine ⟨_, heap2, _, ?_, ⟨hlist, hperm, ?_⟩, hrotated⟩
  · rw [rotateRight, headOf_cons, if_neg (Option.some_ne_none first), hcount]
    simp only [Option.bind_eq_bind, Option.bind_some, hclose, hto, Nat.add_sub_cancel,
      hforward, hnext, hopen]
    rfl
  · refine (hsame.mono (Set.singleton_subset_iff.mpr lastOf_mem)).trans
      (hsame'.mono (Set.singleton_subset_iff.mpr ?_))
    change address ∈ addresses ((first, firstVal) :: rest)
    rw [hsplit, addresses_append]
    exact List.mem_append_right _ List.mem_cons_self

/-- A list of two nodes, by three places. -/
theorem rotates_two :
    let heap := (Heap.empty.set 0 ⟨5, some 1⟩).set 1 ⟨6, none⟩
    Rotates heap (some 0) [(0, 5), (1, 6)] 3 := by
  intro heap
  have h : IsList heap (some 0) [(0, 5), (1, 6)] := ⟨rfl, rfl, rfl, trivial⟩
  exact rotates h (List.cons_ne_nil _ _) (by decide) 3

/-! ### Too many nodes -/

/-- A list with two to the power of 31 nodes is not rotated. -/
theorem not_rotates_long :
    ∃ (heap : Heap (ListNode ℤ)) (head : Ptr) (cells : Cells ℤ), IsList heap head cells ∧
      cells.length = 2 ^ 31 ∧ ¬ Rotates heap head cells 0 := by
  obtain ⟨heap, cells, h, hlength⟩ := exists_isList (0 : ℤ) (2 ^ 31)
  refine ⟨heap, _, cells, h, hlength, ?_⟩
  rintro ⟨head', heap', rotated, hrun, -⟩
  match cells, h, hlength with
  | (address, val) :: rest, h, hlength =>
    rw [List.length_cons] at hlength
    have hnone := @countLoop_eq_none heap rest address 1 val (heap.bound + 1) h.segment (by decide)
      (by rw [Nat.add_comm, hlength])
    rw [rotateRight, headOf_cons, if_neg (Option.some_ne_none address), hnone] at hrun
    cases hrun

end CppLearn.Leetcode.RotateList
