import CppLearn.Foundation.VectorAccess
import Mathlib.Order.Defs.LinearOrder

/-!
# Partition of a range

The sort and both selections split a range around a pivot that they have put at its begin. The loop
moves the elements below the pivot to the front, one after the other, and the pivot goes behind them.
-/

set_option autoImplicit false
set_option relaxedAutoImplicit false

namespace CppLearn.Algorithm.Partition

open Foundation.VectorAccess

universe u

variable {α : Type u} [LinearOrder α]

/-! ### The program -/

/-- The loop that `partition`, `randomized_partition` and `median_partition` share, with a limit on its
rounds. The range has its last element at `last`. -/
def partitionLoop (last : ℕ) (pivot : α) : ℕ → List α → ℕ → ℕ → Except Fault (ℕ × List α)
  | 0, _, _, _ => .error .outOfFuel
  | fuel + 1, nums, pos, cur =>
    if cur ≤ last then do
      let num ← load nums cur
      if num < pivot then
        let pos := wrap (pos + 1)
        let nums ← swap nums pos cur
        partitionLoop last pivot fuel nums pos (wrap (cur + 1))
      else partitionLoop last pivot fuel nums pos (wrap (cur + 1))
    else .ok (pos, nums)

/-- What the three functions do with the pivot, which is at `begin`. -/
def partitionAround (nums : List α) (begin last : ℕ) (pivot : α) : Except Fault (ℕ × List α) := do
  let (pos, nums) ← partitionLoop last pivot (nums.length + 1) nums begin begin
  let nums ← swap nums pos begin
  return (pos, nums)

/-! ### What it does -/

/-- A range has been split around a pivot. -/
structure Splits (range lows : List α) (pivot : α) (highs : List α) : Prop where
  perm : (lows ++ pivot :: highs).Perm range
  lows_lt : ∀ num ∈ lows, num < pivot
  le_highs : ∀ num ∈ highs, pivot ≤ num

theorem Splits.length_eq {range lows highs : List α} {pivot : α}
    (h : Splits range lows pivot highs) : lows.length + highs.length + 1 = range.length := by
  rw [← h.perm.length_eq, List.length_append, List.length_cons, Nat.add_assoc]

variable {before after : List α} {pivot : α}

omit [LinearOrder α] in
/-- An element is moved to the front of those behind which it stands. -/
theorem swap_front (front highs : List α) (num : α) (after : List α) :
    ∃ highs', swap (front ++ highs ++ num :: after) front.length (front ++ highs).length =
        .ok (front ++ num :: highs' ++ after) ∧ highs'.Perm highs := by
  cases highs with
  | nil =>
    refine ⟨[], ?_, .nil⟩
    rw [List.append_nil, swap_self]
    simp only [List.append_assoc, List.cons_append, List.nil_append]
  | cons high highs =>
    refine ⟨highs ++ [high], ?_, List.perm_append_singleton high highs⟩
    rw [swap_append]
    simp only [List.append_assoc, List.cons_append, List.nil_append]

/-- The loop, in the middle of its work: `lows` are behind the pivot, then `highs`, then what it has
still to go through. -/
theorem partitionLoop_spec {nums lows highs rest : List α} {pos cur last : ℕ} (fuel : ℕ)
    (hnums : nums = before ++ pivot :: lows ++ highs ++ rest ++ after)
    (hlength : nums.length < 2 ^ 63) (hpos : pos = before.length + lows.length)
    (hcur : cur = pos + 1 + highs.length) (hlast : last + 1 = cur + rest.length)
    (hlows : ∀ num ∈ lows, num < pivot) (hhighs : ∀ num ∈ highs, pivot ≤ num) :
    ∃ lows' highs', partitionLoop last pivot (fuel + rest.length + 1) nums pos cur =
        .ok (before.length + lows'.length, before ++ pivot :: lows' ++ highs' ++ after) ∧
      (lows' ++ highs').Perm (lows ++ highs ++ rest) ∧ (∀ num ∈ lows', num < pivot) ∧
        ∀ num ∈ highs', pivot ≤ num := by
  induction rest generalizing nums lows highs pos cur with
  | nil =>
    refine ⟨lows, highs, ?_, by rw [List.append_nil], hlows, hhighs⟩
    rw [List.length_nil] at hlast
    rw [partitionLoop, if_neg (by omega), hpos, hnums, List.append_nil]
  | cons num rest ih =>
    rw [List.length_cons] at hlast
    have hfront : (before ++ pivot :: lows).length = pos + 1 := by
      rw [List.length_append, List.length_cons, hpos, Nat.add_assoc]
    have hdone : (before ++ pivot :: lows ++ highs).length = cur := by
      rw [List.length_append, hfront, hcur]
    have hsplit : nums = before ++ pivot :: lows ++ highs ++ num :: (rest ++ after) := by
      rw [hnums, List.append_assoc _ (num :: rest), List.cons_append]
    have hcurLt : cur < nums.length := by
      rw [hsplit, List.length_append, hdone, List.length_cons]
      omega
    have hload : load nums cur = .ok num := by
      rw [hsplit, ← hdone]
      exact load_append ..
    rw [List.length_cons, partitionLoop, if_pos (by omega), hload, ok_bind,
      wrap_of_lt (by omega : cur + 1 < 2 ^ 64), wrap_of_lt (by omega : pos + 1 < 2 ^ 64)]
    by_cases hlow : num < pivot
    · -- The element goes behind the others below the pivot, where it leaves `highs` in another order.
      obtain ⟨highs', hswap, hperm⟩ := swap_front (before ++ pivot :: lows) highs num (rest ++ after)
      rw [← hsplit, hfront, hdone] at hswap
      obtain ⟨lows'', highs'', hloop, hperm', hsplits⟩ :=
        @ih (before ++ pivot :: lows ++ num :: highs' ++ (rest ++ after)) (lows ++ [num]) highs'
          (pos + 1) (cur + 1) (by simp only [List.append_assoc, List.cons_append, List.nil_append])
          (by
            rw [hsplit] at hlength
            simp only [List.length_append, List.length_cons, hperm.length_eq] at hlength ⊢
            omega)
          (by rw [List.length_append, List.length_singleton, hpos, Nat.add_assoc])
          (by rw [hperm.length_eq, hcur, Nat.add_right_comm]) (by omega)
          (List.forall_mem_append.mpr ⟨hlows, List.forall_mem_singleton.mpr hlow⟩)
          fun other hother ↦ hhighs other (hperm.mem_iff.mp hother)
      refine ⟨lows'', highs'', ?_, hperm'.trans ?_, hsplits⟩
      · simp only [if_pos hlow, hswap, ok_bind]
        exact hloop
      · rw [List.append_assoc, List.append_assoc, List.append_assoc, List.singleton_append]
        exact (((hperm.append_right rest).cons num).trans List.perm_middle.symm).append_left lows
    · obtain ⟨lows', highs', hloop, hperm, hsplits⟩ := @ih nums lows (highs ++ [num]) pos (cur + 1)
        (by rw [hsplit]; simp only [List.append_assoc, List.cons_append, List.nil_append]) hlength hpos
        (by rw [List.length_append, List.length_singleton, hcur, Nat.add_assoc]) (by omega) hlows
        (List.forall_mem_append.mpr ⟨hhighs, List.forall_mem_singleton.mpr (not_lt.mp hlow)⟩)
      refine ⟨lows', highs', ?_, ?_, hsplits⟩
      · rw [if_neg hlow]
        exact hloop
      · rwa [← List.append_assoc, List.append_assoc _ [num]] at hperm

omit [LinearOrder α] in
/-- The pivot is put behind the elements below it. -/
theorem swap_back (before lows : List α) (pivot : α) (after : List α) :
    ∃ lows', swap (before ++ pivot :: lows ++ after) (before.length + lows.length) before.length =
        .ok (before ++ lows' ++ pivot :: after) ∧ lows'.Perm lows := by
  rcases List.eq_nil_or_concat lows with rfl | ⟨init, low, rfl⟩
  · refine ⟨[], ?_, .nil⟩
    rw [List.append_assoc, List.append_nil]
    exact swap_self ..
  · rw [List.concat_eq_append]
    refine ⟨low :: init, ?_, (List.perm_append_singleton low init).symm⟩
    have hswap := swap_append' before pivot init low after
    have hpos : (before ++ pivot :: init).length = before.length + (init ++ [low]).length := by
      rw [List.length_append, List.length_cons, List.length_append, List.length_singleton]
    rw [hpos] at hswap
    rw [← hswap]
    simp only [List.append_assoc, List.cons_append, List.nil_append]

omit [LinearOrder α] in
/-- An element of a range is brought to its begin. -/
theorem swap_begin (before after : List α) {range : List α} {indx : ℕ} (hlt : indx < range.length) :
    ∃ rest, swap (before ++ range ++ after) (before.length + indx) before.length =
        .ok (before ++ range[indx] :: rest ++ after) ∧ (range[indx] :: rest).Perm range := by
  obtain ⟨front, back, hrange, hfront⟩ :
      ∃ front back, range = front ++ range[indx] :: back ∧ front.length = indx := by
    refine ⟨range.take indx, range.drop (indx + 1), ?_, ?_⟩
    · rw [← List.drop_eq_getElem_cons hlt, List.take_append_drop]
    · exact List.length_take_of_le hlt.le
  generalize range[indx] = pivot at hrange
  subst hrange hfront
  cases front with
  | nil =>
    refine ⟨back, ?_, .refl _⟩
    rw [List.nil_append, List.append_assoc]
    exact swap_self ..
  | cons num front =>
    refine ⟨front ++ num :: back, ?_, ?_⟩
    · have hswap := swap_append' before num front pivot (back ++ after)
      rw [List.length_append] at hswap
      simp only [List.append_assoc, List.cons_append] at hswap ⊢
      exact hswap
    · exact (List.Perm.cons pivot List.perm_middle).trans
        ((List.Perm.swap num pivot _).trans (List.perm_middle.symm.cons num))

/-- With one of its elements at its begin, a range is split around it, and all else is left. -/
theorem partitionAround_spec {range rest : List α} {begin last : ℕ}
    (hrange : (pivot :: rest).Perm range) (hlength : (before ++ range ++ after).length < 2 ^ 63)
    (hbegin : begin = before.length) (hlast : last + 1 = begin + range.length) :
    ∃ lows highs, partitionAround (before ++ pivot :: rest ++ after) begin last pivot =
        .ok (begin + lows.length, before ++ lows ++ pivot :: highs ++ after) ∧
      Splits range lows pivot highs := by
  set nums := before ++ pivot :: rest ++ after with hnums
  have hrest : rest.length + 1 = range.length := hrange.length_eq
  have hcount : nums.length = begin + after.length + rest.length + 1 := by
    rw [hnums, hbegin, List.length_append, List.length_append, List.length_cons]
    omega
  have hlength' : nums.length < 2 ^ 63 := by
    rw [List.length_append, List.length_append] at hlength
    omega
  have hload : load nums begin = .ok pivot := by
    rw [hnums, hbegin, List.append_assoc]
    exact load_append ..
  obtain ⟨lows, highs, hloop, hperm, hlows, hhighs⟩ :=
    @partitionLoop_spec _ _ before after pivot nums [] [] rest begin (begin + 1) last
      (begin + after.length)
      (by rw [hnums]; simp only [List.append_nil, List.append_assoc, List.cons_append, List.nil_append])
      hlength' hbegin rfl (by omega) (fun _ hnum ↦ (List.not_mem_nil hnum).elim)
      fun _ hnum ↦ (List.not_mem_nil hnum).elim
  rw [← hcount, ← hbegin] at hloop
  obtain ⟨lows', hswap, hlows'⟩ := swap_back before lows pivot (highs ++ after)
  rw [← hbegin, ← List.append_assoc] at hswap
  refine ⟨lows', highs, ?_, ?_, fun num hnum ↦ hlows num (hlows'.mem_iff.mp hnum), hhighs⟩
  · -- The first round finds the pivot itself.
    rw [partitionAround, partitionLoop, if_pos (by omega), hload]
    simp only [ok_bind, lt_irrefl, if_false]
    rw [wrap_of_lt (by omega), hloop]
    simp only [ok_bind]
    rw [hswap, hlows'.length_eq]
    simp only [ok_bind, List.append_assoc, List.cons_append]
    rfl
  · rw [List.nil_append, List.nil_append] at hperm
    exact (List.perm_middle.trans (((hlows'.append_right highs).trans hperm).cons pivot)).trans hrange

end CppLearn.Algorithm.Partition
