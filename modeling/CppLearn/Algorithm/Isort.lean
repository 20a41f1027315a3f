import CppLearn.Foundation.VectorAccess
import Mathlib.Data.List.Induction
import Mathlib.Order.Defs.LinearOrder

/-!
# Insertion sort

`isort` moves the elements greater than the one to be inserted up by one, from the last of them down
to the begin of the range. The index that it counts down is unsigned. Where the range begins with
the vector it is never below the begin, so that the loop ends only at an element that is not
greater: with an element less than the first one it wraps and reads outside (`isort_fault`).
Elsewhere it accesses the range only (`isortWithin_spec`), and so it does where the vector begins
with an element that is not greater than any of the range (`sortsRange_iff`).
-/

set_option autoImplicit false
set_option relaxedAutoImplicit false

namespace CppLearn.Algorithm.Isort

open Foundation.VectorAccess

universe u

variable {α : Type u} [LinearOrder α]

/-! ### The program -/

/-- The inner loop of `isort`, with the index that it ends at and a limit on its rounds. -/
def shiftLoop (begin : ℕ) (val : α) : ℕ → List α → ℕ → Except Fault (ℕ × List α)
  | 0, _, _ => .error .outOfFuel
  | fuel + 1, nums, j =>
    if begin ≤ j then do
      let num ← load nums j
      if val < num then do
        let nums ← store nums (wrap (j + 1)) num
        shiftLoop begin val fuel nums (wrapSub j 1)
      else .ok (j, nums)
    else .ok (j, nums)

/-- The outer loop of `isort`. -/
def isortLoop (begin last : ℕ) : ℕ → List α → ℕ → Except Fault (List α)
  | 0, _, _ => .error .outOfFuel
  | fuel + 1, nums, i =>
    if i ≤ last then do
      let val ← load nums i
      let (j, nums) ← shiftLoop begin val (nums.length + 1) nums (wrapSub i 1)
      let nums ← store nums (wrap (j + 1)) val
      isortLoop begin last fuel nums (wrap (i + 1))
    else .ok nums

def isort (nums : List α) (begin last : ℕ) : Except Fault (List α) :=
  isortLoop begin last (nums.length + 1) nums (wrap (begin + 1))

/-! ### The program with accesses to the range only -/

/-- `shiftLoop`, where an access outside the range is a fault. -/
def shiftLoopWithin (begin last : ℕ) (val : α) : ℕ → List α → ℕ → Except Fault (ℕ × List α)
  | 0, _, _ => .error .outOfFuel
  | fuel + 1, nums, j =>
    if begin ≤ j then do
      let num ← loadWithin begin last nums j
      if val < num then do
        let nums ← storeWithin begin last nums (wrap (j + 1)) num
        shiftLoopWithin begin last val fuel nums (wrapSub j 1)
      else .ok (j, nums)
    else .ok (j, nums)

def isortLoopWithin (begin last : ℕ) : ℕ → List α → ℕ → Except Fault (List α)
  | 0, _, _ => .error .outOfFuel
  | fuel + 1, nums, i =>
    if i ≤ last then do
      let val ← loadWithin begin last nums i
      let (j, nums) ← shiftLoopWithin begin last val (nums.length + 1) nums (wrapSub i 1)
      let nums ← storeWithin begin last nums (wrap (j + 1)) val
      isortLoopWithin begin last fuel nums (wrap (i + 1))
    else .ok nums

def isortWithin (nums : List α) (begin last : ℕ) : Except Fault (List α) :=
  isortLoopWithin begin last (nums.length + 1) nums (wrap (begin + 1))

section Within

variable {nums : List α} {begin last fuel : ℕ}

/-- What is returned with accesses to the range only is what the program returns. -/
theorem shiftLoop_of_within {val : α} {j : ℕ} {result : ℕ × List α}
    (hloop : shiftLoopWithin begin last val fuel nums j = .ok result) :
    shiftLoop begin val fuel nums j = .ok result := by
  induction fuel generalizing nums j with
  | zero => cases hloop
  | succ fuel ih =>
    rw [shiftLoopWithin] at hloop
    rw [shiftLoop]
    split at hloop
    next hle =>
      obtain ⟨num, hload, hloop⟩ := bind_eq_ok_iff.mp hloop
      rw [if_pos hle, load_of_within hload, ok_bind]
      split at hloop
      next hlt =>
        obtain ⟨shifted, hstore, hloop⟩ := bind_eq_ok_iff.mp hloop
        rw [if_pos hlt, store_of_within hstore, ok_bind]
        exact ih hloop
      next hlt => rwa [if_neg hlt]
    next hle => rwa [if_neg hle]

theorem isortLoop_of_within {i : ℕ} {result : List α}
    (hloop : isortLoopWithin begin last fuel nums i = .ok result) :
    isortLoop begin last fuel nums i = .ok result := by
  induction fuel generalizing nums i with
  | zero => cases hloop
  | succ fuel ih =>
    rw [isortLoopWithin] at hloop
    rw [isortLoop]
    split at hloop
    next hle =>
      obtain ⟨val, hload, hloop⟩ := bind_eq_ok_iff.mp hloop
      obtain ⟨⟨j, shifted⟩, hshift, hloop⟩ := bind_eq_ok_iff.mp hloop
      obtain ⟨inserted, hstore, hloop⟩ := bind_eq_ok_iff.mp hloop
      rw [if_pos hle, load_of_within hload, ok_bind, shiftLoop_of_within hshift, ok_bind]
      dsimp only
      rw [store_of_within hstore, ok_bind]
      exact ih hloop
    next hle => rwa [if_neg hle]

theorem isort_of_within {result : List α} (hrun : isortWithin nums begin last = .ok result) :
    isort nums begin last = .ok result := isortLoop_of_within hrun

end Within

/-! ### One element -/

variable {before sorted after nums : List α} {val : α} {begin : ℕ}

/-- An element that stops the loop is still there when a greater one has been shifted. -/
theorem exists_le_of_append {init : List α} {num : α} (hless : val < num)
    (hstop : ∃ other ∈ init ++ [num], other ≤ val) : ∃ other ∈ init, other ≤ val := by
  obtain ⟨other, hother, hle⟩ := hstop
  rcases List.mem_append.mp hother with hother | hother
  · exact ⟨other, hother, hle⟩
  · rw [List.mem_singleton.mp hother] at hle
    exact absurd hless (not_lt.mpr hle)

/-- Where the last one is not greater, none is. -/
theorem forall_le_of_append {init : List α} {num : α}
    (hsorted : (init ++ [num]).Pairwise (· ≤ ·)) (hle : num ≤ val) :
    ∀ other ∈ init ++ [num], other ≤ val := by
  intro other hother
  rcases List.mem_append.mp hother with hother | hother
  · exact ((List.pairwise_append.mp hsorted).2.2 other hother num
      (List.mem_singleton_self num)).trans hle
  · rw [List.mem_singleton.mp hother]
    exact hle


/-- What is greater than the element is moved up, past the place that it has left. -/
theorem shiftLoopWithin_spec {hole : α} {last : ℕ} (fuel : ℕ)
    (hlength : (before ++ sorted ++ hole :: after).length < 2 ^ 63) (hbegin : begin = before.length)
    (hlast : begin + sorted.length ≤ last) (hstop : begin ≠ 0 ∨ ∃ num ∈ sorted, num ≤ val)
    (hsorted : sorted.Pairwise (· ≤ ·)) :
    ∃ lower upper hole', sorted = lower ++ upper ∧ (∀ num ∈ lower, num ≤ val) ∧
      (∀ num ∈ upper, val < num) ∧
      ∃ j, wrap (j + 1) = begin + lower.length ∧
        shiftLoopWithin begin last val (fuel + sorted.length + 1)
          (before ++ sorted ++ hole :: after) (wrapSub (begin + sorted.length) 1) =
            .ok (j, before ++ lower ++ hole' :: upper ++ after) := by
  induction sorted using List.reverseRecOn generalizing hole after with
  | nil =>
    have hpos : 1 ≤ begin := by
      rcases hstop with hbegin | ⟨num, hnum, -⟩
      · exact Nat.one_le_iff_ne_zero.mpr hbegin
      · cases hnum
    have hlt : begin < 2 ^ 63 := by
      rw [List.append_nil, List.length_append, ← hbegin] at hlength
      omega
    refine ⟨[], [], hole, rfl, nofun, nofun, begin - 1, ?_, ?_⟩
    · rw [wrap_of_lt (by omega), List.length_nil]
      omega
    · rw [List.length_nil, Nat.add_zero, Nat.add_zero begin, wrapSub_of_le hpos (by omega),
        shiftLoopWithin,
        if_neg (by omega)]
      simp only [List.append_assoc, List.append_nil, List.cons_append, List.nil_append]
  | append_singleton init num ih =>
    have hcount : (init ++ [num]).length = init.length + 1 := List.length_append
    have hlt : begin + init.length + 1 < 2 ^ 63 := by
      rw [List.length_append, List.length_append, hcount, List.length_cons, ← hbegin] at hlength
      omega
    have hsub : wrapSub (begin + (init ++ [num]).length) 1 = begin + init.length := by
      rw [hcount, wrapSub_of_le (by omega) (by omega)]
      rfl
    have hload : load (before ++ (init ++ [num]) ++ hole :: after) (begin + init.length) =
        .ok num := by
      have h := load_append (before ++ init) num (hole :: after)
      rw [List.length_append, ← hbegin] at h
      simpa only [List.append_assoc, List.cons_append, List.nil_append] using h
    rw [hsub, hcount, ← Nat.add_assoc, shiftLoopWithin, if_pos (Nat.le_add_right ..),
      loadWithin_eq (Nat.le_add_right ..) (by omega), hload, ok_bind]
    by_cases hless : val < num
    · have hstore :
          store (before ++ (init ++ [num]) ++ hole :: after) (begin + init.length + 1) num =
          .ok (before ++ init ++ num :: num :: after) := by
        have h := store_append (before ++ init ++ [num]) hole after num
        simp only [List.length_append, List.length_singleton, ← hbegin] at h
        simpa only [List.append_assoc, List.cons_append, List.nil_append] using h
      have hinit : begin ≠ 0 ∨ ∃ other ∈ init, other ≤ val :=
        hstop.imp_right (exists_le_of_append hless)
      obtain ⟨lower, upper, hole', hsplit, hlower, hupper, j, hj, hloop⟩ :=
        @ih (num :: after) num
          (by
            simp only [List.length_append, List.length_cons, List.length_nil] at hlength ⊢
            omega)
          (by omega) hinit (List.pairwise_append.mp hsorted).1
      refine ⟨lower, upper ++ [num], hole', by rw [hsplit, List.append_assoc], hlower,
        List.forall_mem_append.mpr ⟨hupper, List.forall_mem_singleton.mpr hless⟩, j, hj, ?_⟩
      rw [if_pos hless, wrap_of_lt (by omega), storeWithin_eq (by omega) (by omega), hstore,
        ok_bind, hloop]
      simp only [List.append_assoc, List.cons_append, List.nil_append]
    · have hle : num ≤ val := not_lt.mp hless
      refine ⟨init ++ [num], [], hole, (List.append_nil _).symm, forall_le_of_append hsorted hle,
        nofun, begin + init.length, ?_, ?_⟩
      · rw [wrap_of_lt (by omega), hcount, Nat.add_assoc]
      · rw [if_neg hless]
        simp only [List.append_assoc, List.cons_append, List.nil_append]

/-- One round of the outer loop inserts its element. -/
theorem insertWithin_spec {last : ℕ} (hlength : (before ++ sorted ++ val :: after).length < 2 ^ 63)
    (hbegin : begin = before.length) (hlast : begin + sorted.length ≤ last)
    (hstop : begin ≠ 0 ∨ ∃ num ∈ sorted, num ≤ val) (hsorted : sorted.Pairwise (· ≤ ·)) :
    ∃ j nums sorted', shiftLoopWithin begin last val ((before ++ sorted ++ val :: after).length + 1)
        (before ++ sorted ++ val :: after) (wrapSub (begin + sorted.length) 1) = .ok (j, nums) ∧
      storeWithin begin last nums (wrap (j + 1)) val = .ok (before ++ sorted' ++ after) ∧
      sorted'.Perm (sorted ++ [val]) ∧ sorted'.Pairwise (· ≤ ·) := by
  obtain ⟨lower, upper, hole, hsplit, hlower, hupper, j, hj, hloop⟩ :=
    shiftLoopWithin_spec (before.length + after.length + 1) hlength hbegin hlast hstop hsorted
  have hfuel : before.length + after.length + 1 + sorted.length + 1 =
      (before ++ sorted ++ val :: after).length + 1 := by
    simp only [List.length_append, List.length_cons]
    omega
  refine ⟨j, _, lower ++ val :: upper, hfuel ▸ hloop, ?_, ?_, ?_⟩
  · have hstore := store_append (before ++ lower) hole (upper ++ after) val
    rw [List.length_append, ← hbegin, ← hj] at hstore
    rw [hsplit, List.length_append] at hlast
    rw [storeWithin_eq (by omega) (by omega)]
    simpa only [List.append_assoc, List.cons_append] using hstore
  · rw [hsplit, List.append_assoc]
    exact (List.perm_append_singleton val upper).symm.append_left lower
  · rw [hsplit, List.pairwise_append] at hsorted
    refine List.pairwise_append.mpr ⟨hsorted.1, List.pairwise_cons.mpr
      ⟨fun num hnum ↦ (hupper num hnum).le, hsorted.2.1⟩, fun num hnum other hother ↦ ?_⟩
    rcases List.mem_cons.mp hother with rfl | hother
    · exact hlower num hnum
    · exact hsorted.2.2 num hnum other hother

theorem insert_spec (hlength : (before ++ sorted ++ val :: after).length < 2 ^ 63)
    (hbegin : begin = before.length) (hstop : begin ≠ 0 ∨ ∃ num ∈ sorted, num ≤ val)
    (hsorted : sorted.Pairwise (· ≤ ·)) :
    ∃ j nums sorted', shiftLoop begin val ((before ++ sorted ++ val :: after).length + 1)
        (before ++ sorted ++ val :: after) (wrapSub (begin + sorted.length) 1) = .ok (j, nums) ∧
      store nums (wrap (j + 1)) val = .ok (before ++ sorted' ++ after) ∧
      sorted'.Perm (sorted ++ [val]) ∧ sorted'.Pairwise (· ≤ ·) := by
  obtain ⟨j, shifted, sorted', hloop, hstore, hinserted⟩ :=
    insertWithin_spec hlength hbegin le_rfl hstop hsorted
  exact ⟨j, shifted, sorted', shiftLoop_of_within hloop, store_of_within hstore, hinserted⟩

/-- Where the vector begins with the range an element less than all others leads outside. -/
theorem shiftLoop_fault {hole : α} (fuel : ℕ) (hlength : (sorted ++ hole :: after).length < 2 ^ 63)
    (hless : ∀ num ∈ sorted, val < num) :
    shiftLoop 0 val (fuel + sorted.length + 1) (sorted ++ hole :: after) (wrapSub sorted.length 1) =
      .error (.outOfRange (wrapSub 0 1)) := by
  induction sorted using List.reverseRecOn generalizing hole after with
  | nil =>
    rw [List.length_nil, shiftLoop, if_pos (Nat.zero_le _), load_of_le, error_bind]
    exact hlength.le.trans (by decide)
  | append_singleton init num ih =>
    have hcount : (init ++ [num]).length = init.length + 1 := List.length_append
    have hlt : init.length + 1 < 2 ^ 63 := by
      rw [List.length_append, hcount, List.length_cons] at hlength
      omega
    have hsub : wrapSub (init ++ [num]).length 1 = init.length := by
      rw [hcount, wrapSub_of_le (by omega) (by omega)]
      rfl
    have hload : load (init ++ [num] ++ hole :: after) init.length = .ok num := by
      rw [List.append_assoc]
      exact load_append ..
    have hstore := store_append (init ++ [num]) hole after num
    rw [hcount] at hstore
    rw [hsub, hcount, ← Nat.add_assoc, shiftLoop, if_pos (Nat.zero_le _), hload, ok_bind,
      if_pos (hless num (List.mem_append_right init (List.mem_singleton_self num))),
      wrap_of_lt (by omega), hstore, ok_bind, List.append_assoc, List.singleton_append]
    refine ih ?_ fun other hother ↦ hless other (List.mem_append_left _ hother)
    simp only [List.length_append, List.length_cons, List.length_nil] at hlength ⊢
    omega

/-! ### All elements -/

variable {nums rest : List α} {i last : ℕ}

theorem isortLoopWithin_spec (fuel : ℕ) (hnums : nums = before ++ sorted ++ rest ++ after)
    (hlength : nums.length < 2 ^ 63) (hbegin : begin = before.length)
    (hi : i = begin + sorted.length) (hlast : last + 1 = i + rest.length)
    (hstop : begin ≠ 0 ∨ ∃ num ∈ sorted, ∀ other ∈ rest, num ≤ other)
    (hsorted : sorted.Pairwise (· ≤ ·)) :
    ∃ sorted', isortLoopWithin begin last (fuel + rest.length + 1) nums i =
        .ok (before ++ sorted' ++ after) ∧
      sorted'.Perm (sorted ++ rest) ∧ sorted'.Pairwise (· ≤ ·) := by
  induction rest generalizing nums sorted i with
  | nil =>
    refine ⟨sorted, ?_, by rw [List.append_nil], hsorted⟩
    rw [List.length_nil] at hlast
    rw [List.append_nil] at hnums
    rw [isortLoopWithin, if_neg (by omega), hnums]
  | cons val rest ih =>
    rw [List.length_cons] at hlast
    have hsplit : nums = before ++ sorted ++ val :: (rest ++ after) := by
      rw [hnums, List.append_assoc _ (val :: rest), List.cons_append]
    have hload : load nums i = .ok val := by
      have h := load_append (before ++ sorted) val (rest ++ after)
      rwa [List.length_append, ← hbegin, ← hi, ← hsplit] at h
    have hval : begin ≠ 0 ∨ ∃ num ∈ sorted, num ≤ val :=
      hstop.imp_right fun ⟨num, hnum, hle⟩ ↦ ⟨num, hnum, hle val List.mem_cons_self⟩
    obtain ⟨j, shifted, sorted', hloop, hstore, hperm, hsorted'⟩ :=
      @insertWithin_spec _ _ before sorted _ val begin last (hsplit ▸ hlength) hbegin (by omega)
        hval hsorted
    rw [← hsplit, ← hi] at hloop
    have hlength' : (before ++ sorted' ++ (rest ++ after)).length < 2 ^ 63 := by
      rw [hsplit] at hlength
      simp only [List.length_append, List.length_cons, hperm.length_eq, List.length_nil]
        at hlength ⊢
      omega
    have hlt : i + 1 < 2 ^ 64 := by
      rw [hsplit] at hlength
      simp only [List.length_append, List.length_cons, ← hbegin] at hlength
      omega
    obtain ⟨sorted'', hrest, hperm', hsorted''⟩ :=
      @ih sorted' (before ++ sorted' ++ (rest ++ after)) (i + 1)
        (by simp only [List.append_assoc]) hlength'
        (by rw [hperm.length_eq, List.length_append, List.length_singleton, hi, Nat.add_assoc])
        (by omega)
        (hstop.imp_right fun ⟨num, hnum, hle⟩ ↦
          ⟨num, hperm.mem_iff.mpr (List.mem_append_left _ hnum),
            fun other hother ↦ hle other (List.mem_cons_of_mem val hother)⟩)
        hsorted'
    refine ⟨sorted'', ?_, hperm'.trans ?_, hsorted''⟩
    · rw [List.length_cons, ← Nat.add_assoc, isortLoopWithin, if_pos (by omega),
        loadWithin_eq (by omega) (by omega), hload]
      simp only [ok_bind, hloop, hstore]
      rw [wrap_of_lt hlt, hrest]
    · rw [List.append_cons]
      exact hperm.append_right rest

/-- The fault is met however far the loop has come. -/
theorem isortLoop_fault (fuel : ℕ) (hnums : nums = sorted ++ rest ++ after)
    (hlength : nums.length < 2 ^ 63) (hi : i = sorted.length) (hlast : last + 1 = i + rest.length)
    (hless : ∃ other ∈ rest, ∀ num ∈ sorted, other < num) (hsorted : sorted.Pairwise (· ≤ ·)) :
    isortLoop 0 last (fuel + rest.length + 1) nums i = .error (.outOfRange (wrapSub 0 1)) := by
  induction rest generalizing nums sorted i with
  | nil =>
    obtain ⟨other, hother, -⟩ := hless
    cases hother
  | cons val rest ih =>
    rw [List.length_cons] at hlast
    have hsplit : nums = sorted ++ val :: (rest ++ after) := by
      rw [hnums, List.append_assoc, List.cons_append]
    have hload : load nums i = .ok val := by
      rw [hsplit, hi]
      exact load_append ..
    rw [List.length_cons, ← Nat.add_assoc, isortLoop, if_pos (by omega), hload]
    simp only [ok_bind]
    by_cases hval : ∀ num ∈ sorted, val < num
    · have hfuel : nums.length + 1 = rest.length + after.length + 1 + sorted.length + 1 := by
        rw [hsplit]
        simp only [List.length_append, List.length_cons]
        omega
      have hfault := shiftLoop_fault (rest.length + after.length + 1) (hsplit ▸ hlength) hval
      rw [← hsplit, ← hfuel, ← hi] at hfault
      rw [hfault, error_bind]
    · -- The element itself is inserted, and the one less than all others is still to come.
      have hstop : ∃ num ∈ sorted, num ≤ val := by
        by_contra hnone
        exact hval fun num hnum ↦ not_le.mp fun hle ↦ hnone ⟨num, hnum, hle⟩
      have hsplit' : nums = [] ++ sorted ++ val :: (rest ++ after) := hsplit
      rw [hsplit'] at hlength
      obtain ⟨j, shifted, sorted', hloop, hstore, hperm, hsorted'⟩ :=
        insert_spec hlength rfl (Or.inr hstop) hsorted
      rw [← hsplit', List.length_nil, Nat.zero_add, ← hi] at hloop
      obtain ⟨other, hother, hleast⟩ := hless
      obtain ⟨num, hnum, hle⟩ := hstop
      have hother' : other ∈ rest := by
        rcases List.mem_cons.mp hother with rfl | hother
        · exact absurd (hleast num hnum) (not_lt.mpr hle)
        · exact hother
      have hless' : ∀ num ∈ sorted', other < num := by
        intro num' hnum'
        rcases List.mem_append.mp (hperm.mem_iff.mp hnum') with hnum' | hnum'
        · exact hleast num' hnum'
        · rw [List.mem_singleton.mp hnum']
          exact (hleast num hnum).trans_le hle
      have hcount : sorted'.length = sorted.length + 1 := by
        rw [hperm.length_eq, List.length_append, List.length_singleton]
      simp only [List.length_append, List.length_cons, List.length_nil] at hlength
      simp only [hloop, ok_bind, hstore]
      rw [wrap_of_lt (by omega)]
      refine ih (by rw [List.nil_append, List.append_assoc]) ?_ (by omega) (by omega)
        ⟨other, hother', hless'⟩ hsorted'
      simp only [List.length_append, hcount, List.length_nil]
      omega

/-! ### Ranges -/

/-- No element is less than the first one. -/
def FirstLeast (nums : List α) : Prop := ∀ first ∈ nums.head?, ∀ num ∈ nums, first ≤ num

variable {range : List α}

/-- A range, an empty one too, is sorted where it does not begin with the vector, or where no
element is less than its first one. -/
theorem isortWithin_spec (hnums : nums = before ++ range ++ after) (hlength : nums.length < 2 ^ 63)
    (hbegin : begin = before.length) (hlast : last + 1 = begin + range.length)
    (hstop : begin ≠ 0 ∨ FirstLeast range) :
    ∃ sorted, isortWithin nums begin last = .ok (before ++ sorted ++ after) ∧ sorted.Perm range ∧
      sorted.Pairwise (· ≤ ·) := by
  have hcount := length_of_range hnums hbegin
  rw [isortWithin, wrap_of_lt (by omega)]
  cases range with
  | nil =>
    refine ⟨[], ?_, .refl _, .nil⟩
    rw [List.length_nil] at hlast
    rw [isortLoopWithin, if_neg (by omega), hnums]
  | cons first rest =>
    rw [List.length_cons] at hcount hlast
    have hfuel : nums.length + 1 = begin + 1 + after.length + rest.length + 1 := by omega
    rw [hfuel]
    refine @isortLoopWithin_spec _ _ before [first] after begin nums rest (begin + 1) last _ ?_
      hlength hbegin rfl (by omega) (hstop.imp_right fun hfirst ↦ ?_)
      (List.pairwise_singleton _ first)
    · rw [hnums]
      simp only [List.append_assoc, List.cons_append, List.nil_append]
    · exact ⟨first, List.mem_singleton_self first, fun other hother ↦
        hfirst first rfl other (List.mem_cons_of_mem first hother)⟩

theorem isort_spec (hnums : nums = before ++ range ++ after) (hlength : nums.length < 2 ^ 63)
    (hbegin : begin = before.length) (hlast : last + 1 = begin + range.length)
    (hstop : begin ≠ 0 ∨ FirstLeast range) :
    ∃ sorted, isort nums begin last = .ok (before ++ sorted ++ after) ∧ sorted.Perm range ∧
      sorted.Pairwise (· ≤ ·) := by
  obtain ⟨sorted, hrun, hsorted⟩ := isortWithin_spec hnums hlength hbegin hlast hstop
  exact ⟨sorted, isort_of_within hrun, hsorted⟩

theorem isort_fault (hnums : nums = range ++ after) (hlength : nums.length < 2 ^ 63)
    (hlast : last + 1 = range.length) (hfirst : ¬ FirstLeast range) :
    isort nums 0 last = .error (.outOfRange (wrapSub 0 1)) := by
  cases range with
  | nil => exact absurd nofun hfirst
  | cons first rest =>
    have hless : ∃ other ∈ rest, ∀ num ∈ [first], other < num := by
      by_contra hnone
      refine hfirst fun head hhead num hnum ↦ ?_
      obtain rfl : first = head := Option.some.inj hhead
      rcases List.mem_cons.mp hnum with rfl | hnum
      · exact le_rfl
      · exact not_lt.mp fun hlt ↦ hnone ⟨num, hnum, List.forall_mem_singleton.mpr hlt⟩
    have hcount : nums.length = rest.length + 1 + after.length := by
      rw [hnums, List.length_append, List.length_cons]
    rw [List.length_cons] at hlast
    have hfuel : nums.length + 1 = 1 + after.length + rest.length + 1 := by omega
    rw [isort, wrap_of_lt (by decide), hfuel]
    refine isortLoop_fault _ hnums hlength List.length_singleton.symm ?_ hless
      (List.pairwise_singleton _ first)
    omega

/-- The places from `begin` to `last`, and no others, are accessed, and then hold in order what they
held before. -/
def SortsRange (nums : List α) (begin last : ℕ) : Prop :=
  ∃ before range after sorted, nums = before ++ range ++ after ∧ before.length = begin ∧
    last + 1 = begin + range.length ∧ sorted.Perm range ∧ sorted.Pairwise (· ≤ ·) ∧
    isortWithin nums begin last = .ok (before ++ sorted ++ after) ∧
    isort nums begin last = .ok (before ++ sorted ++ after)

/-- A range is sorted where it does not begin with the vector, or where no element is less than the
first one of the vector. -/
theorem sortsRange_iff (nums : Elements α) {begin last : ℕ} (hle : begin ≤ last)
    (hlast : last < nums.val.length) :
    SortsRange nums.val begin last ↔ begin ≠ 0 ∨ FirstLeast (nums.val.take (last + 1)) := by
  obtain ⟨nums, hlength⟩ := nums
  constructor
  · rintro ⟨before, range, after, sorted, -, -, -, -, -, -, hrun⟩
    by_contra hfails
    obtain ⟨rfl, hfirst⟩ : begin = 0 ∧ ¬FirstLeast (nums.take (last + 1)) := by
      rwa [not_or, not_not] at hfails
    have hcount : last + 1 = (nums.take (last + 1)).length := (List.length_take_of_le hlast).symm
    rw [isort_fault (List.take_append_drop (last + 1) nums).symm hlength hcount hfirst] at hrun
    cases hrun
  · intro hstop
    have hcount : (nums.take (last + 1)).length = last + 1 := List.length_take_of_le hlast
    have hnums : nums = (nums.take (last + 1)).take begin ++ (nums.take (last + 1)).drop begin ++
        nums.drop (last + 1) := by
      rw [List.take_append_drop, List.take_append_drop]
    have hbegin : ((nums.take (last + 1)).take begin).length = begin :=
      List.length_take_of_le (by omega)
    have hrange : last + 1 = begin + ((nums.take (last + 1)).drop begin).length := by
      rw [List.length_drop]
      omega
    have hfirst : begin ≠ 0 ∨ FirstLeast ((nums.take (last + 1)).drop begin) := by
      rcases Nat.eq_zero_or_pos begin with rfl | hpos
      · exact Or.inr (hstop.resolve_left (not_not.mpr rfl))
      · exact Or.inl hpos.ne'
    obtain ⟨sorted, hrun, hperm, hsorted⟩ :=
      isortWithin_spec hnums hlength hbegin.symm hrange hfirst
    exact ⟨_, _, _, sorted, hnums, hbegin, hrange, hperm, hsorted, hrun, isort_of_within hrun⟩

theorem sortsRange_iff_three :
    SortsRange [2, 3, 1] 1 2 ↔ 1 ≠ 0 ∨ FirstLeast ([2, 3, 1].take (2 + 1)) :=
  sortsRange_iff ⟨[2, 3, 1], by decide⟩ (by decide) (by decide)

/-- An element less than the first one of the vector is compared with one outside it. -/
theorem isort_wrong :
    isort [2, 1] 0 1 = .error (.outOfRange (2 ^ 64 - 1)) ∧ ¬SortsRange [2, 1] 0 1 := by
  have hrun : isort [2, 1] 0 1 = .error (.outOfRange (2 ^ 64 - 1)) := rfl
  refine ⟨hrun, ?_⟩
  rintro ⟨_, _, _, _, -, -, -, -, -, -, hresult⟩
  rw [hrun] at hresult
  cases hresult

end CppLearn.Algorithm.Isort
