import CppLearn.Leetcode.SearchMatrix

/-!
# Search along the border of a matrix

In a matrix whose rows and columns ascend, `searchMatrix` starts at the end of the first row. A cell
that is less than the target rules out the rest of its row, and one that is greater the rest of its
column, so that the target is in the cells below and to the left or nowhere.
-/

set_option autoImplicit false
set_option relaxedAutoImplicit false

namespace CppLearn.Leetcode.SearchMatrixII

open SearchMatrix (Occurs)
open Foundation.VectorAccess (toInt toInt_of_lt toInt_of_le sizeToInt sizeToInt_of_lt)

/-! ### The program -/

section Program

variable (matrix : List (List Int32)) (target : Int32)

def searchLoop : ℕ → ℕ → ℤ → Option Bool
  | 0, _, _ => none
  | fuel + 1, r, c =>
    if r < matrix.length ∧ 0 ≤ c then do
      let row ← matrix[r]?
      let val ← row[c.toNat]?
      if val = target then return true
      else if val < target then
        let r ← toInt (r + 1)
        searchLoop fuel r c
      else searchLoop fuel r (c - 1)
    else return false

def searchMatrix (fuel : ℕ) : Option Bool :=
  match matrix with
  | [] => some false
  | row :: _ =>
    if row.length = 0 then some false
    else searchLoop matrix target fuel 0 (sizeToInt (row.length - 1))

end Program

/-! ### Matrices -/

/-- `matrix[r][c]`. -/
def cell (matrix : List (List Int32)) (r c : ℕ) : Option Int32 := matrix[r]?.bind fun row ↦ row[c]?

/-- The rows are of one length, and rows and columns ascend. -/
structure Ascending (matrix : List (List Int32)) (ncols : ℕ) : Prop where
  length_eq : ∀ row ∈ matrix, row.length = ncols
  rows : ∀ r c c' val val', c ≤ c' → cell matrix r c = some val → cell matrix r c' = some val' →
    val ≤ val'
  columns : ∀ r r' c val val', r ≤ r' → cell matrix r c = some val → cell matrix r' c = some val' →
    val ≤ val'

/-- The target is in the cells from a row on and up to a column. -/
def Within (matrix : List (List Int32)) (target : Int32) (r : ℕ) (c : ℤ) : Prop :=
  ∃ r' c' : ℕ, r ≤ r' ∧ c' ≤ c ∧ cell matrix r' c' = some target

variable {matrix : List (List Int32)} {target val : Int32} {ncols r fuel : ℕ} {c : ℤ}

theorem Ascending.cell_lt (h : Ascending matrix ncols) {c : ℕ}
    (hcell : cell matrix r c = some val) : r < matrix.length ∧ c < ncols := by
  obtain ⟨row, hrow, hval⟩ := Option.bind_eq_some_iff.mp hcell
  have hlength := h.length_eq row (List.mem_of_getElem? hrow)
  exact ⟨(List.getElem?_eq_some_iff.mp hrow).1, hlength ▸ (List.getElem?_eq_some_iff.mp hval).1⟩

theorem Ascending.exists_cell (h : Ascending matrix ncols) {c : ℕ} (hr : r < matrix.length)
    (hc : c < ncols) : ∃ val, cell matrix r c = some val := by
  have hlength := h.length_eq _ (List.getElem_mem hr)
  refine ⟨matrix[r][c], ?_⟩
  rw [cell, List.getElem?_eq_getElem hr, Option.bind_some, List.getElem?_eq_getElem]

theorem occurs_iff_cell : Occurs matrix target ↔ ∃ r c, cell matrix r c = some target := by
  constructor
  · rintro ⟨row, hrow, htarget⟩
    obtain ⟨r, hr⟩ := List.mem_iff_getElem?.mp hrow
    obtain ⟨c, hc⟩ := List.mem_iff_getElem?.mp htarget
    exact ⟨r, c, Option.bind_eq_some_iff.mpr ⟨row, hr, hc⟩⟩
  · rintro ⟨r, c, hcell⟩
    obtain ⟨row, hrow, hval⟩ := Option.bind_eq_some_iff.mp hcell
    exact ⟨row, List.mem_of_getElem? hrow, List.mem_of_getElem? hval⟩

/-- A cell that is less rules out its row. -/
theorem Ascending.within_succ (h : Ascending matrix ncols) {c : ℕ}
    (hcell : cell matrix r c = some val) (hlt : val < target) :
    Within matrix target (r + 1) c ↔ Within matrix target r c := by
  constructor
  · rintro ⟨r', c', hr, hc, htarget⟩
    exact ⟨r', c', Nat.le_of_succ_le hr, hc, htarget⟩
  · rintro ⟨r', c', hr, hc, htarget⟩
    refine ⟨r', c', Nat.lt_of_le_of_ne hr ?_, hc, htarget⟩
    rintro rfl
    have hle := h.rows _ _ _ _ _ (by omega : c' ≤ c) htarget hcell
    rw [Int32.le_iff_toInt_le] at hle
    rw [Int32.lt_iff_toInt_lt] at hlt
    omega

/-- A cell that is greater rules out its column. -/
theorem Ascending.within_pred (h : Ascending matrix ncols) {c : ℕ}
    (hcell : cell matrix r c = some val) (hgt : target < val) :
    Within matrix target r (c - 1) ↔ Within matrix target r c := by
  constructor
  · rintro ⟨r', c', hr, hc, htarget⟩
    exact ⟨r', c', hr, by omega, htarget⟩
  · rintro ⟨r', c', hr, hc, htarget⟩
    have hne : c' ≠ c := by
      rintro rfl
      have hle := h.columns _ _ _ _ _ hr hcell htarget
      rw [Int32.le_iff_toInt_le] at hle
      rw [Int32.lt_iff_toInt_lt] at hgt
      omega
    exact ⟨r', c', hr, by omega, htarget⟩

/-! ### The loop -/

/-- A round at a cell. -/
theorem searchLoop_eq {c : ℕ} (hr : r + 1 < 2 ^ 31) (hcell : cell matrix r c = some val) :
    searchLoop matrix target (fuel + 1) r c =
      if val = target then some true
      else if val < target then searchLoop matrix target fuel (r + 1) c
      else searchLoop matrix target fuel r (c - 1) := by
  obtain ⟨row, hrow, hval⟩ := Option.bind_eq_some_iff.mp hcell
  have hlt := (List.getElem?_eq_some_iff.mp hrow).1
  rw [searchLoop, if_pos ⟨hlt, Int.natCast_nonneg c⟩, hrow, Option.bind_eq_bind, Option.bind_some,
    Int.toNat_natCast, hval, Option.bind_eq_bind, Option.bind_some, toInt_of_lt hr]
  rfl

theorem searchLoop_of_not (hend : ¬(r < matrix.length ∧ 0 ≤ c)) :
    searchLoop matrix target (fuel + 1) r c = some false := by
  rw [searchLoop, if_neg hend]
  rfl

/-- The loop finds the target in the cells that it has not ruled out. -/
theorem searchLoop_spec (h : Ascending matrix ncols) (hrows : matrix.length < 2 ^ 31)
    (hc : c < ncols) (hfuel : (matrix.length - r : ℤ) + (c + 1) < fuel) (hr : r ≤ matrix.length)
    (hge : -1 ≤ c) :
    ∃ result, searchLoop matrix target fuel r c = some result ∧
      (result = true ↔ Within matrix target r c) := by
  induction fuel generalizing r c with
  | zero => omega
  | succ fuel ih =>
    by_cases hround : r < matrix.length ∧ 0 ≤ c
    · obtain ⟨hlt, hnonneg⟩ := hround
      lift c to ℕ using hnonneg
      obtain ⟨val, hcell⟩ := h.exists_cell hlt (by omega : c < ncols)
      rw [searchLoop_eq (by omega) hcell]
      rcases lt_trichotomy val.toInt target.toInt with hless | heq | hgreater
      · have hlt' := Int32.lt_iff_toInt_lt.mpr hless
        have hne : val ≠ target := fun heq ↦ hless.ne (congrArg Int32.toInt heq)
        rw [if_neg hne, if_pos hlt', ← h.within_succ hcell hlt']
        exact ih hc (by push_cast at hfuel ⊢; omega) hlt hge
      · obtain rfl := Int32.toInt_inj.mp heq
        rw [if_pos rfl]
        exact ⟨true, rfl, iff_of_true rfl ⟨r, c, le_rfl, le_rfl, hcell⟩⟩
      · have hgt' := Int32.lt_iff_toInt_lt.mpr hgreater
        have hne : val ≠ target := fun heq ↦ hgreater.ne' (congrArg Int32.toInt heq)
        have hnot : ¬val < target := by
          rw [Int32.lt_iff_toInt_lt]
          omega
        rw [if_neg hne, if_neg hnot, ← h.within_pred hcell hgt']
        exact ih (by omega) (by push_cast at hfuel ⊢; omega) hr (by omega)
    · refine ⟨false, searchLoop_of_not hround, iff_of_false Bool.false_ne_true ?_⟩
      rintro ⟨r', c', hr', hc', hcell⟩
      have hbounds := h.cell_lt hcell
      omega

/-- The search returns, and its result is whether the target occurs. -/
theorem searchMatrix_spec (h : Ascending matrix ncols) (hrows : matrix.length < 2 ^ 31)
    (hcols : ncols ≤ 2 ^ 31) :
    ∃ bound, ∀ fuel, bound ≤ fuel →
      searchMatrix matrix target fuel = some (decide (Occurs matrix target)) := by
  cases matrix with
  | nil =>
    refine ⟨0, fun fuel _ ↦ congrArg some (decide_eq_false ?_).symm⟩
    rintro ⟨row, ⟨⟩, -⟩
  | cons row rows =>
    have hlength := h.length_eq row List.mem_cons_self
    rcases Nat.eq_zero_or_pos ncols with hzero | hpos
    · refine ⟨0, fun fuel _ ↦ ?_⟩
      have hoccurs : ¬Occurs (row :: rows) target := by
        intro hocc
        obtain ⟨r, c, hcell⟩ := occurs_iff_cell.mp hocc
        have hlt := (h.cell_lt hcell).2
        omega
      rw [searchMatrix, if_pos (hlength.trans hzero), decide_eq_false hoccurs]
    · refine ⟨(row :: rows).length + ncols + 1, fun fuel hfuel ↦ ?_⟩
      have hlast : sizeToInt (ncols - 1) = (ncols - 1 : ℕ) := sizeToInt_of_lt (by omega)
      obtain ⟨result, hresult, hiff⟩ := @searchLoop_spec _ target _ 0 fuel (sizeToInt (ncols - 1)) h
        hrows (by omega) (by push_cast; omega) (Nat.zero_le _) (by omega)
      have hwithin : Within (row :: rows) target 0 (sizeToInt (ncols - 1)) ↔
          Occurs (row :: rows) target := by
        rw [occurs_iff_cell]
        constructor
        · rintro ⟨r, c, -, -, hcell⟩
          exact ⟨r, c, hcell⟩
        · rintro ⟨r, c, hcell⟩
          have hlt := (h.cell_lt hcell).2
          exact ⟨r, c, Nat.zero_le r, by omega, hcell⟩
      rw [searchMatrix, hlength, if_neg hpos.ne', hresult]
      exact congrArg some (Bool.eq_iff_iff.mpr (hiff.trans (hwithin.trans decide_eq_true_iff.symm)))

/-! ### Sizes that an `int` cannot count -/

theorem cell_eq_of_replicate {size : ℕ} {c : ℕ} {row : List Int32}
    (hcell : cell (List.replicate size row) r c = some val) : row[c]? = some val := by
  obtain ⟨row', hrow, hval⟩ := Option.bind_eq_some_iff.mp hcell
  rwa [List.eq_of_mem_replicate (List.mem_of_getElem? hrow)] at hval

/-- Rows of one number. -/
theorem ascending_replicate (size ncols : ℕ) (val : Int32) :
    Ascending (List.replicate size (List.replicate ncols val)) ncols := by
  have hval (r c : ℕ) (other : Int32)
      (hcell : cell (List.replicate size (List.replicate ncols val)) r c = some other) :
      other = val :=
    List.eq_of_mem_replicate (List.mem_of_getElem? (cell_eq_of_replicate hcell))
  refine ⟨fun row hrow ↦ ?_, fun r c c' other other' _ hother hother' ↦ ?_,
    fun r r' c other other' _ hother hother' ↦ ?_⟩
  · rw [List.eq_of_mem_replicate hrow, List.length_replicate]
  · rw [hval r c other hother, hval r c' other' hother']
    exact Int32.le_refl val
  · rw [hval r c other hother, hval r' c other' hother']
    exact Int32.le_refl val

/-- The counter of the rows goes past the greatest `int`. -/
theorem searchLoop_overflow {size : ℕ} (hsize : size = 2 ^ 31) (fuel : ℕ) (hr : r < 2 ^ 31) :
    searchLoop (List.replicate size [0]) 1 fuel r 0 = none := by
  induction fuel generalizing r with
  | zero => rfl
  | succ fuel ih =>
    have hrow : (List.replicate size [(0 : Int32)])[r]? = some [0] :=
      List.getElem?_replicate_of_lt (by omega)
    have hlt : r < (List.replicate size [(0 : Int32)]).length := by
      rw [List.length_replicate]
      omega
    have hval : ([0] : List Int32)[(0 : ℤ).toNat]? = some 0 := rfl
    rw [searchLoop, if_pos ⟨hlt, le_rfl⟩, hrow, Option.bind_eq_bind, Option.bind_some, hval,
      Option.bind_eq_bind, Option.bind_some, if_neg (by decide), if_pos (by decide)]
    rcases Nat.lt_or_ge (r + 1) (2 ^ 31) with hnext | hnext
    · rw [toInt_of_lt hnext]
      exact ih hnext
    · rw [toInt_of_le hnext]
      rfl

/-- A row too long is not looked at, and rows too many are counted too far. -/
theorem searchMatrix_overflow :
    (∃ matrix : List (List Int32), Ascending matrix (2 ^ 31 + 1) ∧ matrix.length = 1 ∧
      Occurs matrix 0 ∧ ∀ fuel, searchMatrix matrix 0 (fuel + 1) = some false) ∧
    ∃ matrix : List (List Int32), Ascending matrix 1 ∧ matrix.length = 2 ^ 31 ∧
      ∀ fuel, searchMatrix matrix 1 fuel = none := by
  constructor
  · obtain ⟨size, hsize⟩ : ∃ size : ℕ, size = 2 ^ 31 + 1 := ⟨_, rfl⟩
    have hlast : sizeToInt (2 ^ 31) = -2 ^ 31 := by decide
    refine ⟨[List.replicate size 0], hsize ▸ ascending_replicate 1 size 0, rfl, ?_, fun fuel ↦ ?_⟩
    · refine ⟨List.replicate size 0, List.mem_singleton_self _, List.mem_replicate.mpr ⟨?_, rfl⟩⟩
      omega
    · have hsub : size - 1 = 2 ^ 31 := by omega
      rw [searchMatrix, List.length_replicate, if_neg (by omega), hsub, hlast,
        searchLoop_of_not fun hround ↦ absurd hround.2 (by decide)]
  · obtain ⟨size, hsize⟩ : ∃ size : ℕ, size = 2 ^ 31 := ⟨_, rfl⟩
    refine ⟨List.replicate size [0], ascending_replicate size 1 0, ?_, fun fuel ↦ ?_⟩
    · rw [List.length_replicate, hsize]
    · have hloop := @searchLoop_overflow 0 size hsize fuel (by decide)
      obtain ⟨more, hmore⟩ : ∃ more, size = more + 1 := ⟨size - 1, by omega⟩
      rw [hmore, List.replicate_succ] at hloop ⊢
      exact hloop

theorem searchMatrix_spec_two :
    ∃ bound, ∀ fuel, bound ≤ fuel →
      searchMatrix [[1, 4], [2, 5]] 2 fuel = some (decide (Occurs [[1, 4], [2, 5]] 2)) := by
  have hcell (r c : ℕ) (val : Int32) (hcell : cell [[1, 4], [2, 5]] r c = some val) :
      val.toInt = 1 + r + 3 * c := by
    obtain ⟨row, hrow, hval⟩ := Option.bind_eq_some_iff.mp hcell
    have hr := (List.getElem?_eq_some_iff.mp hrow).1
    match r, hr with
    | 0, _ =>
      obtain rfl : [1, 4] = row := Option.some_inj.mp hrow
      have hc := (List.getElem?_eq_some_iff.mp hval).1
      match c, hc with
      | 0, _ => exact Option.some_inj.mp hval ▸ rfl
      | 1, _ => exact Option.some_inj.mp hval ▸ rfl
    | 1, _ =>
      obtain rfl : [2, 5] = row := Option.some_inj.mp hrow
      have hc := (List.getElem?_eq_some_iff.mp hval).1
      match c, hc with
      | 0, _ => exact Option.some_inj.mp hval ▸ rfl
      | 1, _ => exact Option.some_inj.mp hval ▸ rfl
  refine searchMatrix_spec ⟨by decide, fun r c c' val val' hle h h' ↦ ?_,
    fun r r' c val val' hle h h' ↦ ?_⟩ (by decide) (by decide : 2 ≤ 2 ^ 31)
  · have hval := hcell r c val h
    have hval' := hcell r c' val' h'
    rw [Int32.le_iff_toInt_le]
    omega
  · have hval := hcell r c val h
    have hval' := hcell r' c val' h'
    rw [Int32.le_iff_toInt_le]
    omega

end CppLearn.Leetcode.SearchMatrixII
