import CppLearn.Foundation.RowMajor
import CppLearn.Foundation.VectorAccess

/-!
# Binary search in a matrix

`searchMatrix` goes on from the value that it has read, not from the place that it has read it at:
where the value is less than the target, the interval of the places begins behind the number that
the value is. The search comes out right as long as the values lie in the intervals that they narrow
(`finds_iff`). Once a value has not narrowed the interval, the places that are read move one way and
the search does not return.
-/

set_option autoImplicit false
set_option relaxedAutoImplicit false

namespace CppLearn.Leetcode.SearchMatrix

open Foundation.RowMajor
open Foundation.VectorAccess (intOf intOf_of_fits intOf_eq_some_iff intToSize intToSize_of_nonneg
  le_intToSize_of_neg sizeToInt sizeToInt_le wrap wrapSub wrap_of_lt wrapSub_of_le)

/-! ### The program -/

section Program

variable (matrix : List (List Int32)) (ncols : ℕ) (target : Int32)

/-- `matrix[mid/ncols][mid%ncols]` for the `mid` of an interval, of which the division cuts off
towards zero. -/
def pivotAt (begin last : ℤ) : Option Int32 := do
  let sum ← intOf (begin + last)
  let mid := intToSize (sum.tdiv 2)
  let row ← matrix[mid / ncols]?
  row[mid % ncols]?

def searchLoop : ℕ → ℤ → ℤ → Option Bool
  | 0, _, _ => none
  | fuel + 1, begin, last =>
    if begin ≤ last then do
      let pivot ← pivotAt matrix ncols begin last
      if pivot = target then return true
      else if pivot < target then
        let begin ← intOf (pivot.toInt + 1)
        searchLoop fuel begin last
      else
        let last ← intOf (pivot.toInt - 1)
        searchLoop fuel begin last
    else return false

/-- `nrows * ncols - 1`, as an `int`. -/
def lastOf : ℤ := sizeToInt (wrapSub (wrap (matrix.length * ncols)) 1)

def searchMatrix (fuel : ℕ) : Option Bool :=
  match matrix with
  | [] => some false
  | row :: _ =>
    if row.length = 0 then some false
    else searchLoop matrix row.length target fuel 0 (lastOf matrix row.length)

end Program

/-! ### Matrices -/

/-- Each row ascends, and starts above the end of the one before it. -/
structure Ascending (matrix : List (List Int32)) (ncols : ℕ) : Prop where
  ne_nil : matrix ≠ []
  ncols_pos : 0 < ncols
  length_eq : ∀ row ∈ matrix, row.length = ncols
  size_lt : matrix.length * ncols < 2 ^ 63
  rows : ∀ row ∈ matrix, row.Pairwise (· ≤ ·)
  next : matrix.IsChain fun row next ↦ ∀ last ∈ row.getLast?, ∀ first ∈ next.head?, last < first

def Occurs (matrix : List (List Int32)) (target : Int32) : Prop := ∃ row ∈ matrix, target ∈ row

instance (matrix : List (List Int32)) (target : Int32) : Decidable (Occurs matrix target) :=
  inferInstanceAs (Decidable (∃ row ∈ matrix, target ∈ row))

variable {matrix : List (List Int32)} {ncols : ℕ} {target pivot other : Int32} {begin last : ℤ}

theorem occurs_iff : Occurs matrix target ↔ target ∈ matrix.flatten := List.mem_flatten.symm

theorem Ascending.pairwise (h : Ascending matrix ncols) : matrix.flatten.Pairwise (· ≤ ·) := by
  refine pairwise_flatten_of_isChain (fun row hrow hnil ↦ ?_) h.rows (h.next.imp ?_)
  · have hlength := h.length_eq row hrow
    have hpos := h.ncols_pos
    rw [hnil, List.length_nil] at hlength
    omega
  · exact fun row next hlt last hlast first hfirst ↦ Int32.le_of_lt (hlt last hlast first hfirst)

/-- The number of the cell that is read. -/
def midOf (begin last : ℤ) : ℤ := (begin + last).tdiv 2

theorem midOf_mono {begin' last' : ℤ} (hbegin : begin ≤ begin') (hlast : last ≤ last') :
    midOf begin last ≤ midOf begin' last' :=
  Int.tdiv_le_tdiv (by decide) (Int.add_le_add hbegin hlast)

theorem midOf_of_nonneg (hnonneg : 0 ≤ begin + last) :
    midOf begin last = (begin + last) / 2 := Int.tdiv_eq_ediv_of_nonneg hnonneg

/-- What is read is a cell, whose number is not negative. -/
theorem Ascending.pivotAt_eq_some_iff (h : Ascending matrix ncols) :
    pivotAt matrix ncols begin last = some pivot ↔
      (-2 ^ 31 ≤ begin + last ∧ begin + last < 2 ^ 31) ∧ 0 ≤ midOf begin last ∧
        matrix.flatten[(midOf begin last).toNat]? = some pivot := by
  by_cases hsum : -2 ^ 31 ≤ begin + last ∧ begin + last < 2 ^ 31
  · have hmidLt : midOf begin last < 2 ^ 31 := by
      rcases lt_or_ge (begin + last) 0 with hneg | hnonneg
      · exact lt_of_le_of_lt (Int.tdiv_le_tdiv (by decide) hneg.le) (by decide)
      · rw [midOf_of_nonneg hnonneg]
        omega
    have hmidGe : -2 ^ 31 ≤ midOf begin last :=
      le_trans (by decide) (Int.tdiv_le_tdiv (c := 2) (by decide) hsum.1)
    rw [pivotAt, intOf_of_fits hsum.1 hsum.2, Option.bind_eq_bind, Option.bind_some,
      and_iff_right hsum]
    dsimp only
    rw [← midOf, Option.bind_eq_bind, bind_getElem?_eq h.length_eq h.ncols_pos]
    rcases lt_or_ge (midOf begin last) 0 with hneg | hnonneg
    · rw [List.getElem?_eq_none]
      · exact iff_of_false nofun fun hmid ↦ absurd hmid.1 (not_le.mpr hneg)
      · rw [length_flatten_of_rows h.length_eq]
        exact h.size_lt.le.trans (le_intToSize_of_neg hmidGe hneg)
    · rw [intToSize_of_nonneg hnonneg hmidLt, and_iff_right hnonneg]
  · refine iff_of_false (fun hsome ↦ hsum ?_) fun hall ↦ hsum hall.1
    rw [pivotAt, Option.bind_eq_bind] at hsome
    obtain ⟨sum, hfits, -⟩ := Option.bind_eq_some_iff.mp hsome
    exact (intOf_eq_some_iff.mp hfits).2

theorem Ascending.toInt_le (h : Ascending matrix ncols) {i j : ℕ} (hle : i ≤ j)
    (hother : matrix.flatten[i]? = some other) (hpivot : matrix.flatten[j]? = some pivot) :
    other.toInt ≤ pivot.toInt := by
  obtain ⟨hi, rfl⟩ := List.getElem?_eq_some_iff.mp hother
  obtain ⟨hj, rfl⟩ := List.getElem?_eq_some_iff.mp hpivot
  rcases Nat.eq_or_lt_of_le hle with rfl | hlt
  · exact le_rfl
  · exact Int32.le_iff_toInt_le.mp (List.pairwise_iff_getElem.mp h.pairwise i j hi hj hlt)

theorem lastOf_lt (h : Ascending matrix ncols) : lastOf matrix ncols < matrix.flatten.length := by
  have hpos : 0 < matrix.length * ncols :=
    Nat.mul_pos (List.length_pos_of_ne_nil h.ne_nil) h.ncols_pos
  have hsize := h.size_lt
  have hle := sizeToInt_le (matrix.length * ncols - 1)
  rw [lastOf, wrap_of_lt (by omega), wrapSub_of_le (by omega) (by omega),
    length_flatten_of_rows h.length_eq]
  omega

/-! ### Rounds -/

section Rounds

variable {fuel : ℕ}

theorem searchLoop_of_lt (hlt : last < begin) :
    searchLoop matrix ncols target (fuel + 1) begin last = some false := by
  rw [searchLoop, if_neg (not_le.mpr hlt)]
  rfl

theorem searchLoop_none (hle : begin ≤ last) (hpivot : pivotAt matrix ncols begin last = none) :
    searchLoop matrix ncols target fuel begin last = none := by
  cases fuel with
  | zero => rfl
  | succ fuel =>
    rw [searchLoop, if_pos hle, hpivot]
    rfl

theorem searchLoop_found (hle : begin ≤ last)
    (hpivot : pivotAt matrix ncols begin last = some target) :
    searchLoop matrix ncols target (fuel + 1) begin last = some true := by
  rw [searchLoop, if_pos hle, hpivot, Option.bind_eq_bind, Option.bind_some, if_pos rfl]
  rfl

theorem searchLoop_more (hle : begin ≤ last)
    (hpivot : pivotAt matrix ncols begin last = some pivot) (hlt : pivot < target) :
    searchLoop matrix ncols target (fuel + 1) begin last =
      searchLoop matrix ncols target fuel (pivot.toInt + 1) last := by
  have hltInt := Int32.lt_iff_toInt_lt.mp hlt
  have htarget := target.toInt_lt
  have hge := pivot.le_toInt
  have hne : pivot ≠ target := by
    rintro rfl
    omega
  rw [searchLoop, if_pos hle, hpivot, Option.bind_eq_bind, Option.bind_some, if_neg hne,
    if_pos hlt, intOf_of_fits (by omega) (by omega), Option.bind_eq_bind, Option.bind_some]

theorem searchLoop_less (hle : begin ≤ last)
    (hpivot : pivotAt matrix ncols begin last = some pivot) (hlt : target < pivot) :
    searchLoop matrix ncols target (fuel + 1) begin last =
      searchLoop matrix ncols target fuel begin (pivot.toInt - 1) := by
  have hltInt := Int32.lt_iff_toInt_lt.mp hlt
  have htarget := target.le_toInt
  have hpivotLt := pivot.toInt_lt
  have hne : pivot ≠ target := by
    rintro rfl
    omega
  have hnot : ¬pivot < target := by
    rw [Int32.lt_iff_toInt_lt]
    omega
  rw [searchLoop, if_pos hle, hpivot, Option.bind_eq_bind, Option.bind_some, if_neg hne,
    if_neg hnot, intOf_of_fits (by omega) (by omega), Option.bind_eq_bind, Option.bind_some]

end Rounds

/-! ### Searches that come out right -/

/-- The intervals that the search comes to. -/
inductive Reaches (matrix : List (List Int32)) (ncols : ℕ) (target : Int32) : ℤ → ℤ → Prop where
  | start : Reaches matrix ncols target 0 (lastOf matrix ncols)
  | more {begin last : ℤ} {pivot : Int32} (h : Reaches matrix ncols target begin last)
      (hle : begin ≤ last) (hpivot : pivotAt matrix ncols begin last = some pivot)
      (hlt : pivot < target) : Reaches matrix ncols target (pivot.toInt + 1) last
  | less {begin last : ℤ} {pivot : Int32} (h : Reaches matrix ncols target begin last)
      (hle : begin ≤ last) (hpivot : pivotAt matrix ncols begin last = some pivot)
      (hlt : target < pivot) : Reaches matrix ncols target begin (pivot.toInt - 1)

/-- A value other than the target narrows the interval, and leaves some of it where the target
occurs. -/
structure Narrows (matrix : List (List Int32)) (ncols : ℕ) (target : Int32) (begin last : ℤ) :
    Prop where
  sum_lt : begin + last < 2 ^ 31
  more : ∀ pivot, pivotAt matrix ncols begin last = some pivot → pivot < target →
    begin ≤ pivot.toInt ∧ (Occurs matrix target → pivot.toInt < last)
  less : ∀ pivot, pivotAt matrix ncols begin last = some pivot → target < pivot →
    pivot.toInt ≤ last ∧ (Occurs matrix target → begin < pivot.toInt)

/-- The result from an interval on is the right one. -/
def FindsFrom (matrix : List (List Int32)) (ncols : ℕ) (target : Int32) (begin last : ℤ) : Prop :=
  ∃ bound, ∀ fuel, bound ≤ fuel →
    searchLoop matrix ncols target fuel begin last = some (decide (Occurs matrix target))

theorem FindsFrom.exists_fuel (h : FindsFrom matrix ncols target begin last) :
    ∃ fuel, searchLoop matrix ncols target (fuel + 2) begin last =
      some (decide (Occurs matrix target)) := by
  obtain ⟨bound, hbound⟩ := h
  exact ⟨bound, hbound _ (Nat.le_add_right bound 2)⟩

/-- The result of the rounds after the first one is that of all. -/
theorem findsFrom_iff_of_round {begin' last' : ℤ}
    (hround : ∀ fuel, searchLoop matrix ncols target (fuel + 1) begin last =
      searchLoop matrix ncols target fuel begin' last') :
    FindsFrom matrix ncols target begin last ↔ FindsFrom matrix ncols target begin' last' := by
  constructor
  · rintro ⟨bound, hbound⟩
    refine ⟨bound, fun fuel hfuel ↦ ?_⟩
    rw [← hround]
    exact hbound (fuel + 1) (Nat.le_succ_of_le hfuel)
  · rintro ⟨bound, hbound⟩
    refine ⟨bound + 1, fun fuel hfuel ↦ ?_⟩
    obtain ⟨fuel, rfl⟩ := Nat.exists_eq_add_of_le' (Nat.one_le_of_lt hfuel)
    rw [hround]
    exact hbound fuel (Nat.le_of_succ_le_succ hfuel)

/-- Or the first round has it. -/
theorem findsFrom_of_round
    (hround : ∀ fuel, searchLoop matrix ncols target (fuel + 1) begin last =
      some (decide (Occurs matrix target))) : FindsFrom matrix ncols target begin last := by
  refine ⟨1, fun fuel hfuel ↦ ?_⟩
  obtain ⟨fuel, rfl⟩ := Nat.exists_eq_add_of_le' hfuel
  exact hround fuel

/-- All intervals that are narrowed come to an end. -/
theorem findsFrom_of_narrows (h : Ascending matrix ncols)
    (hnarrows : ∀ begin last, Reaches matrix ncols target begin last → begin ≤ last →
      Narrows matrix ncols target begin last)
    (hreaches : Reaches matrix ncols target begin last) (hbegin : 0 ≤ begin)
    (hlast : last < matrix.flatten.length) (hoccurs : Occurs matrix target → begin ≤ last) :
    FindsFrom matrix ncols target begin last := by
  induction hsize : (last + 1 - begin).toNat using Nat.strong_induction_on
    generalizing begin last with
  | _ size ih =>
    by_cases hle : begin ≤ last
    · obtain ⟨hsum, hmore, hless⟩ := hnarrows begin last hreaches hle
      have hmid := midOf_of_nonneg (by omega : 0 ≤ begin + last)
      obtain ⟨pivot, hcell⟩ : ∃ pivot, matrix.flatten[(midOf begin last).toNat]? = some pivot :=
        ⟨_, List.getElem?_eq_getElem (by omega)⟩
      have hpivot : pivotAt matrix ncols begin last = some pivot :=
        h.pivotAt_eq_some_iff.mpr ⟨by omega, by omega, hcell⟩
      rcases lt_trichotomy pivot.toInt target.toInt with hlt | heq | hgt
      · have hpivotLt := Int32.lt_iff_toInt_lt.mpr hlt
        obtain ⟨hge, hends⟩ := hmore pivot hpivot hpivotLt
        refine (findsFrom_iff_of_round fun fuel ↦ searchLoop_more hle hpivot hpivotLt).mpr ?_
        exact ih _ (by omega) (hreaches.more hle hpivot hpivotLt) (by omega) hlast
          (fun hocc ↦ hends hocc) rfl
      · obtain rfl := Int32.toInt_inj.mp heq
        have hocc : Occurs matrix pivot := occurs_iff.mpr (List.mem_of_getElem? hcell)
        refine findsFrom_of_round fun fuel ↦ ?_
        rw [searchLoop_found hle hpivot, decide_eq_true hocc]
      · have hpivotGt := Int32.lt_iff_toInt_lt.mpr hgt
        obtain ⟨hge, hends⟩ := hless pivot hpivot hpivotGt
        refine (findsFrom_iff_of_round fun fuel ↦ searchLoop_less hle hpivot hpivotGt).mpr ?_
        exact ih _ (by omega) (hreaches.less hle hpivot hpivotGt) hbegin (by omega)
          (fun hocc ↦ Int.le_sub_one_of_lt (hends hocc)) rfl
    · refine findsFrom_of_round fun fuel ↦ ?_
      rw [searchLoop_of_lt (not_le.mp hle), decide_eq_false fun hocc ↦ hle (hoccurs hocc)]

/-! ### Searches that do not return -/

/-- The cells up to the one that is read do not let the interval begin later. -/
structure StuckBelow (matrix : List (List Int32)) (target : Int32) (begin last : ℤ) : Prop where
  le : begin ≤ last
  cells : ∀ (pivot : Int32) (j : ℕ), j ≤ midOf begin last → matrix.flatten[j]? = some pivot →
    pivot < target ∧ pivot.toInt < begin

/-- The cells from the one that is read on do not let it end earlier. -/
structure StuckAbove (matrix : List (List Int32)) (target : Int32) (begin last : ℤ) : Prop where
  le : begin ≤ last
  cells : ∀ (pivot : Int32) (j : ℕ), midOf begin last ≤ j → matrix.flatten[j]? = some pivot →
    target < pivot ∧ last < pivot.toInt

theorem StuckBelow.searchLoop_eq_none (h : Ascending matrix ncols)
    (hstuck : StuckBelow matrix target begin last) (fuel : ℕ) :
    searchLoop matrix ncols target fuel begin last = none := by
  induction fuel generalizing begin with
  | zero => rfl
  | succ fuel ih =>
    cases hpivot : pivotAt matrix ncols begin last with
    | none => exact searchLoop_none hstuck.le hpivot
    | some pivot =>
      obtain ⟨-, hnonneg, hcell⟩ := h.pivotAt_eq_some_iff.mp hpivot
      obtain ⟨hlt, hbegin⟩ := hstuck.cells pivot _ (Int.toNat_of_nonneg hnonneg).le hcell
      have hmono := midOf_mono (by omega : pivot.toInt + 1 ≤ begin) (le_refl last)
      rw [searchLoop_more hstuck.le hpivot hlt]
      refine ih ⟨by have := hstuck.le; omega, fun other j hj hother ↦ ?_⟩
      have hle := h.toInt_le (by omega : j ≤ (midOf begin last).toNat) hother hcell
      exact ⟨(hstuck.cells other j (hj.trans hmono) hother).1, by omega⟩

theorem StuckAbove.searchLoop_eq_none (h : Ascending matrix ncols)
    (hstuck : StuckAbove matrix target begin last) (fuel : ℕ) :
    searchLoop matrix ncols target fuel begin last = none := by
  induction fuel generalizing last with
  | zero => rfl
  | succ fuel ih =>
    cases hpivot : pivotAt matrix ncols begin last with
    | none => exact searchLoop_none hstuck.le hpivot
    | some pivot =>
      obtain ⟨-, hnonneg, hcell⟩ := h.pivotAt_eq_some_iff.mp hpivot
      obtain ⟨hlt, hlast⟩ := hstuck.cells pivot _ (Int.toNat_of_nonneg hnonneg).ge hcell
      have hmono := midOf_mono (le_refl begin) (by omega : last ≤ pivot.toInt - 1)
      rw [searchLoop_less hstuck.le hpivot hlt]
      refine ih ⟨by have := hstuck.le; omega, fun other j hj hother ↦ ?_⟩
      have hle := h.toInt_le (by omega : (midOf begin last).toNat ≤ j) hcell hother
      exact ⟨(hstuck.cells other j (hmono.trans hj) hother).1, by omega⟩

theorem stuckBelow_of_pivotAt (h : Ascending matrix ncols) (hle : begin ≤ last)
    (hpivot : pivotAt matrix ncols begin last = some pivot) (hlt : pivot < target)
    (hbegin : pivot.toInt < begin) : StuckBelow matrix target begin last := by
  obtain ⟨-, hnonneg, hcell⟩ := h.pivotAt_eq_some_iff.mp hpivot
  refine ⟨hle, fun other j hj hother ↦ ?_⟩
  have hotherLe := h.toInt_le (by omega : j ≤ (midOf begin last).toNat) hother hcell
  rw [Int32.lt_iff_toInt_lt] at hlt ⊢
  omega

theorem stuckAbove_of_pivotAt (h : Ascending matrix ncols) (hle : begin ≤ last)
    (hpivot : pivotAt matrix ncols begin last = some pivot) (hlt : target < pivot)
    (hlast : last < pivot.toInt) : StuckAbove matrix target begin last := by
  obtain ⟨-, hnonneg, hcell⟩ := h.pivotAt_eq_some_iff.mp hpivot
  refine ⟨hle, fun other j hj hother ↦ ?_⟩
  have hotherGe := h.toInt_le (by omega : (midOf begin last).toNat ≤ j) hcell hother
  rw [Int32.lt_iff_toInt_lt] at hlt ⊢
  omega

/-- Where the result is right, the interval is narrowed. -/
theorem FindsFrom.narrows (hfinds : FindsFrom matrix ncols target begin last)
    (h : Ascending matrix ncols) (hle : begin ≤ last) : Narrows matrix ncols target begin last := by
  obtain ⟨fuel, hresult⟩ := hfinds.exists_fuel
  refine ⟨?_, fun pivot hpivot hlt ↦ ⟨?_, fun hocc ↦ ?_⟩,
    fun pivot hpivot hlt ↦ ⟨?_, fun hocc ↦ ?_⟩⟩
  · by_contra hsum
    have hnone : pivotAt matrix ncols begin last = none := by
      refine Option.eq_none_iff_forall_ne_some.mpr fun pivot hpivot ↦ hsum ?_
      exact (h.pivotAt_eq_some_iff.mp hpivot).1.2
    rw [searchLoop_none hle hnone] at hresult
    cases hresult
  · by_contra hge
    have hstuck := stuckBelow_of_pivotAt h hle hpivot hlt (not_le.mp hge)
    rw [hstuck.searchLoop_eq_none h] at hresult
    cases hresult
  · by_contra hge
    rw [searchLoop_more hle hpivot hlt, searchLoop_of_lt (by omega), decide_eq_true hocc] at hresult
    cases hresult
  · by_contra hge
    have hstuck := stuckAbove_of_pivotAt h hle hpivot hlt (not_le.mp hge)
    rw [hstuck.searchLoop_eq_none h] at hresult
    cases hresult
  · by_contra hge
    rw [searchLoop_less hle hpivot hlt, searchLoop_of_lt (by omega), decide_eq_true hocc] at hresult
    cases hresult

/-! ### Which searches these are -/

theorem Reaches.findsFrom (hreaches : Reaches matrix ncols target begin last)
    (hfinds : FindsFrom matrix ncols target 0 (lastOf matrix ncols)) :
    FindsFrom matrix ncols target begin last := by
  induction hreaches with
  | start => exact hfinds
  | more _ hle hpivot hlt ih =>
    exact (findsFrom_iff_of_round fun fuel ↦ searchLoop_more hle hpivot hlt).mp ih
  | less _ hle hpivot hlt ih =>
    exact (findsFrom_iff_of_round fun fuel ↦ searchLoop_less hle hpivot hlt).mp ih

/-- The search returns, reads cells only, and its result is whether the target occurs. -/
def Finds (matrix : List (List Int32)) (target : Int32) : Prop :=
  ∃ bound, ∀ fuel, bound ≤ fuel →
    searchMatrix matrix target fuel = some (decide (Occurs matrix target))

/-- All intervals that the search comes to are narrowed. -/
def AllNarrow (matrix : List (List Int32)) (ncols : ℕ) (target : Int32) : Prop :=
  (Occurs matrix target → 0 ≤ lastOf matrix ncols) ∧
    ∀ begin last, Reaches matrix ncols target begin last → begin ≤ last →
      Narrows matrix ncols target begin last

theorem searchMatrix_eq (h : Ascending matrix ncols) (fuel : ℕ) :
    searchMatrix matrix target fuel =
      searchLoop matrix ncols target fuel 0 (lastOf matrix ncols) := by
  cases matrix with
  | nil => exact absurd rfl h.ne_nil
  | cons row rows =>
    have hlength := h.length_eq row List.mem_cons_self
    rw [searchMatrix, hlength, if_neg h.ncols_pos.ne']

theorem finds_iff (h : Ascending matrix ncols) :
    Finds matrix target ↔ AllNarrow matrix ncols target := by
  simp only [Finds, searchMatrix_eq h]
  constructor
  · intro hfinds
    refine ⟨fun hocc ↦ ?_, fun begin last hreaches hle ↦ ?_⟩
    · by_contra hneg
      obtain ⟨fuel, hresult⟩ := FindsFrom.exists_fuel hfinds
      rw [searchLoop_of_lt (not_le.mp hneg), decide_eq_true hocc] at hresult
      cases hresult
    · exact (hreaches.findsFrom hfinds).narrows h hle
  · rintro ⟨hoccurs, hnarrows⟩
    exact findsFrom_of_narrows h hnarrows .start le_rfl (lastOf_lt h) hoccurs

theorem ascending_two : Ascending [[1, 3]] 2 :=
  ⟨List.cons_ne_nil _ _, by decide, by decide, by decide, by decide, List.IsChain.singleton _⟩

theorem finds_iff_two : Finds [[1, 3]] 1 ↔ AllNarrow [[1, 3]] 2 1 := finds_iff ascending_two

/-- The value in the first place is an end of the interval already. -/
theorem searchMatrix_wrong :
    Ascending [[1, 3]] 2 ∧ Occurs [[1, 3]] 3 ∧
      ∀ fuel, searchMatrix [[1, 3]] 3 (fuel + 2) = some false :=
  ⟨ascending_two, by decide, fun _ ↦ rfl⟩

end CppLearn.Leetcode.SearchMatrix
