import Mathlib.Algebra.BigOperators.Group.List.Basic
import Mathlib.Algebra.GroupWithZero.Nat
import Mathlib.Tactic.Common

/-!
# Column readers

A column of a row group is stored as pages. Its reader returns at most a batch of values at a time
and never reads across the end of a page: `readBatch` takes the smaller of the batch size and what
is left of the current page. What a reader does therefore depends on the sizes of the pages alone.
`nextRead` is one read in terms of sizes (`readBatch_paginate`), and `chunkLengths` the lengths of
all reads of a column (`chunkLengths_of_pos`).
-/

set_option autoImplicit false
set_option relaxedAutoImplicit false

namespace CppLearn.SearchEngine.ColumnReader

variable {Value : Type*}

/-! ### Readers -/

/-- `HasNext`: a page still holds a value. -/
def hasNext (pages : List (List Value)) : Bool := pages.any fun page ↦ !page.isEmpty

/-- `ReadBatch`: the values read and the pages left. -/
def readBatch (batchSize : ℕ) : List (List Value) → List Value × List (List Value)
  | [] => ([], [])
  | page :: pages =>
    if page.isEmpty then readBatch batchSize pages
    else (page.take batchSize, page.drop batchSize :: pages)

/-- The values of a column cut into pages of the given sizes. -/
def paginate : List ℕ → List Value → List (List Value)
  | [], _ => []
  | size :: sizes, values => values.take size :: paginate sizes (values.drop size)

/-! ### Reads in terms of sizes -/

/-- The length of one read and the sizes of the pages left. -/
def nextRead (batchSize : ℕ) : List ℕ → ℕ × List ℕ
  | [] => (0, [])
  | size :: sizes =>
    if size = 0 then nextRead batchSize sizes
    else (min batchSize size, (size - batchSize) :: sizes)

/-- The lengths of the reads of one page: full batches and a rest. -/
def pageChunks (batchSize size : ℕ) : List ℕ :=
  List.replicate (size / batchSize) batchSize ++
    if size % batchSize = 0 then [] else [size % batchSize]

/-- The lengths of the reads of a column, in order. -/
def chunkLengths (batchSize : ℕ) (sizes : List ℕ) : List ℕ :=
  sizes.flatMap (pageChunks batchSize)

/-- The pages of a column hold its values. -/
theorem flatten_paginate {sizes : List ℕ} {values : List Value}
    (hsum : sizes.sum = values.length) : (paginate sizes values).flatten = values := by
  induction sizes generalizing values with
  | nil => exact (List.length_eq_zero_iff.mp hsum.symm).symm
  | cons size sizes ih =>
    rw [List.sum_cons] at hsum
    rw [paginate, List.flatten_cons, ih (by rw [List.length_drop]; omega), List.take_append_drop]

theorem hasNext_paginate {sizes : List ℕ} {values : List Value}
    (hsum : sizes.sum = values.length) :
    hasNext (paginate sizes values) = !values.isEmpty := by
  induction sizes generalizing values with
  | nil =>
    have hnil : values = [] := List.length_eq_zero_iff.mp hsum.symm
    rw [hnil]
    rfl
  | cons size sizes ih =>
    rw [List.sum_cons] at hsum
    have hdrop : sizes.sum = (values.drop size).length := by
      rw [List.length_drop]
      omega
    rw [paginate, hasNext, List.any_cons, ← hasNext, ih hdrop]
    by_cases hsize : size = 0
    · simp [hsize]
    · rcases values with _ | ⟨value, values⟩
      · simp
      · simp [hsize]

theorem readBatch_paginate (batchSize : ℕ) {sizes : List ℕ} {values : List Value}
    (hsum : sizes.sum = values.length) :
    readBatch batchSize (paginate sizes values) =
      (values.take (nextRead batchSize sizes).1,
        paginate (nextRead batchSize sizes).2 (values.drop (nextRead batchSize sizes).1)) := by
  induction sizes generalizing values with
  | nil =>
    have hnil : values = [] := List.length_eq_zero_iff.mp hsum.symm
    rw [hnil]
    rfl
  | cons size sizes ih =>
    rw [List.sum_cons] at hsum
    rw [paginate, readBatch, nextRead]
    by_cases hsize : size = 0
    · rw [if_pos hsize, hsize, if_pos (by simp), List.drop_zero, ih (by omega)]
    · have hpage : (values.take size).isEmpty = false := by
        rcases values with _ | ⟨value, values⟩
        · simp only [List.length_nil] at hsum
          omega
        · simp [hsize]
      rw [if_neg hsize, hpage, if_neg (by decide), paginate, List.take_take, List.drop_take,
        List.drop_drop]
      rcases Nat.le_total batchSize size with hle | hle
      · rw [Nat.min_eq_left hle, Nat.add_sub_of_le hle]
      · rw [Nat.min_eq_right hle, Nat.sub_eq_zero_of_le hle]
        simp

/-- A read takes its values from the column. -/
theorem nextRead_sum (batchSize : ℕ) (sizes : List ℕ) :
    (nextRead batchSize sizes).1 + (nextRead batchSize sizes).2.sum = sizes.sum := by
  induction sizes with
  | nil => rfl
  | cons size sizes ih =>
    rw [nextRead]
    split_ifs with hsize
    · rw [ih, List.sum_cons, hsize, Nat.zero_add]
    · simp only [List.sum_cons]
      omega

/-- A read of a column that has values left returns at least one. -/
theorem nextRead_pos {batchSize : ℕ} (hbatch : 0 < batchSize) {sizes : List ℕ}
    (hsum : 0 < sizes.sum) : 0 < (nextRead batchSize sizes).1 := by
  induction sizes with
  | nil => simp at hsum
  | cons size sizes ih =>
    rw [nextRead]
    split_ifs with hsize
    · exact ih (by rwa [List.sum_cons, hsize, Nat.zero_add] at hsum)
    · simp only
      omega

/-- A read returns the first value that is left. -/
theorem head?_readBatch_paginate {batchSize : ℕ} (hbatch : 0 < batchSize) {sizes : List ℕ}
    {values : List Value} (hsum : sizes.sum = values.length) :
    (readBatch batchSize (paginate sizes values)).1.head? = values.head? := by
  rw [readBatch_paginate batchSize hsum]
  rcases values with _ | ⟨value, values⟩
  · simp
  · have hpos : 0 < (nextRead batchSize sizes).1 := nextRead_pos hbatch (by simp [hsum])
    simp [List.head?_take, Nat.pos_iff_ne_zero.mp hpos]

/-- The first read of a page that holds a value. -/
theorem pageChunks_of_pos {batchSize : ℕ} (hbatch : 0 < batchSize) {size : ℕ} (hsize : 0 < size) :
    pageChunks batchSize size =
      min batchSize size :: pageChunks batchSize (size - batchSize) := by
  unfold pageChunks
  rcases Nat.lt_or_ge size batchSize with hlt | hge
  · have hmod : size % batchSize = size := Nat.mod_eq_of_lt hlt
    rw [Nat.div_eq_of_lt hlt, hmod, Nat.sub_eq_zero_of_le (Nat.le_of_lt hlt),
      Nat.min_eq_right (Nat.le_of_lt hlt),
      if_neg (Nat.pos_iff_ne_zero.mp hsize)]
    simp
  · rw [Nat.div_eq_sub_div hbatch hge, Nat.mod_eq_sub_mod hge, Nat.min_eq_left hge,
      List.replicate_succ, List.cons_append]

/-- The reads of a column: the first, and those of what it leaves. -/
theorem chunkLengths_of_pos {batchSize : ℕ} (hbatch : 0 < batchSize) {sizes : List ℕ}
    (hsum : 0 < sizes.sum) :
    chunkLengths batchSize sizes =
      (nextRead batchSize sizes).1 :: chunkLengths batchSize (nextRead batchSize sizes).2 := by
  induction sizes with
  | nil => simp at hsum
  | cons size sizes ih =>
    by_cases hsize : size = 0
    · have hempty : pageChunks batchSize size = [] := by simp [pageChunks, hsize]
      rw [chunkLengths, List.flatMap_cons, hempty, List.nil_append, ← chunkLengths, nextRead,
        if_pos hsize]
      exact ih (by rwa [List.sum_cons, hsize, Nat.zero_add] at hsum)
    · rw [chunkLengths, List.flatMap_cons, pageChunks_of_pos hbatch (Nat.pos_of_ne_zero hsize),
        nextRead, if_neg hsize, List.cons_append]
      rfl

theorem chunkLengths_of_sum_eq_zero (batchSize : ℕ) {sizes : List ℕ} (hsum : sizes.sum = 0) :
    chunkLengths batchSize sizes = [] := by
  refine List.flatMap_eq_nil_iff.mpr fun size hsize ↦ ?_
  have hzero : size = 0 := List.sum_eq_zero_iff_forall_eq_nat.mp hsum size hsize
  simp [pageChunks, hzero]

-- two pages of five and three values in batches of two
example : chunkLengths 2 [5, 3] = [2, 2, 1, 2, 1] := by decide

end CppLearn.SearchEngine.ColumnReader
