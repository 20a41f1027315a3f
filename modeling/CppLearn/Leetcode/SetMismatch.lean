import CppLearn.Foundation.VectorAccess
import CppLearn.Foundation.XorSum
import CppLearn.Leetcode.FindDuplicates
import Mathlib.Data.Int.Bitwise

/-!
# A set with one number in place of another

`findErrorNums` marks what has been seen in the array itself, as `findDuplicates` does.
`findErrorNumsXOR` adds all numbers without carry, which leaves the sum of the two, and then does so
for the numbers that have the lowest bit of that sum and for those that do not.
-/

set_option autoImplicit false
set_option relaxedAutoImplicit false

namespace CppLearn.Leetcode.SetMismatch

open FindDuplicates (InRange markLoop markLoop_eq mem_repeats)
open Foundation.SignMarks Foundation.XorSum
open Foundation.VectorAccess (toInt toInt_of_lt toInt_of_le)

/-! ### The programs -/

/-- The first number that is positive, looked for from the place `i` on. -/
def missLoop : List ℤ → ℕ → Option ℤ
  | [], _ => some 1
  | num :: rest, i => do
    if num > 0 then
      let misselem ← toInt (i + 1)
      return misselem
    else
      let i ← toInt (i + 1)
      missLoop rest i

def findErrorNums (nums : List ℤ) : Option (List ℤ) := do
  let (nums, dupelem) ← markLoop (fun _ value ↦ (value : ℤ)) nums 1
  let misselem ← missLoop nums 0
  return [dupelem, misselem]

variable {State : Type}

/-- `for (int i = 1; i <= nums.size(); ++i)`. -/
def countUp (body : State → ℕ → State) (size : ℕ) (state : State) : Option State :=
  (List.range' 1 size).foldlM (fun state i ↦ do
    let _ ← toInt (i + 1)
    return body state i) state

/-- `n - 1`, which overflows for the least `int`. -/
def predOf (n : ℤ) : Option ℤ := if n = -2 ^ 31 then none else some (n - 1)

/-- A number goes to the part that it is in. -/
def partStep (rightmostbit : ℤ) (xors : ℤ × ℤ) (n : ℤ) : ℤ × ℤ :=
  if Int.land n rightmostbit ≠ 0 then (xors.1.xor n, xors.2) else (xors.1, xors.2.xor n)

def findErrorNumsXOR (nums : List ℤ) : Option (List ℤ) := do
  let dupxormiss := nums.foldl Int.xor 0
  let dupxormiss ← countUp (fun dupxormiss i ↦ dupxormiss.xor i) nums.length dupxormiss
  let pred ← predOf dupxormiss
  let rightmostbit := Int.land dupxormiss (Int.lnot pred)
  let xors := nums.foldl (partStep rightmostbit) (0, 0)
  let (xor1, xor2) ← countUp (fun xors i ↦ partStep rightmostbit xors i) nums.length xors
  if xor1 ∈ nums then return [xor1, xor2] else return [xor2, xor1]

/-! ### Arrays with one number in place of another -/

/-- In a permutation of the numbers from one on, `dup` stands in the place of `miss`. -/
def Mismatch (vals : List ℕ) (dup miss : ℕ) : Prop :=
  ∃ front back, (front ++ miss :: back).Perm (List.range' 1 vals.length) ∧
    vals = front ++ dup :: back ∧ dup ∈ List.range' 1 vals.length ∧ dup ≠ miss

/-- The array as it is stored. -/
def ints (vals : List ℕ) : List ℤ := vals.map Nat.cast

@[simp] theorem length_ints (vals : List ℕ) : (ints vals).length = vals.length := List.length_map _

variable {vals : List ℕ} {dup miss val : ℕ}

theorem mem_ints : (val : ℤ) ∈ ints vals ↔ val ∈ vals :=
  List.mem_map_of_injective Nat.cast_injective

theorem count_ints (vals : List ℕ) (val : ℕ) : (ints vals).count (val : ℤ) = vals.count val :=
  List.count_map_of_injective _ _ Nat.cast_injective _

/-- Of each number from one on there is one, but for the two. -/
theorem Mismatch.count_add (h : Mismatch vals dup miss) (val : ℕ) :
    vals.count val + (if miss = val then 1 else 0) =
      (List.range' 1 vals.length).count val + if dup = val then 1 else 0 := by
  obtain ⟨front, back, hperm, hvals, -⟩ := h
  have hcount := hperm.count_eq val
  rw [List.count_append, List.count_cons] at hcount
  rw [← hcount]
  conv_lhs => rw [hvals]
  rw [List.count_append, List.count_cons]
  simp only [beq_iff_eq]
  omega

theorem Mismatch.miss_mem (h : Mismatch vals dup miss) : miss ∈ List.range' 1 vals.length := by
  obtain ⟨front, back, hperm, -⟩ := h
  exact hperm.mem_iff.mp (List.mem_append_right front List.mem_cons_self)

/-- What there is of each number. -/
theorem Mismatch.count_eq (h : Mismatch vals dup miss) (val : ℕ) :
    vals.count val + (if miss = val then 1 else 0) =
      (if 1 ≤ val ∧ val ≤ vals.length then 1 else 0) + if dup = val then 1 else 0 := by
  have hrange : val ∈ List.range' 1 vals.length ↔ 1 ≤ val ∧ val ≤ vals.length := by
    rw [List.mem_range'_1]
    omega
  rw [h.count_add, List.Nodup.count List.nodup_range']
  simp only [hrange]

theorem Mismatch.bounds (h : Mismatch vals dup miss) :
    (1 ≤ dup ∧ dup ≤ vals.length) ∧ (1 ≤ miss ∧ miss ≤ vals.length) ∧ dup ≠ miss := by
  have hmiss := h.miss_mem
  obtain ⟨-, -, -, -, hdup, hne⟩ := h
  rw [List.mem_range'_1] at hmiss hdup
  exact ⟨by omega, by omega, hne⟩

theorem Mismatch.count_dup (h : Mismatch vals dup miss) : vals.count dup = 2 := by
  have hcount := h.count_eq dup
  obtain ⟨hdup, -, hne⟩ := h.bounds
  rw [if_neg hne.symm, if_pos hdup, if_pos rfl] at hcount
  exact hcount

theorem Mismatch.mem_iff (h : Mismatch vals dup miss) :
    val ∈ vals ↔ (1 ≤ val ∧ val ≤ vals.length) ∧ val ≠ miss := by
  have hcount := h.count_eq val
  obtain ⟨hdup, hmiss, hne⟩ := h.bounds
  rw [← List.count_pos_iff]
  split at hcount <;> split at hcount <;> split at hcount <;> omega

/-! ### Marks -/

theorem Mismatch.inRange (h : Mismatch vals dup miss) (hsize : vals.length < 2 ^ 31) :
    InRange (ints vals) := by
  intro num hnum
  obtain ⟨val, hval, rfl⟩ := List.mem_map.mp hnum
  have hbounds := (h.mem_iff.mp hval).1
  rw [length_ints]
  exact ⟨by omega, by omega, by omega⟩

theorem Mismatch.repeats_eq (h : Mismatch vals dup miss) :
    repeats [] (ints vals) = [(dup : ℤ)] := by
  refine List.perm_singleton.mp (List.perm_iff_count.mpr fun num ↦ ?_)
  rw [count_repeats_nil, List.count_singleton]
  by_cases hnum : num ∈ ints vals
  · obtain ⟨val, -, rfl⟩ := List.mem_map.mp hnum
    obtain ⟨hbounds, hmiss⟩ := h.mem_iff.mp (mem_ints.mp hnum)
    have hcount := h.count_eq val
    rw [if_pos hbounds, if_neg (Ne.symm hmiss), Nat.add_zero] at hcount
    simp only [count_ints, beq_iff_eq, Nat.cast_inj, hcount, Nat.add_sub_cancel_left]
  · have hne : (dup : ℤ) ≠ num := by
      rintro rfl
      exact hnum (mem_ints.mpr (h.mem_iff.mpr ⟨h.bounds.1, h.bounds.2.2⟩))
    rw [List.count_eq_zero_of_not_mem hnum, if_neg (by simpa using hne)]

/-- The first number that is positive has been found. -/
theorem missLoop_append {front rest : List ℤ} {num : ℤ} {i : ℕ} (hfront : ∀ num ∈ front, num ≤ 0)
    (hnum : 0 < num) (hlt : i + front.length + 1 < 2 ^ 31) :
    missLoop (front ++ num :: rest) i = some ((i + front.length + 1 : ℕ) : ℤ) := by
  induction front generalizing i with
  | nil =>
    rw [List.length_nil] at hlt
    rw [List.nil_append, missLoop, if_pos hnum, toInt_of_lt (by omega)]
    rfl
  | cons other front ih =>
    rw [List.length_cons] at hlt
    have hother := hfront other List.mem_cons_self
    have hrest := @ih (i + 1) (fun num hmem ↦ hfront num (List.mem_cons_of_mem other hmem))
      (by omega)
    rw [List.cons_append, missLoop, if_neg (not_lt.mpr hother), toInt_of_lt (by omega),
      Option.bind_eq_bind, Option.bind_some, hrest, List.length_cons]
    congr 3
    omega

/-- The numbers are marked but for the one at the place of what is missing. -/
theorem Mismatch.getElem?_marks (h : Mismatch vals dup miss) {indx : ℕ}
    (hval : vals[indx]? = some val) :
    (marked (ints vals) (ints vals))[indx]? =
      some (if indx + 1 = miss then (val : ℤ) else -(val : ℤ)) := by
  obtain ⟨hlt, -⟩ := List.getElem?_eq_some_iff.mp hval
  have hnum : (ints vals)[indx]? = some (val : ℤ) := by
    rw [ints, List.getElem?_map, hval, Option.map_some]
  have hiff : (indx + 1 : ℤ) ∈ ints vals ↔ indx + 1 ≠ miss := by
    rw [← Nat.cast_succ, mem_ints, h.mem_iff]
    omega
  rw [getElem?_marked hnum]
  simp only [hiff, ite_not]

theorem Mismatch.missLoop_eq (h : Mismatch vals dup miss) (hsize : vals.length < 2 ^ 31) :
    missLoop (marked (ints vals) (ints vals)) 0 = some (miss : ℤ) := by
  obtain ⟨-, ⟨hge, hle⟩, -⟩ := h.bounds
  obtain ⟨place, rfl⟩ := Nat.exists_eq_add_of_le' hge
  have hlength : (marked (ints vals) (ints vals)).length = vals.length := by
    rw [length_marked, length_ints]
  have hpositive (indx : ℕ) (hlt : indx < vals.length) : 0 < vals[indx] :=
    (h.mem_iff.mp (List.getElem_mem hlt)).1.1
  have hsplit : marked (ints vals) (ints vals) =
      (marked (ints vals) (ints vals)).take place ++
        (vals[place] : ℤ) :: (marked (ints vals) (ints vals)).drop (place + 1) := by
    have hplace := h.getElem?_marks (List.getElem?_eq_getElem hle)
    rw [if_pos rfl] at hplace
    obtain ⟨hlt, heq⟩ := List.getElem?_eq_some_iff.mp hplace
    rw [← heq, List.cons_getElem_drop_succ, List.take_append_drop]
  have htake : ((marked (ints vals) (ints vals)).take place).length = place := by
    rw [List.length_take, hlength]
    omega
  rw [hsplit, missLoop_append _ (by exact_mod_cast hpositive place hle) (by omega), htake,
    Nat.zero_add]
  intro num hnum
  obtain ⟨indx, hlt, rfl⟩ := List.mem_take_iff_getElem.mp hnum
  have hindx : indx < vals.length := by omega
  have hvalue := h.getElem?_marks (List.getElem?_eq_getElem hindx)
  rw [if_neg (by omega)] at hvalue
  obtain ⟨_, heq⟩ := List.getElem?_eq_some_iff.mp hvalue
  rw [heq]
  have hpos := hpositive indx hindx
  omega

theorem Mismatch.findErrorNums_eq (h : Mismatch vals dup miss) (hsize : vals.length < 2 ^ 31) :
    findErrorNums (ints vals) = some [(dup : ℤ), (miss : ℤ)] := by
  rw [findErrorNums, markLoop_eq (h.inRange hsize), Option.bind_eq_bind, Option.bind_some]
  dsimp only
  rw [h.missLoop_eq hsize, Option.bind_eq_bind, Option.bind_some, h.repeats_eq]
  rfl

/-! ### Sums without carry -/

theorem countUp_from (body : State → ℕ → State) {start size : ℕ} (state : State)
    (hsize : start + size < 2 ^ 31) :
    (List.range' start size).foldlM (fun state i ↦ do
        let _ ← toInt (i + 1)
        return body state i) state =
      some ((List.range' start size).foldl body state) := by
  induction size generalizing start state with
  | zero => rfl
  | succ size ih =>
    rw [List.range'_succ, List.foldlM_cons, List.foldl_cons, toInt_of_lt (by omega)]
    exact ih _ (by omega)

theorem countUp_eq (body : State → ℕ → State) {size : ℕ} (state : State)
    (hsize : size + 1 < 2 ^ 31) :
    countUp body size state = some ((List.range' 1 size).foldl body state) :=
  countUp_from body state (by omega)

/-- The loop counts on past the last number, which may be the greatest one there is. -/
theorem countUp_from_none (body : State → ℕ → State) {start size : ℕ} (state : State)
    (hstart : start < 2 ^ 31) (hsize : 2 ^ 31 ≤ start + size) :
    (List.range' start size).foldlM (fun state i ↦ do
        let _ ← toInt (i + 1)
        return body state i) state = none := by
  induction size generalizing start state with
  | zero => omega
  | succ size ih =>
    rw [List.range'_succ, List.foldlM_cons]
    rcases Nat.lt_or_ge (start + 1) (2 ^ 31) with hlt | hge
    · rw [toInt_of_lt hlt]
      exact ih _ hlt (by omega)
    · rw [toInt_of_le hge]
      rfl

theorem countUp_none (body : State → ℕ → State) {size : ℕ} (state : State)
    (hsize : 2 ^ 31 ≤ size + 1) : countUp body size state = none :=
  countUp_from_none body state (by decide) (by omega)

theorem foldl_xor_ints (nums : List ℕ) (start : ℕ) :
    (ints nums).foldl Int.xor start = ((nums.foldl (· ^^^ ·) start : ℕ) : ℤ) := by
  induction nums generalizing start with
  | nil => rfl
  | cons num nums ih => exact ih (start ^^^ num)

theorem xor_ints (nums : List ℕ) : (ints nums).foldl Int.xor 0 = ((xorSum nums : ℕ) : ℤ) :=
  foldl_xor_ints nums 0

def hasBit (bit num : ℕ) : Bool := num &&& bit ≠ 0

/-- The parts of the numbers, those with the bit first. -/
theorem foldl_partStep (bit : ℕ) (nums : List ℕ) (xor1 xor2 : ℕ) :
    (ints nums).foldl (partStep bit) ((xor1 : ℤ), (xor2 : ℤ)) =
      ((((nums.filter (hasBit bit)).foldl (· ^^^ ·) xor1 : ℕ) : ℤ),
        (((nums.filter fun num ↦ !hasBit bit num).foldl (· ^^^ ·) xor2 : ℕ) : ℤ)) := by
  induction nums generalizing xor1 xor2 with
  | nil => rfl
  | cons num nums ih =>
    have hand : Int.land num bit ≠ 0 ↔ hasBit bit num = true := by
      rw [hasBit, decide_eq_true_iff, Ne, Ne, ← Int.natCast_eq_zero]
      rfl
    rw [ints, List.map_cons, ← ints, List.foldl_cons, partStep, List.filter_cons, List.filter_cons]
    simp only [hand]
    cases hasBit bit num with
    | true => exact ih (xor1 ^^^ num) xor2
    | false => exact ih xor1 (xor2 ^^^ num)

theorem parts_ints (bit : ℕ) (nums : List ℕ) :
    (ints nums).foldl (partStep bit) (0, 0) =
      (((xorSum (nums.filter (hasBit bit)) : ℕ) : ℤ),
        ((xorSum (nums.filter fun num ↦ !hasBit bit num) : ℕ) : ℤ)) :=
  foldl_partStep bit nums 0 0

/-- Both loops of a sum, over the array and over all numbers. -/
theorem foldl_ints_append (step : State → ℤ → State) (nums nums' : List ℕ) (state : State) :
    nums'.foldl (fun state (i : ℕ) ↦ step state i) ((ints nums).foldl step state) =
      (ints (nums ++ nums')).foldl step state := by
  rw [ints, ints, List.map_append, List.foldl_append]
  exact List.foldl_map.symm

theorem hasBit_lowestBit (hne : dup ≠ miss) :
    hasBit (lowestBit (dup ^^^ miss)) miss = !hasBit (lowestBit (dup ^^^ miss)) dup := by
  have hand := and_lowestBit hne
  by_cases hmiss : miss &&& lowestBit (dup ^^^ miss) = 0
  · rw [hasBit, hasBit, decide_eq_true (hand.mpr hmiss), decide_eq_false (not_not.mpr hmiss)]
    rfl
  · rw [hasBit, hasBit, decide_eq_false (mt hand.mp hmiss), decide_eq_true hmiss]
    rfl

theorem Mismatch.findErrorNumsXOR_eq (h : Mismatch vals dup miss)
    (hsize : vals.length + 1 < 2 ^ 31) :
    findErrorNumsXOR (ints vals) = some [(dup : ℤ), (miss : ℤ)] := by
  obtain ⟨hmiss, hdup⟩ : miss ∉ vals ∧ dup ∈ vals := by
    obtain ⟨hdup, -, hne⟩ := h.bounds
    exact ⟨fun hmem ↦ (h.mem_iff.mp hmem).2 rfl, h.mem_iff.mpr ⟨hdup, hne⟩⟩
  have hne := h.bounds.2.2
  have hsum (inClass : ℕ → Bool) :
      xorSum ((vals ++ List.range' 1 vals.length).filter inClass) =
        (if inClass dup then dup else 0) ^^^ if inClass miss then miss else 0 := by
    obtain ⟨front, back, hperm, hvals, -⟩ := h
    have hvals' : vals.Perm (dup :: (front ++ back)) := by
      conv_lhs => rw [hvals]
      exact List.perm_middle
    exact xorSum_filter_append hvals' (hperm.symm.trans List.perm_middle) inClass
  have hall : xorSum (vals ++ List.range' 1 vals.length) = dup ^^^ miss := by
    have hfilter := hsum fun _ ↦ true
    rwa [List.filter_true, if_pos rfl, if_pos rfl] at hfilter
  obtain ⟨lower, hlower⟩ := Nat.exists_eq_succ_of_ne_zero (Nat.xor_ne_zero_iff.mpr hne)
  have hbit : Int.land (lower + 1 : ℕ) (Int.lnot lower) = (lowestBit (dup ^^^ miss) : ℕ) := by
    rw [hlower]
    rfl
  have hpred : predOf ((lower + 1 : ℕ) : ℤ) = some (lower : ℤ) := by
    rw [predOf, if_neg (by omega), Nat.cast_succ, Int.add_sub_cancel]
  rw [findErrorNumsXOR, length_ints, countUp_eq _ _ hsize, Option.bind_eq_bind, Option.bind_some,
    foldl_ints_append, xor_ints, hall, hlower, hpred, Option.bind_eq_bind, Option.bind_some]
  dsimp only
  rw [hbit, countUp_eq _ _ hsize, foldl_ints_append, parts_ints, hsum, hsum, Option.bind_some]
  dsimp only
  -- The bit tells the two apart.
  rw [hasBit_lowestBit hne]
  cases hasBit (lowestBit (dup ^^^ miss)) dup with
  | true =>
    simp only [Bool.not_true, Bool.not_false, Bool.false_eq_true, if_true, if_false, Nat.xor_zero,
      Nat.zero_xor, mem_ints, hdup]
    rfl
  | false =>
    simp only [Bool.not_true, Bool.not_false, Bool.false_eq_true, if_true, if_false, Nat.xor_zero,
      Nat.zero_xor, mem_ints, hmiss]
    rfl

/-- Both return the number that occurs twice and then the one that is missing. -/
theorem findErrorNums_agree (h : Mismatch vals dup miss) (hsize : vals.length < 2 ^ 31 - 1) :
    findErrorNums (ints vals) = some [(dup : ℤ), (miss : ℤ)] ∧
      findErrorNumsXOR (ints vals) = some [(dup : ℤ), (miss : ℤ)] ∧
      (ints vals).count (dup : ℤ) = 2 ∧ (miss : ℤ) ∉ ints vals := by
  refine ⟨h.findErrorNums_eq (by omega), h.findErrorNumsXOR_eq (by omega), ?_, ?_⟩
  · rw [count_ints, h.count_dup]
  · rw [mem_ints, h.mem_iff]
    exact fun hmem ↦ hmem.2 rfl

theorem findErrorNums_agree_four :
    findErrorNums (ints [1, 2, 2, 4]) = some [((2 : ℕ) : ℤ), ((3 : ℕ) : ℤ)] ∧
      findErrorNumsXOR (ints [1, 2, 2, 4]) = some [((2 : ℕ) : ℤ), ((3 : ℕ) : ℤ)] ∧
      (ints [1, 2, 2, 4]).count ((2 : ℕ) : ℤ) = 2 ∧ ((3 : ℕ) : ℤ) ∉ ints [1, 2, 2, 4] :=
  findErrorNums_agree ⟨[1, 2], [4], by decide, rfl, by decide, by decide⟩ (by decide)

/-- The counter goes past the last number, which overflows it for the greatest number there is. -/
theorem findErrorNumsXOR_overflow :
    ∃ vals, vals.length = 2 ^ 31 - 1 ∧ Mismatch vals 2 1 ∧
      findErrorNums (ints vals) = some [((2 : ℕ) : ℤ), ((1 : ℕ) : ℤ)] ∧
      findErrorNumsXOR (ints vals) = none := by
  obtain ⟨size, hsize⟩ : ∃ size, size + 2 = 2 ^ 31 := ⟨2147483646, rfl⟩
  obtain ⟨vals, hvals⟩ : ∃ vals, vals = 2 :: List.range' 2 size := ⟨_, rfl⟩
  have hlength : vals.length = 2 ^ 31 - 1 := by
    rw [hvals, List.length_cons, List.length_range']
    omega
  have h : Mismatch vals 2 1 := by
    have hall : List.range' 1 vals.length = 1 :: List.range' 2 size := by
      rw [hvals, List.length_cons, List.length_range', List.range'_succ]
    refine ⟨[], List.range' 2 size, ?_, hvals, ?_, by decide⟩
    · rw [hall, List.nil_append]
    · rw [hlength, List.mem_range'_1]
      omega
  refine ⟨vals, hlength, h, h.findErrorNums_eq (by omega), ?_⟩
  rw [findErrorNumsXOR, length_ints, countUp_none _ _ (by omega)]
  rfl

end CppLearn.Leetcode.SetMismatch
