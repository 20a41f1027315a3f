import CppLearn.Foundation.VectorAccess
import Mathlib.Algebra.BigOperators.Group.Finset.Basic
import Mathlib.Algebra.BigOperators.Intervals

/-!
# The number of search trees

`numTrees` counts the search trees on so many keys by the root: the trees on the keys before it
times those on the keys behind it. `numTreesDP` keeps the counts in a table, where zero says that
there is none yet. It adds up a count in its place in the table, which nothing reads before it is
done. Numbers are unbounded here.
-/

set_option autoImplicit false
set_option relaxedAutoImplicit false

namespace CppLearn.Leetcode.NumUniqueBSTs

open Foundation.VectorAccess

/-! ### The programs -/

def numTrees (n : ℕ) : ℕ :=
  if n = 0 then 1
  else if n ≤ 2 then n
  else (List.range' 1 n).attach.foldl
    (fun res i ↦ res + numTrees (n - i.val) * numTrees (i.val - 1)) 0
termination_by n
decreasing_by
  all_goals
    have hmem := List.mem_range'_1.mp i.property
    omega

/-- The product of two calls, evaluated in an order that C++ leaves open. -/
def product (secondFirst : Bool) (call : ℕ → List ℕ → Except Fault (ℕ × List ℕ)) (first second : ℕ)
    (dp : List ℕ) : Except Fault (ℕ × List ℕ) :=
  if secondFirst then do
    let (right, dp) ← call second dp
    let (left, dp) ← call first dp
    return (left * right, dp)
  else do
    let (left, dp) ← call first dp
    let (right, dp) ← call second dp
    return (left * right, dp)

variable (secondFirst : List ℕ → Bool)

/-- The loop of `numTreesDPImpl` around its calls, with a limit on its rounds. -/
def addLoop (call : ℕ → List ℕ → Except Fault (ℕ × List ℕ)) (n : ℕ) :
    ℕ → ℕ → List ℕ → Except Fault (List ℕ)
  | 0, _, _ => .error .outOfFuel
  | fuel + 1, i, dp =>
    if i ≤ n then do
      let (count, dp) ← product (secondFirst dp) call (n - i) (i - 1) dp
      let sum ← load dp n
      let dp ← store dp n (sum + count)
      addLoop call n fuel (i + 1) dp
    else .ok dp

/-- `numTreesDPImpl`, with a limit on the depth of its recursion. -/
def numTreesDPImpl : ℕ → ℕ → List ℕ → Except Fault (ℕ × List ℕ)
  | 0, _, _ => .error .outOfFuel
  | fuel + 1, n, dp => do
    let known ← load dp n
    if known ≠ 0 then return (known, dp)
    else do
      let dp ← addLoop secondFirst (numTreesDPImpl fuel) n (n + 1) 1 dp
      let count ← load dp n
      return (count, dp)

def numTreesDP (n : ℕ) : Except Fault ℕ := do
  let dp := List.replicate (n + 1) 0
  let dp ← store dp 1 1
  let dp ← store dp 0 1
  let (_, dp) ← numTreesDPImpl secondFirst (n + 1) n dp
  load dp n

/-! ### The sum -/

theorem foldl_range' (term : ℕ → ℕ) (n : ℕ) :
    (List.range' 1 n).foldl (fun res i ↦ res + term i) 0 = ∑ i ∈ Finset.range n, term (i + 1) := by
  induction n with
  | zero => rfl
  | succ n ih =>
    rw [List.range'_1_concat, List.foldl_append, ih, Finset.sum_range_succ, Nat.add_comm 1 n]
    rfl

theorem numTrees_zero : numTrees 0 = 1 := by rw [numTrees, if_pos rfl]

/-- A count is the sum over the roots, for one key and for two as well. -/
theorem numTrees_eq_sum {n : ℕ} (hn : n ≠ 0) :
    numTrees n = ∑ i ∈ Finset.range n, numTrees (n - (i + 1)) * numTrees i := by
  have hone : numTrees 1 = 1 := by rw [numTrees, if_neg (by decide), if_pos (by decide)]
  rw [numTrees, if_neg hn]
  split
  · next hsmall =>
    match n, hn, hsmall with
    | 1, _, _ => rw [Finset.sum_range_one, numTrees_zero]
    | 2, _, _ => rw [Finset.sum_range_succ, Finset.sum_range_one, numTrees_zero, hone]
  · have hloop := @List.foldl_attach _ _ (List.range' 1 n)
      (fun res i ↦ res + numTrees (n - i) * numTrees (i - 1)) 0
    rw [hloop, foldl_range']
    rfl

/-! ### The table -/

variable {secondFirst} {n fuel i : ℕ} {dp : List ℕ}

/-- The entries up to an index are zero or done, and the first one is done. -/
structure Memo (n : ℕ) (dp : List ℕ) : Prop where
  first : dp[0]? = some 1
  done : ∀ i ≤ n, ∀ count ∈ dp[i]?, count ≠ 0 → count = numTrees i

theorem Memo.mono {n' : ℕ} (h : Memo n dp) (hle : n' ≤ n) : Memo n' dp :=
  ⟨h.first, fun i hi ↦ h.done i (hi.trans hle)⟩

/-- Entries up to another index have been done. -/
theorem Memo.after {bound : ℕ} {dp' : List ℕ} (h : Memo bound dp) (hdone : Memo n dp')
    (hsame : ∀ i, n < i → dp'[i]? = dp[i]?) : Memo bound dp' := by
  refine ⟨hdone.first, fun i hi count hcount hne ↦ ?_⟩
  by_cases hle : i ≤ n
  · exact hdone.done i hle count hcount hne
  · rw [hsame i (not_le.mp hle)] at hcount
    exact h.done i hi count hcount hne

/-- An entry behind them is written. -/
theorem Memo.set {bound : ℕ} (h : Memo bound dp) (hlt : bound < n) (count : ℕ) :
    Memo bound (dp.set n count) := by
  refine ⟨?_, fun i hi other hother hne ↦ ?_⟩
  · rw [List.getElem?_set_ne (Nat.ne_of_gt (Nat.zero_lt_of_lt hlt))]
    exact h.first
  · rw [List.getElem?_set_ne (by omega)] at hother
    exact h.done i hi other hother hne

/-- What a call does: it returns the count and does its own entry, and maybe others before it. -/
def Counts (call : ℕ → List ℕ → Except Fault (ℕ × List ℕ)) (n : ℕ) : Prop :=
  ∀ dp : List ℕ, Memo n dp → n < dp.length → ∃ dp', call n dp = .ok (numTrees n, dp') ∧
    dp'[n]? = some (numTrees n) ∧ Memo n dp' ∧ dp'.length = dp.length ∧
    ∀ i, n < i → dp'[i]? = dp[i]?

variable {call : ℕ → List ℕ → Except Fault (ℕ × List ℕ)}

/-- Two calls, in either order. -/
theorem product_spec {bound first second : ℕ} (order : Bool) (hfirst : Counts call first)
    (hsecond : Counts call second) (hfirstLe : first ≤ bound) (hsecondLe : second ≤ bound)
    (hmemo : Memo bound dp) (hlength : bound < dp.length) :
    ∃ dp', product order call first second dp = .ok (numTrees first * numTrees second, dp') ∧
      Memo bound dp' ∧ dp'.length = dp.length ∧ ∀ i, bound < i → dp'[i]? = dp[i]? := by
  have hboth {one other : ℕ} (hone : Counts call one) (hother : Counts call other)
      (honeLe : one ≤ bound) (hotherLe : other ≤ bound) :
      ∃ dp1 dp2, call one dp = .ok (numTrees one, dp1) ∧
        call other dp1 = .ok (numTrees other, dp2) ∧
        Memo bound dp2 ∧ dp2.length = dp.length ∧ ∀ i, bound < i → dp2[i]? = dp[i]? := by
    obtain ⟨dp1, hcall1, -, hmemo1, hlength1, hsame1⟩ :=
      hone dp (hmemo.mono honeLe) (honeLe.trans_lt hlength)
    have hbound1 := hmemo.after hmemo1 hsame1
    obtain ⟨dp2, hcall2, -, hmemo2, hlength2, hsame2⟩ :=
      hother dp1 (hbound1.mono hotherLe) (by omega)
    refine ⟨dp1, dp2, hcall1, hcall2, hbound1.after hmemo2 hsame2, hlength2.trans hlength1,
      fun i hi ↦ ?_⟩
    rw [hsame2 i (by omega), hsame1 i (by omega)]
  cases order with
  | true =>
    obtain ⟨dp1, dp2, hcall1, hcall2, hrest⟩ := hboth hsecond hfirst hsecondLe hfirstLe
    refine ⟨dp2, ?_, hrest⟩
    simp only [product, if_true, hcall1, ok_bind, hcall2]
    rfl
  | false =>
    obtain ⟨dp1, dp2, hcall1, hcall2, hrest⟩ := hboth hfirst hsecond hfirstLe hsecondLe
    refine ⟨dp2, ?_, hrest⟩
    simp only [product, Bool.false_eq_true, if_false, hcall1, ok_bind, hcall2]
    rfl

/-- The rounds that are left add the products that are left. -/
theorem addLoop_spec (hcalls : ∀ count < n, Counts call count) (hi : i < n + 1)
    (hmemo : Memo (n - 1) dp) (hn : n ≠ 0)
    (hsum : dp[n]? = some (∑ j ∈ Finset.range i, numTrees (n - (j + 1)) * numTrees j))
    (hfuel : n + 1 ≤ fuel + i) :
    ∃ dp', addLoop secondFirst call n fuel (i + 1) dp = .ok dp' ∧ dp'[n]? = some (numTrees n) ∧
      Memo (n - 1) dp' ∧ dp'.length = dp.length ∧ ∀ j, n < j → dp'[j]? = dp[j]? := by
  induction fuel generalizing i dp with
  | zero => omega
  | succ fuel ih =>
    rw [addLoop]
    by_cases hin : i + 1 ≤ n
    · have hlt : n < dp.length := (List.getElem?_eq_some_iff.mp hsum).1
      obtain ⟨dp1, hproduct, hmemo1, hlength1, hsame1⟩ :=
        @product_spec dp call (n - 1) (n - (i + 1)) i (secondFirst dp)
          (hcalls _ (by omega)) (hcalls i hin) (by omega) (by omega) hmemo (by omega)
      have hload : load dp1 n =
          .ok (∑ j ∈ Finset.range i, numTrees (n - (j + 1)) * numTrees j) := by
        rw [load, hsame1 n (by omega), hsum]
      have hlt1 : n < dp1.length := hlength1 ▸ hlt
      obtain ⟨dp', hloop, hrest, hmemo', hlength', hsame'⟩ := @ih (i + 1)
        (dp1.set n (∑ j ∈ Finset.range (i + 1), numTrees (n - (j + 1)) * numTrees j)) (by omega)
        (hmemo1.set (by omega) _) (by rw [List.getElem?_set_self hlt1]) (by omega)
      refine ⟨dp', ?_, hrest, hmemo', ?_, fun j hj ↦ ?_⟩
      · rw [if_pos hin, Nat.add_sub_cancel, hproduct, ok_bind]
        simp only [hload, ok_bind, store, if_pos hlt1]
        rw [← Finset.sum_range_succ]
        exact hloop
      · rw [hlength', List.length_set, hlength1]
      · rw [hsame' j hj, List.getElem?_set_ne (Nat.ne_of_lt hj), hsame1 j (by omega)]
    · obtain rfl : i = n := by omega
      rw [if_neg hin]
      exact ⟨dp, rfl, by rw [hsum, numTrees_eq_sum hn], hmemo, rfl, fun _ _ ↦ rfl⟩

/-- An entry that is not zero is returned; another one is done first. -/
theorem numTreesDPImpl_counts (hfuel : n < fuel) :
    Counts (numTreesDPImpl secondFirst fuel) n := by
  induction fuel generalizing n with
  | zero => cases hfuel
  | succ fuel ih =>
    intro dp hmemo hlt
    rw [numTreesDPImpl, load_of_lt hlt, ok_bind]
    have hget : dp[n]? = some dp[n] := List.getElem?_eq_getElem hlt
    by_cases hknown : dp[n] ≠ 0
    · have heq := hmemo.done n le_rfl _ hget hknown
      refine ⟨dp, ?_, heq ▸ hget, hmemo, rfl, fun _ _ ↦ rfl⟩
      rw [if_pos hknown, heq]
      rfl
    · have hzero : dp[n] = 0 := not_not.mp hknown
      have hn : n ≠ 0 := by
        rintro rfl
        rw [hmemo.first, hzero] at hget
        cases hget
      obtain ⟨dp', hloop, hcount, hmemo', hlength, hsame⟩ :=
        @addLoop_spec secondFirst n (n + 1) 0 dp (numTreesDPImpl secondFirst fuel)
          (fun count hless ↦ ih (by omega)) (Nat.succ_pos n) (hmemo.mono (Nat.sub_le n 1)) hn
          (by rw [hget, hzero]; rfl) (by omega)
      refine ⟨dp', ?_, hcount, ⟨hmemo'.first, fun i hi count hentry hne ↦ ?_⟩, hlength, hsame⟩
      · have hload : load dp' n = .ok (numTrees n) := by rw [load, hcount]
        rw [if_neg hknown, hloop, ok_bind, hload]
        rfl
      · rcases hi.eq_or_lt with rfl | hless
        · rw [hcount] at hentry
          exact (Option.some.inj hentry).symm
        · exact hmemo'.done i (by omega) count hentry hne

/-! ### The two counts -/

/-- The table as it is filled before the recursion. -/
theorem memo_start (hn : n ≠ 0) : Memo n (((List.replicate (n + 1) 0).set 1 1).set 0 1) := by
  have hone : numTrees 1 = 1 := by rw [numTrees, if_neg (by decide), if_pos (by decide)]
  have hpositive : 0 < n := Nat.pos_of_ne_zero hn
  refine ⟨?_, fun i hi count hcount hne ↦ ?_⟩
  · rw [List.getElem?_set_self (by simp)]
  · match i with
    | 0 =>
      rw [List.getElem?_set_self (by simp)] at hcount
      rw [numTrees_zero, ← Option.some.inj hcount]
    | 1 =>
      rw [List.getElem?_set_ne (by decide), List.getElem?_set_self (by simp; omega)] at hcount
      rw [hone, ← Option.some.inj hcount]
    | i + 2 =>
      rw [List.getElem?_set_ne (by omega), List.getElem?_set_ne (by omega)] at hcount
      exact absurd (List.mem_replicate.mp (List.mem_of_getElem? hcount)).2 hne

/-- The table has a second entry exactly if there is a key. -/
theorem numTreesDP_iff : numTreesDP secondFirst n = .ok (numTrees n) ↔ n ≠ 0 := by
  constructor
  · rintro hrun rfl
    cases hrun
  · intro hn
    obtain ⟨dp', himpl, hcount, -⟩ :=
      @numTreesDPImpl_counts secondFirst n (n + 1) (Nat.lt_succ_self n) _ (memo_start hn) (by simp)
    have hone : store (List.replicate (n + 1) 0) 1 1 = .ok ((List.replicate (n + 1) 0).set 1 1) :=
      if_pos (by rw [List.length_replicate]; omega)
    have hzero : store ((List.replicate (n + 1) 0).set 1 1) 0 1 =
        .ok (((List.replicate (n + 1) 0).set 1 1).set 0 1) :=
      if_pos (by rw [List.length_set, List.length_replicate]; omega)
    simp only [numTreesDP, hone, ok_bind, hzero, himpl, load, hcount]

/-- No key: the second entry of a table of one entry is written. -/
theorem numTreesDP_zero : numTreesDP (fun _ ↦ false) 0 = .error (.outOfRange 1) := rfl

end CppLearn.Leetcode.NumUniqueBSTs
