import CppLearn.Foundation.HeapList
import CppLearn.Foundation.VectorAccess

/-!
# Splitting a list to parts

`splitListToParts` cuts a list into a number of parts in place. The first parts have one node more
than the others, as many as the remainder says; it is counted down past zero. Each part is collected
behind a guard of its own. The nodes, the parts and the nodes of a part are counted in an `int`.
-/

set_option autoImplicit false
set_option relaxedAutoImplicit false

namespace CppLearn.Leetcode.SplitListToParts

open Foundation.HeapList Foundation.NodeHeap
open Foundation.VectorAccess (toInt toInt_of_lt toInt_of_le)

/-! ### The program -/

/-- The first loop, with a limit on its rounds. -/
def lensLoop (heap : Heap (ListNode ℤ)) : ℕ → Ptr → ℕ → Option ℕ
  | 0, _, _ => none
  | fuel + 1, ptr, lens =>
    if ptr ≠ none then do
      let lens ← toInt (lens + 1)
      let ptr ← nextOf heap ptr
      lensLoop heap fuel ptr lens
    else some lens

/-- The inner loop, with a limit on its rounds. -/
def fillLoop (partLen : ℤ) : ℕ → Heap (ListNode ℤ) → Ptr → Ptr → ℕ →
    Option (Ptr × Ptr × Heap (ListNode ℤ))
  | 0, _, _, _, _ => none
  | fuel + 1, heap, ptr, cur, n =>
    if n ≤ partLen then do
      let heap ← setNext heap cur ptr
      let ptr ← nextOf heap ptr
      let cur ← nextOf heap cur
      let n ← toInt (n + 1)
      fillLoop partLen fuel heap ptr cur n
    else some (ptr, cur, heap)

variable (alloc : Allocator (ListNode ℤ))

/-- One round of the outer loop, with its guard: the first node of the part, and the rest. -/
def cutPart (heap : Heap (ListNode ℤ)) (ptr : Ptr) (partLen : ℤ) :
    Option (Ptr × Ptr × Heap (ListNode ℤ)) := do
  let (node, heap) := alloc.new heap ⟨0, none⟩
  let (ptr, cur, heap) ← fillLoop partLen (partLen.toNat + 1) heap ptr (some node) 1
  let heap ← setNext heap cur none
  let (part, heap) ← release heap node
  return (part, ptr, heap)

/-- The outer loop, with a limit on its rounds. -/
def partsLoop (k quotient : ℤ) : ℕ → Heap (ListNode ℤ) → Ptr → ℕ → ℤ → List Ptr →
    Option (List Ptr × Heap (ListNode ℤ))
  | 0, _, _, _, _, _ => none
  | fuel + 1, heap, ptr, i, remainder, parts =>
    if i ≤ k then do
      let (part, ptr, heap) ← cutPart alloc heap ptr (quotient + if remainder > 0 then 1 else 0)
      let i ← toInt (i + 1)
      partsLoop k quotient fuel heap ptr i (remainder - 1) (parts ++ [part])
    else some (parts, heap)

/-- `splitListToParts`; a division by zero is undefined. -/
def splitListToParts (heap : Heap (ListNode ℤ)) (root : Ptr) (k : ℤ) :
    Option (List Ptr × Heap (ListNode ℤ)) := do
  let lens ← lensLoop heap (heap.bound + 1) root 0
  if k = 0 then none
  else partsLoop alloc k (Int.tdiv lens k) (k.toNat + 1) heap root 1 (Int.tmod lens k) []

/-! ### The lengths of the parts -/

/-- The lengths of so many parts. -/
def partLengths (quotient : ℕ) : ℕ → ℤ → List ℕ
  | 0, _ => []
  | count + 1, remainder =>
    (quotient + if remainder > 0 then 1 else 0) :: partLengths quotient count (remainder - 1)

section Lengths

variable {quotient count : ℕ} {remainder : ℤ}

theorem length_partLengths : (partLengths quotient count remainder).length = count := by
  induction count generalizing remainder with
  | zero => rfl
  | succ count ih => rw [partLengths, List.length_cons, ih]

/-- As many parts have one node more as the remainder says. -/
theorem sum_partLengths (hremainder : remainder ≤ count) :
    (partLengths quotient count remainder).sum = count * quotient + remainder.toNat := by
  induction count generalizing remainder with
  | zero =>
    rw [Int.toNat_of_nonpos hremainder, Nat.zero_mul]
    rfl
  | succ count ih =>
    rw [partLengths, List.sum_cons, ih (by omega), Nat.succ_mul]
    split <;> omega

theorem mem_partLengths {length : ℕ} (hmem : length ∈ partLengths quotient count remainder) :
    quotient ≤ length ∧ length ≤ quotient + if remainder > 0 then 1 else 0 := by
  induction count generalizing remainder with
  | zero => cases hmem
  | succ count ih =>
    rcases List.mem_cons.mp hmem with rfl | hmem
    · exact ⟨Nat.le_add_right _ _, le_rfl⟩
    · obtain ⟨hle, hge⟩ := ih hmem
      refine ⟨hle, hge.trans (Nat.add_le_add_left ?_ _)⟩
      split_ifs <;> omega

theorem partLengths_pairwise : (partLengths quotient count remainder).Pairwise (· ≥ ·) := by
  induction count generalizing remainder with
  | zero => exact List.Pairwise.nil
  | succ count ih =>
    refine List.Pairwise.cons (fun length hmem ↦ ?_) ih
    refine (mem_partLengths hmem).2.trans (Nat.add_le_add_left ?_ _)
    split_ifs <;> omega

end Lengths

/-! ### The loops -/

variable {alloc} {heap heap' : Heap (ListNode ℤ)}
    {root stop : Ptr} {cells front back done : Cells ℤ} {node fuel lens n : ℕ} {partLen : ℤ}

theorem lensLoop_spec (h : Segment heap cells none) (hlens : lens + cells.length < 2 ^ 31)
    (hfuel : cells.length < fuel) :
    lensLoop heap fuel (headOf cells none) lens = some (lens + cells.length) := by
  induction cells generalizing fuel lens with
  | nil =>
    obtain ⟨fuel, rfl⟩ := Nat.exists_eq_succ_of_ne_zero (Nat.ne_of_gt hfuel)
    rfl
  | cons cell cells ih =>
    obtain ⟨fuel, rfl⟩ := Nat.exists_eq_succ_of_ne_zero (Nat.ne_of_gt (Nat.zero_lt_of_lt hfuel))
    rw [List.length_cons] at hlens
    rw [lensLoop, if_pos headOf_cons_ne_none, toInt_of_lt (by omega), Option.bind_eq_bind,
      Option.bind_some, h.nextOf, Option.bind_eq_bind, Option.bind_some,
      ih h.2 (by omega) (Nat.lt_of_succ_lt_succ hfuel), List.length_cons, Nat.add_assoc,
      Nat.add_comm 1]

/-- The next nodes of the list go behind those that the part has already. -/
theorem fillLoop_spec (hdone : Segment heap ((node, 0) :: done) stop)
    (htodo : Segment heap (front ++ back) none)
    (hnodup : (node :: addresses (done ++ (front ++ back))).Nodup)
    (hlen : n + front.length = partLen + 1) (hbound : partLen + 1 < 2 ^ 31)
    (hfuel : front.length < fuel) :
    ∃ heap' stop', fillLoop partLen fuel heap (headOf (front ++ back) none)
      (some (lastOf node done)) n =
        some (headOf back none, some (lastOf node (done ++ front)), heap') ∧
      Segment heap' ((node, 0) :: (done ++ front)) stop' ∧ Segment heap' back none ∧
      SameOff {other | other ∈ node :: addresses (done ++ front)} heap heap' := by
  induction front generalizing heap done stop n fuel with
  | nil =>
    obtain ⟨fuel, rfl⟩ := Nat.exists_eq_succ_of_ne_zero (Nat.ne_of_gt hfuel)
    rw [List.append_nil]
    refine ⟨heap, stop, ?_, hdone, htodo, .refl _ heap⟩
    rw [fillLoop, if_neg (by rw [List.length_nil] at hlen; omega), List.nil_append]
  | cons cell front ih =>
    obtain ⟨fuel, rfl⟩ := Nat.exists_eq_succ_of_ne_zero (Nat.ne_of_gt (Nat.zero_lt_of_lt hfuel))
    obtain ⟨address, val⟩ := cell
    rw [List.length_cons] at hlen hfuel
    have hnodup' := hnodup
    rw [addresses_append, ← List.cons_append, List.nodup_append'] at hnodup'
    obtain ⟨hnodupDone, -, hdisjoint⟩ := hnodup'
    obtain ⟨heap1, hset, hnext, hdone1, hsame⟩ := hdone.setLast hnodupDone (some address)
    have htodo1 : Segment heap1 ((address, val) :: (front ++ back)) none :=
      htodo.off hsame fun hmem ↦ hdisjoint lastOf_mem hmem
    -- The node that the part has been linked to belongs to it from now on.
    have hdone2 : Segment heap1 ((node, 0) :: (done ++ [(address, val)]))
        (headOf (front ++ back) none) := by
      rw [← List.cons_append]
      exact segment_append.mpr ⟨hdone1, htodo1.1, trivial⟩
    have hassoc : done ++ (((address, val) :: front) ++ back) =
        (done ++ [(address, val)]) ++ (front ++ back) := by
      rw [List.append_assoc, List.singleton_append, List.cons_append]
    rw [hassoc] at hnodup
    obtain ⟨heap', stop', hloop, hpart, hback, hsame'⟩ := @ih heap1 _ (done ++ [(address, val)])
      fuel (n + 1) hdone2 htodo1.2 hnodup (by push_cast at hlen ⊢; omega)
      (Nat.lt_of_succ_lt_succ hfuel)
    rw [List.append_assoc, List.singleton_append] at hloop hpart hsame'
    rw [lastOf_append, lastOf_cons, lastOf_nil] at hloop
    refine ⟨heap', stop', ?_, hpart, hback, ?_⟩
    · rw [fillLoop, if_pos (by push_cast at hlen; omega), List.cons_append, headOf_cons, hset]
      simp only [Option.bind_eq_bind, Option.bind_some, nextOf_some htodo1.1, hnext,
        toInt_of_lt (show n + 1 < 2 ^ 31 by omega)]
      exact hloop
    · refine (hsame.mono (Set.singleton_subset_iff.mpr ?_)).trans hsame'
      rw [Set.mem_ofPred_eq, addresses_append, ← List.cons_append]
      exact List.mem_append_left _ lastOf_mem

/-- One part is cut off the front of the list. -/
theorem cutPart_spec (h : Segment heap (front ++ back) none) (hlen : (front.length : ℤ) = partLen)
    (hbound : partLen + 1 < 2 ^ 31) :
    ∃ heap', cutPart alloc heap (headOf (front ++ back) none) partLen =
      some (headOf front none, headOf back none, heap') ∧ Segment heap' front none ∧
      Segment heap' back none ∧ SameOff {address | address ∈ addresses front} heap heap' := by
  have hfree := alloc.free heap
  set node := alloc.address heap with hnode
  have hnot : node ∉ addresses (front ++ back) := h.notMem hfree
  have hguard : Segment (heap.set node ⟨0, none⟩) [(node, (0 : ℤ))] none :=
    ⟨Heap.set_node_self, trivial⟩
  obtain ⟨heap1, stop, hfill, hpart1, hback1, hsame1⟩ := @fillLoop_spec _ none front back [] node
    (partLen.toNat + 1) 1 partLen hguard (h.set hnot) (List.nodup_cons.mpr ⟨hnot, h.nodup⟩)
    (by push_cast; omega) hbound (by omega)
  rw [List.nil_append] at hfill hpart1 hsame1
  have hnodup := h.nodup
  rw [addresses_append, List.mem_append, not_or] at hnot
  rw [addresses_append, List.nodup_append'] at hnodup
  obtain ⟨heap2, hset, -, hpart2, hsame2⟩ :=
    hpart1.setLast (List.nodup_cons.mpr ⟨hnot.1, hnodup.1⟩) none
  have hback2 : Segment heap2 back none := hback1.off hsame2 fun hlast ↦ by
    rcases List.mem_cons.mp (@lastOf_mem ℤ front node) with heq | hmem
    · exact hnot.2 (heq ▸ hlast)
    · exact hnodup.2.2 hmem hlast
  have hsame : SameOff {other | other ∈ node :: addresses front} heap heap2 :=
    ((sameOff_set_of_mem List.mem_cons_self heap _).trans hsame1).trans
      (hsame2.mono (Set.singleton_subset_iff.mpr lastOf_mem))
  obtain ⟨heap', hrelease, hlist, hsame', hoff⟩ := hpart2.release hfree hsame
  refine ⟨heap', ?_, hlist.segment, hback2.off hoff hnot.2, hsame'⟩
  rw [cutPart, Allocator.new]
  simp only [Option.bind_eq_bind, ← hnode]
  rw [lastOf_nil] at hfill
  simp only [hfill, Option.bind_some, hset, hrelease]
  rfl

/-- Each round cuts one part off, and leaves the parts that there are already. -/
theorem partsLoop_spec {k quotient count i : ℕ} {remainder : ℤ} {parts : List Ptr}
    (h : Segment heap cells none) (hi : i + count = k + 1) (hk : k + 1 < 2 ^ 31)
    (hlen : cells.length = (partLengths quotient count remainder).sum)
    (hbound : ∀ length ∈ partLengths quotient count remainder, length + 1 < 2 ^ 31)
    (hfuel : count < fuel) :
    ∃ (heap' : Heap (ListNode ℤ)) (new : List (Cells ℤ)),
      partsLoop alloc k quotient fuel heap (headOf cells none) i remainder parts =
        some (parts ++ new.map (headOf · none), heap') ∧ new.flatten = cells ∧
      new.map List.length = partLengths quotient count remainder ∧
      (∀ part ∈ new, Segment heap' part none) ∧
      SameOff {address | address ∈ addresses cells} heap heap' := by
  induction count generalizing heap cells i remainder parts fuel with
  | zero =>
    obtain ⟨fuel, rfl⟩ := Nat.exists_eq_succ_of_ne_zero (Nat.ne_of_gt hfuel)
    obtain rfl : cells = [] := List.eq_nil_of_length_eq_zero hlen
    refine ⟨heap, [], ?_, rfl, rfl, List.forall_mem_nil _, .refl _ heap⟩
    rw [partsLoop, if_neg (by omega), List.map_nil, List.append_nil]
  | succ count ih =>
    obtain ⟨fuel, rfl⟩ := Nat.exists_eq_succ_of_ne_zero (Nat.ne_of_gt (Nat.zero_lt_of_lt hfuel))
    rw [partLengths, List.forall_mem_cons] at hbound
    rw [partLengths, List.sum_cons] at hlen
    set length := quotient + if remainder > 0 then 1 else 0 with hlength
    have hfront : (cells.take length).length = length := by
      rw [List.length_take]
      omega
    have hback : (cells.drop length).length =
        (partLengths quotient count (remainder - 1)).sum := by
      rw [List.length_drop]
      omega
    have hcast : (quotient : ℤ) + (if remainder > 0 then 1 else 0) = length := by
      rw [hlength]
      split_ifs <;> rfl
    rw [← cells.take_append_drop length] at h
    obtain ⟨heap1, hcut, hpart1, hback1, hsame1⟩ := @cutPart_spec alloc heap _ _ length h
      (congrArg Nat.cast hfront) (by have := hbound.1; omega)
    obtain ⟨heap', new, hloop, hflatten, hlengths, hparts, hsame⟩ := @ih heap1
      (cells.drop length) fuel (i + 1) (remainder - 1) (parts ++ [headOf (cells.take length) none])
      hback1 (by omega) hback hbound.2 (Nat.lt_of_succ_lt_succ hfuel)
    have hnodup := h.nodup
    rw [addresses_append, List.nodup_append'] at hnodup
    refine ⟨heap', cells.take length :: new, ?_, ?_, ?_, ?_, ?_⟩
    · rw [partsLoop, if_pos (by omega), hcast]
      rw [List.take_append_drop] at hcut
      simp only [Option.bind_eq_bind, hcut, Option.bind_some,
        toInt_of_lt (show i + 1 < 2 ^ 31 by omega), hloop, List.append_assoc,
        List.singleton_append, List.map_cons]
    · rw [List.flatten_cons, hflatten, List.take_append_drop]
    · rw [List.map_cons, hlengths, hfront, partLengths]
    · refine List.forall_mem_cons.mpr ⟨hpart1.frame hsame fun address hmem hother ↦ ?_, hparts⟩
      exact hnodup.2.2 hmem hother
    · refine (hsame1.mono fun address hmem ↦ ?_).trans (hsame.mono fun address hmem ↦ ?_)
      · exact ((List.take_sublist length cells).map Prod.fst).mem hmem
      · exact ((List.drop_sublist length cells).map Prod.fst).mem hmem

/-! ### The parts -/

/-- `splitListToParts` returns so many parts, which are the list one behind the other. They get
shorter by a node at most, and never longer. -/
def Splits (alloc : Allocator (ListNode ℤ))
    (heap : Heap (ListNode ℤ)) (root : Ptr) (cells : Cells ℤ) (k : ℕ) : Prop :=
  ∃ (heap' : Heap (ListNode ℤ)) (parts : List (Cells ℤ)),
    splitListToParts alloc heap root k = some (parts.map (headOf · none), heap') ∧
    parts.length = k ∧ parts.flatten = cells ∧ (∀ part ∈ parts, Segment heap' part none) ∧
    (parts.map List.length).Pairwise (· ≥ ·) ∧
    (∀ first ∈ parts, ∀ second ∈ parts, first.length ≤ second.length + 1) ∧
    SameOff {address | address ∈ addresses cells} heap heap'

/-- It does so where an `int` can count the nodes, one part more than there are, and one node more
than there are in a part. -/
theorem splits {k : ℕ} (h : IsList heap root cells) (hlength : cells.length < 2 ^ 31) (hk : 1 ≤ k)
    (hbound : k < 2 ^ 31 - 1) (hwhole : ¬ (cells.length = 2 ^ 31 - 1 ∧ k = 1)) :
    Splits alloc heap root cells k := by
  obtain ⟨rfl, hsegment⟩ := h
  have hlens := @lensLoop_spec heap cells (heap.bound + 1) 0 hsegment (by omega)
    (Nat.lt_succ_of_le (hsegment.length_le hsegment.nodup))
  rw [Nat.zero_add] at hlens
  have hremainder : cells.length % k < k := Nat.mod_lt _ hk
  have hsum : cells.length =
      (partLengths (cells.length / k) k (cells.length % k : ℕ)).sum := by
    rw [sum_partLengths (by omega), Int.toNat_natCast]
    exact (Nat.div_add_mod cells.length k).symm
  have hparts : ∀ length ∈ partLengths (cells.length / k) k (cells.length % k : ℕ),
      length + 1 < 2 ^ 31 := by
    intro length hmem
    have hle := (mem_partLengths hmem).2
    by_cases hone : k = 1
    · have hne : cells.length ≠ 2 ^ 31 - 1 := fun heq ↦ hwhole ⟨heq, hone⟩
      rw [hone, Nat.div_one, Nat.mod_one, if_neg (by decide)] at hle
      omega
    · have hhalf : cells.length / k ≤ cells.length / 2 :=
        Nat.div_le_div_left (by omega) Nat.two_pos
      split_ifs at hle <;> omega
  obtain ⟨heap', parts, hloop, hflatten, hlengths, hsegments, hsame⟩ :=
    @partsLoop_spec alloc heap cells (k + 1) k (cells.length / k) k 1 (cells.length % k : ℕ) []
      hsegment (Nat.add_comm 1 k) (by omega) hsum hparts (Nat.lt_succ_self k)
  refine ⟨heap', parts, ?_, ?_, hflatten, hsegments, ?_, ?_, hsame⟩
  · rw [splitListToParts, hlens, Option.bind_eq_bind, Option.bind_some, if_neg (by omega),
      ← Int.ofNat_tdiv, ← Int.ofNat_tmod, Int.toNat_natCast, hloop, List.nil_append]
  · rw [← List.length_map, hlengths, length_partLengths]
  · rw [hlengths]
    exact partLengths_pairwise
  · intro first hfirst second hsecond
    have hmem {part : Cells ℤ} (hpart : part ∈ parts) :
        part.length ∈ partLengths (cells.length / k) k (cells.length % k : ℕ) :=
      hlengths ▸ List.mem_map_of_mem hpart
    have hle := (mem_partLengths (hmem hfirst)).2
    have hge := (mem_partLengths (hmem hsecond)).1
    split_ifs at hle <;> omega

/-- A list of three nodes, in two parts. -/
theorem splits_three :
    let heap := ((Heap.empty.set 0 ⟨5, some 1⟩).set 1 ⟨6, some 2⟩).set 2 ⟨7, none⟩
    Splits .next heap (some 0) [(0, 5), (1, 6), (2, 7)] 2 := by
  intro heap
  have h : IsList heap (some 0) [(0, 5), (1, 6), (2, 7)] := ⟨rfl, rfl, rfl, rfl, trivial⟩
  exact splits h (by decide) (by decide) (by decide) (by decide)

/-! ### Too much to count -/

/-- More nodes than an `int` can count. -/
theorem lensLoop_eq_none (h : Segment heap cells none) (hlens : lens < 2 ^ 31)
    (hlong : 2 ^ 31 ≤ lens + cells.length) :
    lensLoop heap fuel (headOf cells none) lens = none := by
  induction cells generalizing fuel lens with
  | nil => exact absurd hlens (Nat.not_lt.mpr hlong)
  | cons cell cells ih =>
    cases fuel with
    | zero => rfl
    | succ fuel =>
      rw [List.length_cons] at hlong
      rw [lensLoop, if_pos headOf_cons_ne_none]
      by_cases hnext : lens + 1 < 2 ^ 31
      · rw [toInt_of_lt hnext, Option.bind_eq_bind, Option.bind_some, h.nextOf,
          Option.bind_eq_bind, Option.bind_some]
        exact ih h.2 hnext (by omega)
      · rw [toInt_of_le (Nat.not_lt.mp hnext)]
        rfl

/-- The greatest `int` is no length of a part: what counts its nodes comes past it. -/
theorem fillLoop_eq_none {ptr cur : Ptr} (hn : n < 2 ^ 31) :
    fillLoop (2 ^ 31 - 1) fuel heap ptr cur n = none := by
  induction fuel generalizing heap ptr cur n with
  | zero => rfl
  | succ fuel ih =>
    rw [fillLoop, if_pos (by omega)]
    refine Option.eq_none_iff_forall_ne_some.mpr fun result hrun ↦ ?_
    simp only [Option.bind_eq_bind, Option.bind_eq_some_iff] at hrun
    obtain ⟨heap1, -, ptr1, -, cur1, -, n1, hn1, hrest⟩ := hrun
    rw [toInt] at hn1
    split_ifs at hn1 with hlt
    obtain rfl := Option.some.inj hn1
    cases (ih hlt).symm.trans hrest

theorem cutPart_eq_none {ptr : Ptr} : cutPart alloc heap ptr (2 ^ 31 - 1) = none := by
  rw [cutPart]
  simp only [Option.bind_eq_bind, @fillLoop_eq_none _ _ 1 _ _ (by decide), Option.bind_none]

/-- Nor is it a number of parts. -/
theorem partsLoop_eq_none {quotient remainder : ℤ} {ptr : Ptr} {i : ℕ} {parts : List Ptr}
    (hi : i < 2 ^ 31) :
    partsLoop alloc (2 ^ 31 - 1) quotient fuel heap ptr i remainder parts = none := by
  induction fuel generalizing heap ptr i remainder parts with
  | zero => rfl
  | succ fuel ih =>
    rw [partsLoop, if_pos (by omega)]
    refine Option.eq_none_iff_forall_ne_some.mpr fun result hrun ↦ ?_
    simp only [Option.bind_eq_bind, Option.bind_eq_some_iff] at hrun
    obtain ⟨⟨part, ptr1, heap1⟩, -, i1, hi1, hrest⟩ := hrun
    rw [toInt] at hi1
    split_ifs at hi1 with hlt
    obtain rfl := Option.some.inj hi1
    cases (ih hlt).symm.trans hrest

theorem not_splits_of_length {k : ℕ} (h : IsList heap root cells)
    (hlength : 2 ^ 31 ≤ cells.length) : ¬ Splits alloc heap root cells k := by
  rintro ⟨heap', parts, hrun, -⟩
  obtain ⟨rfl, hsegment⟩ := h
  rw [splitListToParts, lensLoop_eq_none hsegment (by decide) (by rwa [Nat.zero_add])] at hrun
  cases hrun

theorem not_splits_of_count : ¬ Splits alloc heap root cells (2 ^ 31 - 1) := by
  rintro ⟨heap', parts, hrun, -⟩
  rw [splitListToParts] at hrun
  obtain ⟨lens, -, hrun⟩ := Option.bind_eq_some_iff.mp hrun
  rw [if_neg (by decide)] at hrun
  cases (partsLoop_eq_none (by decide)).symm.trans hrun

theorem not_splits_of_part (h : IsList heap root cells) (hlength : cells.length = 2 ^ 31 - 1) :
    ¬ Splits alloc heap root cells 1 := by
  rintro ⟨heap', parts, hrun, -⟩
  obtain ⟨rfl, hsegment⟩ := h
  have hlens := @lensLoop_spec heap cells (heap.bound + 1) 0 hsegment (by omega)
    (Nat.lt_succ_of_le (hsegment.length_le hsegment.nodup))
  have hlen : Int.tdiv ((2 ^ 31 - 1 : ℕ) : ℤ) ((1 : ℕ) : ℤ) +
      (if Int.tmod ((2 ^ 31 - 1 : ℕ) : ℤ) ((1 : ℕ) : ℤ) > 0 then 1 else 0) = 2 ^ 31 - 1 := by
    decide
  rw [splitListToParts, hlens, Nat.zero_add, hlength, Option.bind_eq_bind, Option.bind_some,
    if_neg (by decide), partsLoop, if_pos (by decide), hlen, cutPart_eq_none] at hrun
  cases hrun

/-- A list of two to the power of 31 nodes is not split to parts, none is split to as many parts as
the greatest `int` says, and one of as many nodes is not split to one part. -/
theorem not_splits_long :
    (∃ heap root cells, IsList heap root cells ∧ cells.length = 2 ^ 31 ∧
      ¬ Splits .next heap root cells 1) ∧
    (IsList (Heap.empty : Heap (ListNode ℤ)) none [] ∧
      ¬ Splits .next Heap.empty none [] (2 ^ 31 - 1)) ∧
    ∃ heap root cells, IsList heap root cells ∧ cells.length = 2 ^ 31 - 1 ∧
      ¬ Splits .next heap root cells 1 := by
  refine ⟨?_, ⟨⟨rfl, segment_nil⟩, not_splits_of_count⟩, ?_⟩
  · obtain ⟨heap, cells, h, hlength⟩ := exists_isList (0 : ℤ) (2 ^ 31)
    exact ⟨heap, _, cells, h, hlength, not_splits_of_length h hlength.ge⟩
  · obtain ⟨heap, cells, h, hlength⟩ := exists_isList (0 : ℤ) (2 ^ 31 - 1)
    exact ⟨heap, _, cells, h, hlength, not_splits_of_part h hlength⟩

end CppLearn.Leetcode.SplitListToParts
