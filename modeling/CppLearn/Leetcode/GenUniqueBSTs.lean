import CppLearn.Foundation.Enumeration
import CppLearn.Foundation.SearchTree
import CppLearn.Leetcode.NumUniqueBSTs

/-!
# The search trees on a range of keys

`generateTrees` makes the search trees on the keys from one on: for each root, of the trees on the
keys before it and those on the keys behind it, with a node of its own for each pair. Trees share
their subtrees with other trees. There are as many as `numTrees` counts. The keys are of type `int`.
-/

set_option autoImplicit false
set_option relaxedAutoImplicit false

namespace CppLearn.Leetcode.GenUniqueBSTs

open Foundation.Enumeration Foundation.HeapTree Foundation.NodeHeap Foundation.SearchTree
open Foundation.VectorAccess (intOf intOf_of_fits)
open NumUniqueBSTs

/-! ### The program -/

variable (alloc : Allocator (TreeNode ℤ))

/-- The loop over `rtrees`. -/
def rightLoop (i : ℤ) (l : Ptr) : List Ptr → List Ptr → Heap (TreeNode ℤ) →
    Option (List Ptr × Heap (TreeNode ℤ))
  | [], trees, heap => some (trees, heap)
  | r :: rtrees, trees, heap => do
    let (root, heap) := alloc.new heap ⟨i, none, none⟩
    let heap ← heap.modify (some root) fun node ↦ { node with left := l }
    let heap ← heap.modify (some root) fun node ↦ { node with right := r }
    rightLoop i l rtrees (trees ++ [some root]) heap

/-- The loop over `ltrees`. -/
def leftLoop (i : ℤ) (rtrees : List Ptr) : List Ptr → List Ptr → Heap (TreeNode ℤ) →
    Option (List Ptr × Heap (TreeNode ℤ))
  | [], trees, heap => some (trees, heap)
  | l :: ltrees, trees, heap => do
    let (trees, heap) ← rightLoop alloc i l rtrees trees heap
    leftLoop i rtrees ltrees trees heap

/-- The loop over the roots around its calls, with a limit on its rounds. -/
def rootLoop (call : Heap (TreeNode ℤ) → ℤ → ℤ → Option (List Ptr × Heap (TreeNode ℤ)))
    (begin last : ℤ) : ℕ → ℤ → List Ptr → Heap (TreeNode ℤ) →
    Option (List Ptr × Heap (TreeNode ℤ))
  | 0, _, _, _ => none
  | fuel + 1, i, trees, heap =>
    if i ≤ last then do
      let before ← intOf (i - 1)
      let (ltrees, heap) ← call heap begin before
      let after ← intOf (i + 1)
      let (rtrees, heap) ← call heap after last
      let (trees, heap) ← leftLoop alloc i rtrees ltrees trees heap
      let i ← intOf (i + 1)
      rootLoop call begin last fuel i trees heap
    else some (trees, heap)

/-- `generateTreesImpl`, with a limit on the depth of its recursion. -/
def generateTreesImpl : ℕ → Heap (TreeNode ℤ) → ℤ → ℤ → Option (List Ptr × Heap (TreeNode ℤ))
  | 0, _, _, _ => none
  | fuel + 1, heap, begin, last =>
    if begin > last then some ([none], heap)
    else rootLoop alloc (generateTreesImpl fuel) begin last ((last - begin).toNat + 2) begin [] heap

def generateTrees (heap : Heap (TreeNode ℤ)) (n : ℤ) : Option (List Ptr × Heap (TreeNode ℤ)) :=
  if n < 1 then some ([], heap) else generateTreesImpl alloc (n.toNat + 1) heap 1 n

/-! ### The trees on a range of keys -/

/-- The keys from one on, so many. -/
def keys (begin : ℤ) (count : ℕ) : List ℤ := (List.range count).map fun offset : ℕ ↦ begin + offset

variable {begin : ℤ} {count offset : ℕ}

theorem length_keys : (keys begin count).length = count := by
  rw [keys, List.length_map, List.length_range]

theorem mem_keys {key : ℤ} : key ∈ keys begin count ↔ begin ≤ key ∧ key < begin + count := by
  rw [keys, List.mem_map]
  constructor
  · rintro ⟨offset, hmem, rfl⟩
    have hlt := List.mem_range.mp hmem
    omega
  · rintro ⟨hle, hlt⟩
    exact ⟨(key - begin).toNat, List.mem_range.mpr (by omega), by omega⟩

theorem keys_pairwise : (keys begin count).Pairwise (· < ·) := by
  rw [keys, List.pairwise_map]
  exact List.pairwise_lt_range.imp fun hlt ↦ by omega

theorem keys_split (begin : ℤ) (offset rest : ℕ) : keys begin (offset + (rest + 1)) =
    keys begin offset ++ (begin + offset) :: keys (begin + offset + 1) rest := by
  rw [keys, List.range_add, List.map_append, List.map_map, List.range_succ_eq_map, List.map_cons,
    List.map_map]
  congr 2
  refine List.map_congr_left fun other _ ↦ ?_
  simp only [Function.comp_apply]
  push_cast
  omega

/-- A tree whose nodes have the keys in order has a root among them, and trees on the keys before
and behind it. -/
theorem inorder_node_iff {val : ℤ} {left right : BinaryTree ℤ} :
    inorder (.node val left right) = keys begin count ↔
      ∃ offset rest, offset + (rest + 1) = count ∧ val = begin + offset ∧
        inorder left = keys begin offset ∧ inorder right = keys (begin + offset + 1) rest := by
  rw [inorder_node]
  constructor
  · intro heq
    have hlength := congrArg List.length heq
    rw [List.length_append, List.length_cons, length_keys] at hlength
    rw [← hlength, keys_split] at heq
    obtain ⟨hleft, htail⟩ := List.append_inj heq length_keys.symm
    obtain ⟨hval, hright⟩ := List.cons.inj htail
    exact ⟨_, _, hlength, hval, hleft, hright⟩
  · rintro ⟨offset, rest, rfl, rfl, hleft, hright⟩
    rw [hleft, hright, keys_split]

/-- The root has one of the keys. -/
theorem root_mem_keys {val : ℤ} {left right : BinaryTree ℤ}
    (hkeys : inorder (.node val left right) = keys begin count) :
    begin ≤ val ∧ val < begin + count := by
  rw [← mem_keys, ← hkeys, inorder_node]
  exact List.mem_append_right _ List.mem_cons_self

/-- The search trees on the keys are those whose nodes have them in order. -/
theorem inorder_eq_keys_iff {tree : BinaryTree ℤ} : inorder tree = keys begin count ↔
    Ascending id tree ∧ ∀ key, key ∈ inorder tree ↔ begin ≤ key ∧ key < begin + count := by
  constructor
  · intro heq
    rw [Ascending, heq]
    exact ⟨keys_pairwise, fun key ↦ mem_keys⟩
  · rintro ⟨hascending, hmem⟩
    have hperm : (inorder tree).Perm (keys begin count) :=
      (List.perm_ext_iff_of_nodup (hascending.imp fun hlt ↦ hlt.ne)
        (keys_pairwise.imp fun hlt ↦ hlt.ne)).mpr fun key ↦ (hmem key).trans mem_keys.symm
    exact hperm.eq_of_pairwise (fun first second _ _ hlt hgt ↦ absurd hgt (lt_asymm hlt)) hascending
      keys_pairwise

/-! ### The nodes -/

/-- A pointer to a tree of nodes that are new since a heap. -/
def Grown (heap heap' : Heap (TreeNode ℤ)) (ptr : Ptr) (tree : BinaryTree ℤ) : Prop :=
  ∃ placed, root placed = ptr ∧ contents placed = tree ∧ Planted heap placed heap'

variable {alloc} {heap leftHeap rightHeap later : Heap (TreeNode ℤ)} {l : Ptr} {i last : ℤ}
    {rtrees ltrees trees : List Ptr} {left : BinaryTree ℤ} {lefts rights done : List (BinaryTree ℤ)}

theorem Grown.within {before after : Heap (TreeNode ℤ)} {ptr : Ptr} {tree : BinaryTree ℤ}
    (h : Grown leftHeap rightHeap ptr tree) (hbefore : Extends before leftHeap)
    (hafter : Extends rightHeap after) : Grown before after ptr tree := by
  obtain ⟨placed, hroot, hcontents, hplanted⟩ := h
  exact ⟨placed, hroot, hcontents, hplanted.within hbefore hafter⟩

theorem grown_within {before after : Heap (TreeNode ℤ)}
    (h : List.Forall₂ (Grown leftHeap rightHeap) trees done) (hbefore : Extends before leftHeap)
    (hafter : Extends rightHeap after) : List.Forall₂ (Grown before after) trees done :=
  h.imp fun _ _ hgrown ↦ hgrown.within hbefore hafter

/-- Each tree of `rtrees` gets a node above it and the tree at `l`. -/
theorem rightLoop_spec (hl : Grown heap leftHeap l left)
    (hrtrees : List.Forall₂ (Grown leftHeap rightHeap) rtrees rights)
    (htrees : List.Forall₂ (Grown heap later) trees done) (hlater : Extends rightHeap later) :
    ∃ trees' heap', rightLoop alloc i l rtrees trees later = some (trees', heap') ∧
      Extends later heap' ∧
      List.Forall₂ (Grown heap heap') trees' (done ++ rights.map (.node i left ·)) := by
  induction hrtrees generalizing trees done later with
  | nil => exact ⟨trees, later, rfl, .refl later, by rwa [List.map_nil, List.append_nil]⟩
  | @cons r right rtrees rights hr hrest ih =>
    obtain ⟨address, haddress, hfree⟩ := alloc.exists_address later
    have hextends : Extends later (later.set address ⟨i, l, r⟩) := extends_set hfree _
    have hnew : Grown heap (later.set address ⟨i, l, r⟩) (some address) (.node i left right) := by
      obtain ⟨placedLeft, rfl, rfl, hleft⟩ := hl
      obtain ⟨placedRight, rfl, rfl, hright⟩ := hr
      exact ⟨.node (address, i) placedLeft placedRight, rfl, rfl,
        hleft.above hright hlater hfree i⟩
    obtain ⟨trees', heap', hloop, hextends', hgrown⟩ := @ih (later.set address ⟨i, l, r⟩)
      (trees ++ [some address]) (done ++ [.node i left right])
      (List.rel_append (grown_within htrees (.refl heap) hextends) (.cons hnew .nil))
      (hlater.trans hextends)
    refine ⟨trees', heap', ?_, hextends.trans hextends', ?_⟩
    · simp only [rightLoop, Allocator.new, haddress, Option.bind_eq_bind, Option.bind_some,
        Heap.modify_some Heap.set_node_self, Heap.set_set]
      exact hloop
    · rwa [List.map_cons, List.append_cons]

/-- So do all pairs of a tree of `ltrees` and one of `rtrees`. -/
theorem leftLoop_spec (hltrees : List.Forall₂ (Grown heap leftHeap) ltrees lefts)
    (hrtrees : List.Forall₂ (Grown leftHeap rightHeap) rtrees rights)
    (htrees : List.Forall₂ (Grown heap later) trees done) (hlater : Extends rightHeap later) :
    ∃ trees' heap', leftLoop alloc i rtrees ltrees trees later = some (trees', heap') ∧
      Extends later heap' ∧ List.Forall₂ (Grown heap heap') trees'
        (done ++ lefts.flatMap fun left ↦ rights.map (.node i left ·)) := by
  induction hltrees generalizing trees done later with
  | nil => exact ⟨trees, later, rfl, .refl later, by rwa [List.flatMap_nil, List.append_nil]⟩
  | @cons l left ltrees lefts hl hrest ih =>
    obtain ⟨trees1, heap1, hright, hextends1, hgrown1⟩ :=
      @rightLoop_spec alloc _ _ _ _ _ i _ _ _ _ _ hl hrtrees htrees hlater
    obtain ⟨trees', heap', hloop, hextends', hgrown⟩ := ih hgrown1 (hlater.trans hextends1)
    refine ⟨trees', heap', ?_, hextends1.trans hextends', ?_⟩
    · rw [leftLoop, hright, Option.bind_eq_bind, Option.bind_some]
      exact hloop
    · rwa [List.flatMap_cons, ← List.append_assoc]

/-! ### The roots -/

/-- The pointers are to the search trees on a range of keys, each once and as many as counted. -/
structure Forest (begin : ℤ) (count : ℕ) (heap : Heap (TreeNode ℤ)) (ptrs : List Ptr)
    (trees : List (BinaryTree ℤ)) (heap' : Heap (TreeNode ℤ)) : Prop where
  old : Extends heap heap'
  grown : List.Forall₂ (Grown heap heap') ptrs trees
  enumerates : Enumerates trees fun tree ↦ inorder tree = keys begin count
  length_eq : trees.length = numTrees count

/-- A search tree on the keys whose root is not before one of them. -/
def RootFrom (begin : ℤ) (count : ℕ) (first : ℤ) (tree : BinaryTree ℤ) : Prop :=
  inorder tree = keys begin count ∧ ∃ val left right, tree = .node val left right ∧ first ≤ val

/-- The trees with one root, and those with later ones. -/
theorem enumerates_roots {rest : ℕ} {first second more : List (BinaryTree ℤ)}
    (hfirst : Enumerates first fun tree ↦ inorder tree = keys begin offset)
    (hsecond : Enumerates second fun tree ↦ inorder tree = keys (begin + offset + 1) rest)
    (hcount : offset + (rest + 1) = count)
    (hmore : Enumerates more (RootFrom begin count (begin + offset + 1))) :
    Enumerates ((first.flatMap fun left ↦ second.map (.node (begin + offset) left ·)) ++ more)
      (RootFrom begin count (begin + offset)) := by
  have hpairs := @Enumerates.pairs _ _ _ _ _ _ _ (BinaryTree.node (begin + offset)) hfirst hsecond
    fun first second other other' heq ↦ by
      injection heq with _ hleft hright
      exact ⟨hleft, hright⟩
  refine (hpairs.append hmore ?_).congr fun tree ↦ ?_
  · rintro _ ⟨left, right, -, -, rfl⟩ ⟨-, val, left', right', heq, hlt⟩
    injection heq with hval _ _
    omega
  · constructor
    · rintro (⟨left, right, hleft, hright, rfl⟩ | ⟨hkeys, val, left, right, rfl, hle⟩)
      · exact ⟨inorder_node_iff.mpr ⟨offset, rest, hcount, rfl, hleft, hright⟩, _, left, right, rfl,
          le_rfl⟩
      · exact ⟨hkeys, val, left, right, rfl, by omega⟩
    · rintro ⟨hkeys, val, left, right, rfl, hle⟩
      rcases hle.eq_or_lt with rfl | hlt
      · obtain ⟨offset', rest', hcount', hval, hleft, hright⟩ := inorder_node_iff.mp hkeys
        obtain rfl : offset' = offset := by omega
        obtain rfl : rest' = rest := by omega
        exact .inl ⟨left, right, hleft, hright, rfl⟩
      · exact .inr ⟨hkeys, val, left, right, rfl, hlt⟩

/-- The rounds that are left make the trees whose root is still to come. -/
theorem rootLoop_spec {rest fuel : ℕ} {ptrs : List Ptr} {made : List (BinaryTree ℤ)}
    {call : Heap (TreeNode ℤ) → ℤ → ℤ → Option (List Ptr × Heap (TreeNode ℤ))}
    (hcall : ∀ (heap : Heap (TreeNode ℤ)) (begin' : ℤ) (count' : ℕ), count' < count →
      begin ≤ begin' → begin' + count' ≤ begin + count →
      ∃ ptrs trees heap', call heap begin' (begin' + count' - 1) = some (ptrs, heap') ∧
        Forest begin' count' heap ptrs trees heap')
    (hbegin : -2 ^ 31 < begin) (hend : begin + count < 2 ^ 31) (hcount : offset + rest = count)
    (hlater : Extends heap later) (hmade : List.Forall₂ (Grown heap later) ptrs made)
    (hfuel : rest < fuel) :
    ∃ ptrs' heap' new, rootLoop alloc call begin (begin + count - 1) fuel (begin + offset) ptrs
      later = some (ptrs', heap') ∧ Extends later heap' ∧
      List.Forall₂ (Grown heap heap') ptrs' (made ++ new) ∧
      Enumerates new (RootFrom begin count (begin + offset)) ∧
      new.length = ∑ i ∈ Finset.Ico offset count, numTrees (count - (i + 1)) * numTrees i := by
  induction rest generalizing offset later ptrs made fuel with
  | zero =>
    obtain ⟨fuel, rfl⟩ := Nat.exists_eq_succ_of_ne_zero (Nat.ne_of_gt hfuel)
    rw [Nat.add_zero] at hcount
    subst hcount
    refine ⟨ptrs, later, [], ?_, .refl later, by rwa [List.append_nil], enumerates_nil ?_, ?_⟩
    · rw [rootLoop, if_neg (by omega)]
    · rintro tree ⟨hkeys, val, left, right, rfl, hle⟩
      have hlt := (root_mem_keys hkeys).2
      omega
    · rw [Finset.Ico_self]
      rfl
  | succ rest ih =>
    obtain ⟨fuel, rfl⟩ := Nat.exists_eq_succ_of_ne_zero (Nat.ne_of_gt (Nat.zero_lt_of_lt hfuel))
    obtain ⟨ltrees, lefts, leftHeap, hleft, hleftForest⟩ :=
      hcall later begin offset (by omega) le_rfl (by omega)
    obtain ⟨rtrees, rights, rightHeap, hright, hrightForest⟩ :=
      hcall leftHeap (begin + offset + 1) rest (by omega) (by omega) (by omega)
    have hold := hleftForest.old.trans hrightForest.old
    obtain ⟨ptrs1, heap1, hloop1, hextends1, hgrown1⟩ := @leftLoop_spec alloc heap leftHeap
      rightHeap rightHeap (begin + offset) rtrees ltrees ptrs lefts rights made
      (grown_within hleftForest.grown hlater (.refl leftHeap)) hrightForest.grown
      (grown_within hmade (.refl heap) hold) (.refl rightHeap)
    have hlater1 := hold.trans hextends1
    obtain ⟨ptrs', heap', new, hrest, hextends', hgrown, henumerates, hlength⟩ :=
      @ih (offset + 1) heap1 fuel ptrs1 _ (by omega) (hlater.trans hlater1) hgrown1
        (Nat.lt_of_succ_lt_succ hfuel)
    have hnext : begin + ((offset + 1 : ℕ) : ℤ) = begin + offset + 1 := by
      push_cast
      omega
    rw [hnext] at hrest henumerates
    refine ⟨ptrs', heap', _, ?_, hlater1.trans hextends', List.append_assoc .. ▸ hgrown,
      enumerates_roots hleftForest.enumerates hrightForest.enumerates hcount henumerates, ?_⟩
    · have hlast : begin + offset + 1 + rest - 1 = begin + count - 1 := by omega
      rw [hlast] at hright
      rw [rootLoop, if_pos (by omega), intOf_of_fits (by omega) (by omega), Option.bind_eq_bind,
        Option.bind_some, hleft, Option.bind_eq_bind, Option.bind_some,
        intOf_of_fits (by omega) (by omega)]
      simp only [Option.bind_some, hright, hloop1]
      exact hrest
    · have hlt : offset < count := by omega
      have hrestEq : count - (offset + 1) = rest := by omega
      have hpairs : (lefts.flatMap fun left ↦
          rights.map (BinaryTree.node (begin + offset) left ·)).length =
            numTrees rest * numTrees offset := by
        rw [← hleftForest.length_eq, ← hrightForest.length_eq]
        simp [List.length_flatMap, Nat.mul_comm]
      rw [List.length_append, hlength, hpairs, Finset.sum_eq_sum_Ico_succ_bot hlt, hrestEq]

/-- The recursion makes the search trees on its range. -/
theorem generateTreesImpl_spec {fuel : ℕ} (heap : Heap (TreeNode ℤ)) (hbegin : -2 ^ 31 < begin)
    (hend : begin + count < 2 ^ 31) (hfuel : count < fuel) :
    ∃ ptrs trees heap', generateTreesImpl alloc fuel heap begin (begin + count - 1) =
      some (ptrs, heap') ∧ Forest begin count heap ptrs trees heap' := by
  induction fuel generalizing heap begin count with
  | zero => cases hfuel
  | succ fuel ih =>
    rw [generateTreesImpl]
    cases count with
    | zero =>
      refine ⟨[none], [.nil], heap, if_pos (by push_cast; omega), .refl heap,
        .cons ⟨.nil, rfl, rfl, planted_nil heap⟩ .nil, enumerates_singleton fun tree ↦ ?_, ?_⟩
      · cases tree with
        | nil => simp [keys]
        | node val left right => simp [keys]
      · rw [numTrees_zero]
        rfl
    | succ count =>
      obtain ⟨ptrs, heap', trees, hloop, hold, hgrown, henumerates, hlength⟩ :=
        @rootLoop_spec alloc begin (count + 1) 0 heap heap (count + 1) (count + 2) [] []
          (generateTreesImpl alloc fuel)
          (fun heap begin' count' hless hle hle' ↦
            ih heap (by omega) (by push_cast at hle' hend; omega) (by omega))
          hbegin hend (Nat.zero_add _) (.refl heap) .nil (Nat.lt_succ_self _)
      have hfirst : begin + ((0 : ℕ) : ℤ) = begin := Int.add_zero begin
      rw [hfirst] at hloop henumerates
      refine ⟨ptrs, trees, heap', ?_, hold, hgrown, henumerates.congr fun tree ↦ ?_, ?_⟩
      · have hrounds : (begin + ((count + 1 : ℕ) : ℤ) - 1 - begin).toNat + 2 = count + 2 := by
          push_cast
          omega
        rw [if_neg (by push_cast; omega), hrounds]
        exact hloop
      · refine and_iff_left_of_imp fun hkeys ↦ ?_
        cases tree with
        | nil =>
          have hlength := congrArg List.length hkeys
          rw [length_keys] at hlength
          cases hlength
        | node val left right =>
          exact ⟨val, left, right, rfl, (root_mem_keys hkeys).1⟩
      · rw [hlength, numTrees_eq_sum (Nat.succ_ne_zero count), Finset.range_eq_Ico]

/-! ### All search trees -/

/-- `generateTrees` makes the search trees on the keys from 1 to `n`, each once, and as many as
`numTrees` counts. -/
def Generates (alloc : Allocator (TreeNode ℤ)) (heap : Heap (TreeNode ℤ)) (n : ℕ) : Prop :=
  ∃ ptrs trees heap', generateTrees alloc heap n = some (ptrs, heap') ∧
    List.Forall₂ (Stores heap') ptrs trees ∧ trees.Nodup ∧
    (∀ tree : BinaryTree ℤ, tree ∈ trees ↔
      Ascending id tree ∧ ∀ key, key ∈ inorder tree ↔ 1 ≤ key ∧ key ≤ n) ∧
    trees.length = numTrees n ∧ Extends heap heap'

/-- It does so where the key after the last one is an `int` too. -/
theorem generates {n : ℕ} (hn : 1 ≤ n) (hlt : n < 2 ^ 31 - 1) : Generates alloc heap n := by
  obtain ⟨ptrs, trees, heap', hrun, hforest⟩ := @generateTreesImpl_spec alloc 1 n (n + 1) heap
    (by omega) (by omega) (Nat.lt_succ_self n)
  have hlast : (1 : ℤ) + n - 1 = n := by omega
  refine ⟨ptrs, trees, heap', ?_, hforest.grown.imp fun ptr tree hgrown ↦ ?_,
    hforest.enumerates.nodup, fun tree ↦ ?_, hforest.length_eq, hforest.old⟩
  · rw [generateTrees, if_neg (by omega), Int.toNat_natCast, ← hrun, hlast]
  · obtain ⟨placed, hroot, hcontents, hplanted⟩ := hgrown
    exact ⟨placed, hroot, hplanted.holds, hplanted.nodup, hcontents⟩
  · rw [hforest.enumerates.mem_iff, inorder_eq_keys_iff]
    refine and_congr_right fun _ ↦ forall_congr' fun key ↦ ?_
    rw [Int.lt_iff_add_one_le, Int.add_comm 1, Int.add_le_add_iff_right]

/-- The trees on three keys. -/
theorem generates_three : Generates .next Heap.empty 3 := generates (by decide) (by decide)

/-! ### The last key -/

/-- There is no `int` behind the greatest one. -/
theorem generateTreesImpl_eq_none {fuel : ℕ} (hbegin : begin < 2 ^ 31) :
    generateTreesImpl alloc fuel heap begin (2 ^ 31 - 1) = none := by
  induction fuel generalizing heap begin with
  | zero => rfl
  | succ fuel ih =>
    rw [generateTreesImpl, if_neg (by omega), rootLoop, if_pos (by omega)]
    refine Option.eq_none_iff_forall_ne_some.mpr fun result hrun ↦ ?_
    simp only [Option.bind_eq_bind, Option.bind_eq_some_iff] at hrun
    obtain ⟨before, -, ⟨ltrees, leftHeap⟩, -, after, hafter, ⟨rtrees, rightHeap⟩, hright, -⟩ := hrun
    rw [intOf] at hafter
    split_ifs at hafter with hfits
    obtain rfl := Option.some.inj hafter
    cases (ih hfits.2).symm.trans hright

/-- No trees are made on the keys up to the greatest `int`. -/
theorem not_generates_last : ¬ Generates .next Heap.empty (2 ^ 31 - 1) := by
  rintro ⟨ptrs, trees, heap', hrun, -⟩
  have hlast : ((2 ^ 31 - 1 : ℕ) : ℤ) = 2 ^ 31 - 1 := rfl
  rw [generateTrees, hlast, if_neg (by decide), generateTreesImpl_eq_none (by decide)] at hrun
  cases hrun

end CppLearn.Leetcode.GenUniqueBSTs
