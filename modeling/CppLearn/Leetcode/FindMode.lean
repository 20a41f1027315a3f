import CppLearn.Foundation.TreeLevels
import CppLearn.Foundation.VectorAccess

/-!
# The modes of a search tree

`findMode` goes over a search tree in order. Equal keys follow each other, so that a count of the
last ones shows how often a key has occurred. The keys that have occurred most often so far are kept
in a vector.
-/

set_option autoImplicit false
set_option relaxedAutoImplicit false

namespace CppLearn.Leetcode.FindMode

open Foundation.HeapTree Foundation.NodeHeap
open Foundation.TreeLevels (chain)
open Foundation.VectorAccess (toInt toInt_of_lt toInt_of_le)

/-! ### The program -/

structure Solution where
  modes : List ℤ
  pre : Ptr
  maximum : ℕ
  cnt : ℕ
  deriving DecidableEq

/-- The fields start at zero, null and empty. -/
def Solution.initial : Solution := ⟨[], none, 0, 0⟩

variable (heap : Heap (TreeNode ℤ))

/-- `cnt` at a node. -/
def countAt (solution : Solution) (val : ℤ) : Option ℕ :=
  if solution.pre ≠ none then do
    let preNode ← heap.load solution.pre
    if val = preNode.val then toInt (solution.cnt + 1) else some 1
  else some solution.cnt

/-- What `findModeImpl` does about the vector. -/
def record (solution : Solution) (cnt : ℕ) (val : ℤ) : Solution :=
  if cnt ≥ solution.maximum then
    let modes := if cnt > solution.maximum then [] else solution.modes
    { solution with modes := modes ++ [val], maximum := cnt, cnt := cnt }
  else { solution with cnt := cnt }

/-- What it does between its two calls. -/
def visit (solution : Solution) (root : Ptr) : Option Solution := do
  let node ← heap.load root
  let cnt ← countAt heap solution node.val
  some { record solution cnt node.val with pre := root }

/-- `findModeImpl`, with a limit on the depth of its recursion. -/
def findModeImpl : ℕ → Ptr → Solution → Option Solution
  | 0, _, _ => none
  | fuel + 1, root, solution =>
    if root = none then some solution
    else do
      let node ← heap.load root
      let solution ← findModeImpl fuel node.left solution
      let solution ← visit heap solution root
      findModeImpl fuel node.right solution

def findMode (fuel : ℕ) (root : Ptr) (solution : Solution) : Option (List ℤ) := do
  let solution ← findModeImpl heap fuel root { solution with cnt := 1 }
  some solution.modes

/-! ### Over the tree in order -/

variable {heap} {tree : PlacedTree ℤ} {fuel : ℕ} {solution : Solution}

/-- The nodes are visited in order. -/
theorem findModeImpl_eq (hholds : Holds heap tree) (hfuel : tree.height < fuel)
    (solution : Solution) : findModeImpl heap fuel (root tree) solution =
      ((addresses tree).map some).foldlM (visit heap) solution := by
  induction tree generalizing fuel solution with
  | nil =>
    obtain ⟨fuel, rfl⟩ := Nat.exists_eq_succ_of_ne_zero (Nat.ne_of_gt hfuel)
    rfl
  | node cell left right ihLeft ihRight =>
    obtain ⟨address, val⟩ := cell
    obtain ⟨fuel, rfl⟩ := Nat.exists_eq_succ_of_ne_zero (Nat.ne_of_gt (Nat.zero_lt_of_lt hfuel))
    rw [BinaryTree.height] at hfuel
    have hleft (solution : Solution) := @ihLeft fuel hholds.leftTree (by omega) solution
    have hright (solution : Solution) := @ihRight fuel hholds.rightTree (by omega) solution
    rw [findModeImpl, root_node, if_neg (Option.some_ne_none address), Heap.load_some,
      hholds.node_eq, addresses_node, List.map_append, List.map_cons, List.foldlM_append]
    simp only [Option.bind_eq_bind, Option.bind_some, hleft, hright, List.foldlM_cons]

/-- With whatever limit they are, if there is a result. -/
theorem foldlM_of_findModeImpl {solution' : Solution} (hholds : Holds heap tree)
    (hrun : findModeImpl heap fuel (root tree) solution = some solution') :
    ((addresses tree).map some).foldlM (visit heap) solution = some solution' := by
  induction tree generalizing fuel solution solution' with
  | nil =>
    cases fuel with
    | zero => cases hrun
    | succ fuel => exact hrun
  | node cell left right ihLeft ihRight =>
    obtain ⟨address, val⟩ := cell
    cases fuel with
    | zero => cases hrun
    | succ fuel =>
      rw [findModeImpl, root_node, if_neg (Option.some_ne_none address), Heap.load_some,
        hholds.node_eq, Option.bind_eq_bind, Option.bind_some] at hrun
      obtain ⟨before, hleft, hrun⟩ := Option.bind_eq_some_iff.mp hrun
      obtain ⟨after, hvisit, hright⟩ := Option.bind_eq_some_iff.mp hrun
      rw [addresses_node, List.map_append, List.map_cons, List.foldlM_append,
        ihLeft hholds.leftTree hleft, Option.bind_eq_bind, Option.bind_some, List.foldlM_cons,
        hvisit, Option.bind_eq_bind, Option.bind_some]
      exact ihRight hholds.rightTree hright

/-- The heap has a node with a value. -/
def Reads (heap : Heap (TreeNode ℤ)) (cell : ℕ × ℤ) : Prop :=
  ∃ node, heap.node cell.1 = some node ∧ node.val = cell.2

theorem reads_of_mem (hholds : Holds heap tree) : ∀ cell ∈ inorder tree, Reads heap cell := by
  induction tree with
  | nil => nofun
  | node cell left right ihLeft ihRight =>
    obtain ⟨address, val⟩ := cell
    rw [inorder_node, List.forall_mem_append, List.forall_mem_cons]
    exact ⟨ihLeft hholds.leftTree, ⟨_, hholds.node_eq, rfl⟩, ihRight hholds.rightTree⟩

/-! ### The keys so far -/

/-- What the fields say of the keys that have been visited. -/
structure Found (heap : Heap (TreeNode ℤ)) (done : List ℤ) (solution : Solution) : Prop where
  start : done = [] → solution.pre = none ∧ solution.cnt = 1 ∧ solution.maximum = 0
  last : ∀ val ∈ done.getLast?, ∃ address, solution.pre = some address ∧
    Reads heap (address, val) ∧ solution.cnt = done.count val
  bound : ∀ val, done.count val ≤ solution.maximum
  attained : done ≠ [] → ∃ val ∈ done, done.count val = solution.maximum
  modes : ∀ val, val ∈ solution.modes ↔ val ∈ done ∧ done.count val = solution.maximum
  nodup : solution.modes.Nodup

variable {done : List ℤ} {address : ℕ} {val : ℤ}

theorem found_initial (heap : Heap (TreeNode ℤ)) :
    Found heap [] { Solution.initial with cnt := 1 } :=
  ⟨fun _ ↦ ⟨rfl, rfl, rfl⟩, nofun, fun _ ↦ Nat.zero_le _, fun hne ↦ absurd rfl hne,
    fun _ ↦ iff_of_false nofun (fun h ↦ List.not_mem_nil h.1), .nil⟩

/-- Keys in order are not greater than the last one. -/
theorem notMem_of_ne_last {last : ℤ} (hsorted : (done ++ [val]).Pairwise (· ≤ ·))
    (hlast : done.getLast? = some last) (hne : val ≠ last) : val ∉ done := by
  obtain ⟨init, rfl⟩ := List.getLast?_eq_some_iff.mp hlast
  obtain ⟨hinit, -, hval⟩ := List.pairwise_append.mp hsorted
  have hlastLe : last ≤ val :=
    hval last (List.mem_append_right _ List.mem_cons_self) val List.mem_cons_self
  intro hmem
  rcases List.mem_append.mp hmem with hmem | hmem
  · have hle := (List.pairwise_append.mp hinit).2.2 val hmem last List.mem_cons_self
    exact hne (le_antisymm hle hlastLe)
  · exact hne (List.mem_singleton.mp hmem)

theorem count_concat_self (done : List ℤ) (val : ℤ) :
    (done ++ [val]).count val = done.count val + 1 := by
  rw [List.count_append, List.count_singleton_self]

theorem count_concat_of_ne {other : ℤ} (hne : other ≠ val) (done : List ℤ) :
    (done ++ [val]).count other = done.count other := by
  rw [List.count_append, List.count_eq_zero_of_not_mem (mt List.mem_singleton.mp hne),
    Nat.add_zero]

/-- `cnt` is how often the key has occurred, then. -/
theorem countAt_eq (h : Found heap done solution) (hsorted : (done ++ [val]).Pairwise (· ≤ ·)) :
    countAt heap solution val = toInt ((done ++ [val]).count val) := by
  have hone : toInt 1 = some 1 := toInt_of_lt (by decide)
  rcases hlast : done.getLast? with _ | last
  · obtain rfl := List.getLast?_eq_none_iff.mp hlast
    obtain ⟨hpre, hcnt, -⟩ := h.start rfl
    rw [countAt, if_neg (not_not.mpr hpre), hcnt, List.nil_append, List.count_singleton_self, hone]
  · obtain ⟨pre, hpre, ⟨node, hnode, hval⟩, hcnt⟩ := h.last last hlast
    rw [countAt, hpre, if_pos (Option.some_ne_none pre), Heap.load_some, hnode,
      Option.bind_eq_bind, Option.bind_some, hval]
    by_cases heq : val = last
    · rw [if_pos heq, hcnt, heq, count_concat_self]
    · have hnone := List.count_eq_zero_of_not_mem (notMem_of_ne_last hsorted hlast heq)
      rw [if_neg heq, count_concat_self, hnone, hone]

theorem mem_concat_of_ne {other : ℤ} (hne : other ≠ val) (done : List ℤ) :
    other ∈ done ++ [val] ↔ other ∈ done := by
  rw [List.mem_append, List.mem_singleton, or_iff_left hne]

/-- The vector and its maximum, with one more key. -/
theorem record_spec (h : Found heap done solution) :
    let after := record solution ((done ++ [val]).count val) val
    after.cnt = (done ++ [val]).count val ∧
      (∀ other, (done ++ [val]).count other ≤ after.maximum) ∧
      (∃ other ∈ done ++ [val], (done ++ [val]).count other = after.maximum) ∧
      (∀ other, other ∈ after.modes ↔
        other ∈ done ++ [val] ∧ (done ++ [val]).count other = after.maximum) ∧
      after.modes.Nodup := by
  have hself := count_concat_self done val
  have hmem : val ∈ done ++ [val] := List.mem_append_right _ List.mem_cons_self
  have hbound (other : ℤ) (hne : other ≠ val) :
      (done ++ [val]).count other ≤ solution.maximum := by
    rw [count_concat_of_ne hne]
    exact h.bound other
  have hmodes (other : ℤ) (hne : other ≠ val) : other ∈ solution.modes ↔
      other ∈ done ++ [val] ∧ (done ++ [val]).count other = solution.maximum := by
    rw [mem_concat_of_ne hne, count_concat_of_ne hne, h.modes]
  have hmost (hge : solution.maximum ≤ (done ++ [val]).count val) (other : ℤ) :
      (done ++ [val]).count other ≤ (done ++ [val]).count val := by
    by_cases heq : other = val
    · rw [heq]
    · exact (hbound other heq).trans hge
  have hfresh (hle : (done ++ [val]).count val ≤ solution.maximum) : val ∉ solution.modes := by
    intro hmode
    have hold := ((h.modes val).mp hmode).2
    omega
  rw [record]
  split
  next hge =>
    by_cases hgt : (done ++ [val]).count val > solution.maximum
    · -- the key alone has occurred so often
      rw [if_pos hgt]
      refine ⟨rfl, hmost hge, ⟨val, hmem, rfl⟩, fun other ↦ ?_, List.nodup_singleton val⟩
      by_cases heq : other = val
      · rw [heq]
        exact iff_of_true List.mem_cons_self ⟨hmem, rfl⟩
      · have hle := hbound other heq
        exact iff_of_false (mt List.mem_singleton.mp heq) fun hother ↦
          absurd hother.2 (hle.trans_lt hgt).ne
    · -- the key has come up with the others
      have heqMaximum : (done ++ [val]).count val = solution.maximum :=
        le_antisymm (Nat.le_of_not_lt hgt) hge
      rw [if_neg hgt]
      refine ⟨rfl, hmost hge, ⟨val, hmem, rfl⟩, fun other ↦ ?_, ?_⟩
      · by_cases heq : other = val
        · rw [heq]
          exact iff_of_true (List.mem_append_right _ List.mem_cons_self) ⟨hmem, rfl⟩
        · dsimp only
          rw [List.mem_append, List.mem_singleton, or_iff_left heq, hmodes other heq, heqMaximum]
      · refine List.nodup_append'.mpr ⟨h.nodup, List.nodup_singleton val, ?_⟩
        exact List.disjoint_singleton.mpr (hfresh heqMaximum.le)
  next hlt =>
    -- others have occurred more often
    have hless : (done ++ [val]).count val < solution.maximum := Nat.lt_of_not_le hlt
    refine ⟨rfl, fun other ↦ ?_, ?_, fun other ↦ ?_, h.nodup⟩
    · by_cases heq : other = val
      · rw [heq]
        exact hless.le
      · exact hbound other heq
    · have hdone : done ≠ [] := fun hnil ↦ by
        have hzero := (h.start hnil).2.2
        omega
      obtain ⟨other, hother, hcount⟩ := h.attained hdone
      have hne : other ≠ val := fun heq ↦ by
        rw [heq] at hcount
        omega
      exact ⟨other, List.mem_append_left _ hother, by rw [count_concat_of_ne hne, hcount]⟩
    · by_cases heq : other = val
      · rw [heq]
        exact iff_of_false (hfresh hless.le) fun hother ↦ hless.ne hother.2
      · exact hmodes other heq

/-- A visit takes one more key into account, as long as it can be counted. -/
theorem visit_spec (h : Found heap done solution) (hsorted : (done ++ [val]).Pairwise (· ≤ ·))
    (hreads : Reads heap (address, val)) (hcount : (done ++ [val]).count val < 2 ^ 31) :
    ∃ solution', visit heap solution (some address) = some solution' ∧
      Found heap (done ++ [val]) solution' := by
  obtain ⟨node, hnode, rfl⟩ := hreads
  obtain ⟨hcnt, hbound, hattained, hmodes, hnodup⟩ := @record_spec heap solution done node.val h
  refine ⟨{ record solution ((done ++ [node.val]).count node.val) node.val with
    pre := some address }, ?_, fun hnil ↦ absurd hnil (by simp), fun last hlast ↦ ?_, hbound,
    fun _ ↦ hattained, hmodes, hnodup⟩
  · rw [visit, Heap.load_some, hnode, Option.bind_eq_bind, Option.bind_some,
      countAt_eq h hsorted, toInt_of_lt hcount]
    rfl
  · rw [List.getLast?_concat] at hlast
    obtain rfl := Option.some.inj hlast
    exact ⟨address, rfl, ⟨node, hnode, rfl⟩, hcnt⟩

theorem visit_eq_none (h : Found heap done solution) (hsorted : (done ++ [val]).Pairwise (· ≤ ·))
    (hreads : Reads heap (address, val)) (hcount : 2 ^ 31 ≤ (done ++ [val]).count val) :
    visit heap solution (some address) = none := by
  obtain ⟨node, hnode, rfl⟩ := hreads
  rw [visit, Heap.load_some, hnode, Option.bind_eq_bind, Option.bind_some,
    countAt_eq h hsorted, toInt_of_le hcount]
  rfl

/-- So do the visits of some nodes in order. -/
theorem visits_spec {cells : List (ℕ × ℤ)} (h : Found heap done solution)
    (hsorted : (done ++ cells.map Prod.snd).Pairwise (· ≤ ·))
    (hreads : ∀ cell ∈ cells, Reads heap cell)
    (hcount : ∀ val, (done ++ cells.map Prod.snd).count val < 2 ^ 31) :
    ∃ solution', (cells.map fun cell ↦ some cell.1).foldlM (visit heap) solution = some solution' ∧
      Found heap (done ++ cells.map Prod.snd) solution' := by
  induction cells generalizing done solution with
  | nil => exact ⟨solution, rfl, by rwa [List.map_nil, List.append_nil]⟩
  | cons cell cells ih =>
    obtain ⟨address, val⟩ := cell
    obtain ⟨hcell, hrest⟩ := List.forall_mem_cons.mp hreads
    have hsplit : done ++ ((address, val) :: cells).map Prod.snd =
        (done ++ [val]) ++ cells.map Prod.snd := by
      rw [List.map_cons, List.append_assoc, List.singleton_append]
    rw [hsplit] at hsorted hcount ⊢
    have hfits : (done ++ [val]).count val < 2 ^ 31 :=
      ((List.sublist_append_left _ _).count_le val).trans_lt (hcount val)
    obtain ⟨solution1, hvisit, hfound⟩ :=
      visit_spec h (List.pairwise_append.mp hsorted).1 hcell hfits
    obtain ⟨solution2, hrun, hfound2⟩ := ih hfound hsorted hrest hcount
    refine ⟨solution2, ?_, hfound2⟩
    rw [List.map_cons, List.foldlM_cons, hvisit]
    exact hrun

/-! ### Search trees -/

/-- A search tree, in which keys may occur more than once. -/
def Ordered : BinaryTree ℤ → Prop
  | .nil => True
  | .node val left right =>
    (∀ key ∈ inorder left, key ≤ val) ∧ (∀ key ∈ inorder right, val ≤ key) ∧ Ordered left ∧
      Ordered right

theorem Ordered.pairwise {tree : BinaryTree ℤ} (h : Ordered tree) :
    (inorder tree).Pairwise (· ≤ ·) := by
  induction tree with
  | nil => exact .nil
  | node val left right ihLeft ihRight =>
    obtain ⟨hle, hge, hleft, hright⟩ := h
    refine List.pairwise_append.mpr ⟨ihLeft hleft, List.pairwise_cons.mpr ⟨hge, ihRight hright⟩,
      fun key hkey other hother ↦ ?_⟩
    rcases List.mem_cons.mp hother with rfl | hother
    · exact hle key hkey
    · exact (hle key hkey).trans (hge other hother)

/-- The modes are the keys that occur as often as any key, each once. -/
theorem findMode_spec (hholds : Holds heap tree) (hordered : Ordered (contents tree))
    (hcount : ∀ key, (inorder (contents tree)).count key < 2 ^ 31) (hfuel : tree.height < fuel) :
    ∃ modes, findMode heap fuel (root tree) .initial = some modes ∧ modes.Nodup ∧
      ∀ key, key ∈ modes ↔ key ∈ inorder (contents tree) ∧
        ∀ other, (inorder (contents tree)).count other ≤ (inorder (contents tree)).count key := by
  have hkeys : (inorder tree).map Prod.snd = inorder (contents tree) :=
    (inorder_map Prod.snd tree).symm
  obtain ⟨solution, hrun, hfound⟩ := @visits_spec heap _ [] (inorder tree) (found_initial heap)
    (by rw [List.nil_append, hkeys]; exact hordered.pairwise) (reads_of_mem hholds)
    (by rw [List.nil_append, hkeys]; exact hcount)
  rw [List.nil_append, hkeys] at hfound
  refine ⟨solution.modes, ?_, hfound.nodup, fun key ↦ ?_⟩
  · rw [findMode, findModeImpl_eq hholds hfuel, addresses, List.map_map]
    exact congrArg (fun result ↦ result.bind fun solution ↦ some solution.modes) hrun
  · rw [hfound.modes]
    refine and_congr_right fun hkey ↦ ⟨fun heq other ↦ heq ▸ hfound.bound other, fun hmost ↦ ?_⟩
    obtain ⟨other, -, hother⟩ := hfound.attained (List.ne_nil_of_mem hkey)
    exact le_antisymm (hfound.bound key) (hother ▸ hmost other)

theorem findMode_spec_four :
    let heap := (((Heap.empty.set 0 ⟨2, some 1, some 2⟩).set 1 ⟨1, none, some 3⟩).set 2
      ⟨3, none, none⟩).set 3 ⟨2, none, none⟩
    let keys : List ℤ := [1, 2, 2, 3]
    ∃ modes, findMode heap 4 (some 0) .initial = some modes ∧ modes.Nodup ∧
      ∀ key, key ∈ modes ↔ key ∈ keys ∧ ∀ other, keys.count other ≤ keys.count key := by
  intro heap keys
  have hholds : Holds heap (.node (0, 2) (.node (1, 1) .nil (.node (3, 2) .nil .nil))
      (.node (2, 3) .nil .nil)) :=
    ⟨rfl, ⟨rfl, trivial, rfl, trivial, trivial⟩, rfl, trivial, trivial⟩
  have hordered : Ordered (.node 2 (.node 1 .nil (.node 2 .nil .nil)) (.node 3 .nil .nil)) := by
    simp [Ordered]
  exact @findMode_spec heap _ 4 hholds hordered
    (fun key ↦ List.count_le_length.trans_lt (by decide)) (by decide)

/-! ### Beyond an `int` -/

theorem inorder_chain (val : ℤ) (height : ℕ) :
    inorder (chain val height) = List.replicate height val := by
  induction height with
  | zero => rfl
  | succ height ih =>
    rw [chain, inorder_node, ih, inorder_nil, List.nil_append, List.replicate_succ]

theorem ordered_chain (val : ℤ) (height : ℕ) : Ordered (chain val height) := by
  induction height with
  | zero => trivial
  | succ height ih =>
    refine ⟨nofun, fun key hkey ↦ ?_, trivial, ih⟩
    rw [inorder_chain] at hkey
    exact (List.eq_of_mem_replicate hkey).ge

/-- The last of `2 ^ 31` equal keys is not counted. -/
theorem visits_eq_none {cells : List (ℕ × ℤ)} (hreads : ∀ cell ∈ cells, Reads heap cell)
    (hkeys : cells.map Prod.snd = List.replicate (2 ^ 31) val) :
    (cells.map fun cell ↦ some cell.1).foldlM (visit heap) { Solution.initial with cnt := 1 } =
      none := by
  have hlength := congrArg List.length hkeys
  rw [List.length_map, List.length_replicate] at hlength
  rcases List.eq_nil_or_concat' cells with rfl | ⟨front, last, rfl⟩
  · exact absurd hlength (by decide)
  · obtain ⟨hfront, hlast⟩ := List.forall_mem_append.mp hreads
    rw [List.length_append, List.length_singleton] at hlength
    have hsorted : (front.map Prod.snd ++ [last.2]).Pairwise (· ≤ ·) := by
      have hall : (List.replicate (2 ^ 31) val).Pairwise (· ≤ ·) :=
        List.pairwise_replicate.mpr (.inr le_rfl)
      rwa [← hkeys, List.map_append] at hall
    have hcount : (front.map Prod.snd ++ [last.2]).count last.2 = 2 ^ 31 := by
      have hval : last.2 = val := List.eq_of_mem_replicate <| by
        rw [← hkeys, List.map_append]
        exact List.mem_append_right _ List.mem_cons_self
      rw [List.map_append, List.map_singleton] at hkeys
      rw [hkeys, hval, List.count_replicate_self]
    obtain ⟨solution, hrun, hfound⟩ := @visits_spec heap _ [] front (found_initial heap)
      (by rw [List.nil_append]; exact (List.pairwise_append.mp hsorted).1) hfront fun other ↦ by
        rw [List.nil_append]
        have hle := @List.count_le_length _ _ other (front.map Prod.snd)
        rw [List.length_map] at hle
        omega
    rw [List.nil_append] at hfound
    rw [List.map_append, List.foldlM_append, hrun, Option.bind_eq_bind, Option.bind_some,
      List.map_singleton, List.foldlM_cons,
      visit_eq_none hfound hsorted (hlast last List.mem_cons_self) hcount.ge]
    rfl

/-- A key that occurs so often is not found. -/
theorem findMode_eq_none : Ordered (chain 0 (2 ^ 31)) ∧
    ∃ (heap : Heap (TreeNode ℤ)) (root : Ptr), Stores heap root (chain 0 (2 ^ 31)) ∧
      ∀ fuel, findMode heap fuel root .initial = none := by
  refine ⟨ordered_chain 0 _, ?_⟩
  obtain ⟨tree, heap, hplanted, hcontents⟩ := exists_planted .empty (chain (0 : ℤ) (2 ^ 31))
  refine ⟨heap, root tree, ⟨tree, rfl, hplanted.holds, hplanted.nodup, hcontents⟩, fun fuel ↦ ?_⟩
  have hkeys : (inorder tree).map Prod.snd = List.replicate (2 ^ 31) 0 := by
    rw [← inorder_map, ← contents, hcontents, inorder_chain]
  have hnone := visits_eq_none (reads_of_mem hplanted.holds) hkeys
  rw [findMode, Option.bind_eq_bind, Option.bind_eq_none_iff]
  intro solution hrun
  have hsome := foldlM_of_findModeImpl hplanted.holds hrun
  rw [addresses, List.map_map] at hsome
  cases hnone.symm.trans hsome

end CppLearn.Leetcode.FindMode
