import CppLearn.Foundation.SearchTree
import CppLearn.Foundation.StackWalk
import CppLearn.Foundation.VectorAccess
import Mathlib.Algebra.BigOperators.Group.List.Basic
import Mathlib.Data.List.Induction
import Mathlib.Tactic.Ring

/-!
# Greater trees

`convertBST` and `convertBSTIteration` visit the nodes of a tree from the right to the left, add
their keys to a sum and write it to them. The sum is a member of the object: nothing resets it, so
that a call starts from what the calls before it have left.
-/

set_option autoImplicit false
set_option relaxedAutoImplicit false

namespace CppLearn.Leetcode.GreaterTree

open Foundation.HeapTree Foundation.NodeHeap Foundation.SearchTree Foundation.StackWalk
open Foundation.VectorAccess (intOf intOf_of_fits)

/-! ### The program -/

/-- The nodes, and the member of the object. -/
structure State where
  heap : Heap (TreeNode ℤ)
  sum : ℤ

/-- A number is an `int`. -/
def Fits (number : ℤ) : Prop := -2 ^ 31 ≤ number ∧ number < 2 ^ 31

instance : DecidablePred Fits := fun _ ↦ inferInstanceAs (Decidable (_ ∧ _))

/-- `sum += ptr->val` and `ptr->val = sum`. -/
def accumulate (state : State) (ptr : Ptr) : Option State := do
  let node ← state.heap.load ptr
  let sum ← intOf (state.sum + node.val)
  let heap ← state.heap.modify ptr fun node ↦ { node with val := sum }
  return { heap, sum }

/-- `ptr->left`. -/
def leftOf (state : State) (ptr : Ptr) : Option Ptr := (state.heap.load ptr).map TreeNode.left

/-- `ptr->right`. -/
def rightOf (state : State) (ptr : Ptr) : Option Ptr := (state.heap.load ptr).map TreeNode.right

/-- With a limit on the depth of the recursion. -/
def convertBST : ℕ → State → Ptr → Option (Ptr × State)
  | 0, _, _ => none
  | fuel + 1, state, root =>
    if root ≠ none then do
      let right ← rightOf state root
      let (_, state) ← convertBST fuel state right
      let state ← accumulate state root
      let left ← leftOf state root
      let (_, state) ← convertBST fuel state left
      return (root, state)
    else some (root, state)

/-- The loops of `convertBSTIteration`, which goes down to the right. -/
def converter : Walker State where
  near := rightOf
  far := leftOf
  early state _ := some state
  late := accumulate

def convertBSTIteration (state : State) (root : Ptr) : Option (Ptr × State) := do
  let state ← converter.walk (state.heap.bound + 1) (state.heap.bound + 1) root [] state
  return (root, state)

/-! ### The two versions -/

variable {heap heap' : Heap (TreeNode ℤ)} {tree : PlacedTree ℤ} {state : State} {sum : ℤ}

/-- All nodes have the links that they had. -/
def SameLinks (heap heap' : Heap (TreeNode ℤ)) : Prop :=
  ∀ address, (heap'.node address).map TreeNode.left = (heap.node address).map TreeNode.left ∧
    (heap'.node address).map TreeNode.right = (heap.node address).map TreeNode.right

theorem SameLinks.refl (heap : Heap (TreeNode ℤ)) : SameLinks heap heap := fun _ ↦ ⟨rfl, rfl⟩

/-- What is read and written where a node is visited. -/
theorem accumulate_eq {address : ℕ} {node : TreeNode ℤ} (hnode : heap.node address = some node) :
    accumulate ⟨heap, sum⟩ (some address) =
      if Fits (sum + node.val) then
        some ⟨heap.set address { node with val := sum + node.val }, sum + node.val⟩
      else none := by
  rw [accumulate, Heap.load_some, hnode, Option.bind_eq_bind, Option.bind_some]
  by_cases hfits : Fits (sum + node.val)
  · rw [if_pos hfits, intOf_of_fits hfits.1 hfits.2, Option.bind_eq_bind, Option.bind_some,
      Heap.modify_some hnode]
    rfl
  · have hnone : intOf (sum + node.val) = none := if_neg hfits
    rw [if_neg hfits, hnone]
    rfl

theorem accumulate_links {address : ℕ} {state' : State} (hsame : SameLinks heap state.heap)
    (hrun : accumulate state (some address) = some state') : SameLinks heap state'.heap := by
  obtain ⟨heap1, sum1⟩ := state
  cases hnode : heap1.node address with
  | none =>
    rw [accumulate, Heap.load_some, hnode] at hrun
    cases hrun
  | some node =>
    rw [accumulate_eq hnode] at hrun
    split at hrun
    next =>
      obtain rfl := Option.some.inj hrun
      intro other
      by_cases heq : other = address
      · subst heq
        have hother := hsame other
        rw [hnode] at hother
        rw [Heap.set_node_self]
        exact hother
      · rw [Heap.set_node_of_ne heq]
        exact hsame other
    next => cases hrun

theorem kept_links (heap : Heap (TreeNode ℤ)) :
    Kept converter fun state ↦ SameLinks heap state.heap := by
  rintro (address | address) state state' hsame hrun
  · obtain rfl : state = state' := Option.some.inj hrun
    exact hsame
  · exact accumulate_links hsame hrun

theorem rightFirst_of_sameLinks (hsame : SameLinks heap state.heap) :
    RightFirst converter state heap := by
  intro address node hnode
  obtain ⟨hleft, hright⟩ := hsame address
  rw [hnode] at hleft hright
  exact ⟨hright, hleft⟩

theorem linked_of_holds (hholds : Holds heap tree) :
    Linked converter (fun state ↦ SameLinks heap state.heap) (mirror tree) :=
  fun _ hsame ↦ (rightFirst_of_sameLinks hsame).links hholds

/-- What both do to the nodes of a tree. -/
def visited (tree : PlacedTree ℤ) (state : State) : Option State :=
  (visits (mirror tree)).foldlM converter.visit state

theorem visited_node (address : ℕ) (val : ℤ) (left right : PlacedTree ℤ) (state : State) :
    visited (.node (address, val) left right) state =
      (visited right state).bind fun state ↦
        (accumulate state (some address)).bind (visited left) := by
  rw [visited, mirror_node, visits, List.foldlM_cons]
  change (visits (mirror right) ++ .late address :: visits (mirror left)).foldlM converter.visit
    state = _
  rw [List.foldlM_append]
  rfl

theorem visited_links {state' : State} (hsame : SameLinks heap state.heap)
    (hrun : visited tree state = some state') : SameLinks heap state'.heap :=
  (kept_links heap).foldlM hsame hrun

theorem convertBSTIteration_eq (hholds : Holds heap tree) (hnodup : (addresses tree).Nodup) :
    convertBSTIteration ⟨heap, sum⟩ (root tree) =
      (visited tree ⟨heap, sum⟩).map fun state ↦ (root tree, state) := by
  have hlt : (mirror tree).numNodes < heap.bound + 1 := by
    rw [numNodes_mirror]
    exact Nat.lt_succ_of_le (hholds.numNodes_le hnodup)
  have hwalk := @walk_eq_foldlM _ _ converter _ (mirror tree) [] ⟨heap, sum⟩ _ _ (kept_links heap)
    (linked_of_holds hholds) nofun (.refl heap) hlt hlt
  rw [pending, List.flatMap_nil, List.append_nil, root_mirror] at hwalk
  rw [convertBSTIteration, visited, Option.map_eq_bind]
  exact congrArg (fun result ↦ result.bind fun state ↦ some (root tree, state)) hwalk

theorem convertBST_eq {fuel : ℕ} (hholds : Holds heap tree) (hsame : SameLinks heap state.heap)
    (hfuel : tree.numNodes < fuel) :
    convertBST fuel state (root tree) =
      (visited tree state).map fun state ↦ (root tree, state) := by
  induction tree generalizing fuel state with
  | nil =>
    obtain ⟨fuel, rfl⟩ := Nat.exists_eq_succ_of_ne_zero (Nat.ne_zero_of_lt hfuel)
    rfl
  | node cell left right ihLeft ihRight =>
    obtain ⟨address, val⟩ := cell
    obtain ⟨fuel, rfl⟩ := Nat.exists_eq_succ_of_ne_zero (Nat.ne_zero_of_lt hfuel)
    rw [BinaryTree.numNodes] at hfuel
    rw [convertBST, root_node, if_pos (Option.some_ne_none address), visited_node]
    have hright : rightOf state (some address) = some (root right) :=
      (rightFirst_of_sameLinks hsame address _ hholds.node_eq).1
    rw [hright, Option.bind_eq_bind, Option.bind_some,
      ihRight hholds.rightTree hsame (by omega), Option.bind_eq_bind]
    cases hvisited : visited right state with
    | none => rfl
    | some state1 =>
      have hsame1 := visited_links hsame hvisited
      rw [Option.map_some, Option.bind_some, Option.bind_some]
      dsimp only
      cases haccumulate : accumulate state1 (some address) with
      | none => rfl
      | some state2 =>
        have hsame2 := accumulate_links hsame1 haccumulate
        have hleft : leftOf state2 (some address) = some (root left) :=
          (rightFirst_of_sameLinks hsame2 address _ hholds.node_eq).2
        rw [Option.bind_eq_bind, Option.bind_some, Option.bind_some, hleft, Option.bind_some,
          ihLeft hholds.leftTree hsame2 (by omega)]
        cases visited left state2 with
        | none => rfl
        | some state3 => rfl

/-! ### The sums that are written -/

/-- The keys of a tree from the left to the right. -/
def keys (tree : PlacedTree ℤ) : List ℤ := (inorder tree).map Prod.snd

theorem keys_node (address : ℕ) (val : ℤ) (left right : PlacedTree ℤ) :
    keys (.node (address, val) left right) = keys left ++ val :: keys right := by
  rw [keys, inorder_node, List.map_append, List.map_cons]
  rfl

theorem sum_keys_node (address : ℕ) (val : ℤ) (left right : PlacedTree ℤ) :
    (keys (.node (address, val) left right)).sum = (keys right).sum + val + (keys left).sum := by
  rw [keys_node, List.sum_append, List.sum_cons]
  ring

/-- The tree with its keys raised by a sum and by those to the right of them. -/
def raised : ℤ → PlacedTree ℤ → PlacedTree ℤ
  | _, .nil => .nil
  | sum, .node (address, val) left right =>
    .node (address, sum + (keys right).sum + val) (raised (sum + (keys right).sum + val) left)
      (raised sum right)

theorem root_raised (sum : ℤ) (tree : PlacedTree ℤ) : root (raised sum tree) = root tree := by
  cases tree with
  | nil => rfl
  | node cell left right => rfl

theorem addresses_raised (sum : ℤ) (tree : PlacedTree ℤ) :
    addresses (raised sum tree) = addresses tree := by
  induction tree generalizing sum with
  | nil => rfl
  | node cell left right ihLeft ihRight =>
    obtain ⟨address, val⟩ := cell
    rw [raised, addresses_node, addresses_node, ihLeft, ihRight]

/-- With the numbers added to the sum, the last one first, no sum overflows. -/
def InRange (sum : ℤ) (numbers : List ℤ) : Prop :=
  ∀ last, last ≠ [] → last <:+ numbers → Fits (sum + last.sum)

theorem inRange_nil (sum : ℤ) : InRange sum [] :=
  fun _ hne hsuffix ↦ absurd (List.suffix_nil.mp hsuffix) hne

theorem inRange_cons {number : ℤ} {numbers : List ℤ} :
    InRange sum (number :: numbers) ↔
      InRange sum numbers ∧ Fits (sum + numbers.sum + number) := by
  have hall : sum + (number :: numbers).sum = sum + numbers.sum + number := by
    rw [List.sum_cons, add_comm number, add_assoc]
  constructor
  · intro h
    have hfits := h (number :: numbers) (List.cons_ne_nil number numbers) List.suffix_rfl
    exact ⟨fun last hne hsuffix ↦ h last hne (hsuffix.trans (List.suffix_cons number numbers)),
      hall ▸ hfits⟩
  · rintro ⟨h, hfits⟩ last hne hsuffix
    rcases List.suffix_cons_iff.mp hsuffix with rfl | hsuffix
    · rwa [hall]
    · exact h last hne hsuffix

theorem inRange_append {numbers numbers' : List ℤ} :
    InRange sum (numbers ++ numbers') ↔
      InRange sum numbers' ∧ InRange (sum + numbers'.sum) numbers := by
  induction numbers with
  | nil => exact (and_iff_left (inRange_nil _)).symm
  | cons number numbers ih =>
    have hsum : sum + (numbers ++ numbers').sum + number =
        sum + numbers'.sum + numbers.sum + number := by
      rw [List.sum_append]
      ring
    rw [List.cons_append, inRange_cons, inRange_cons, ih, hsum, and_assoc]

theorem inRange_node {address : ℕ} {val : ℤ} {left right : PlacedTree ℤ} :
    InRange sum (keys (.node (address, val) left right)) ↔ InRange sum (keys right) ∧
      Fits (sum + (keys right).sum + val) ∧
        InRange (sum + (keys right).sum + val) (keys left) := by
  have hsum : sum + (val :: keys right).sum = sum + (keys right).sum + val := by
    rw [List.sum_cons]
    ring
  rw [keys_node, inRange_append, inRange_cons, hsum, and_assoc]

/-- The sums are written where none overflows, and then only. -/
theorem visited_spec (hholds : Holds heap tree) (hnodup : (addresses tree).Nodup) :
    (InRange sum (keys tree) → ∃ heap',
      visited tree ⟨heap, sum⟩ = some ⟨heap', sum + (keys tree).sum⟩ ∧
        Holds heap' (raised sum tree) ∧ SameOff {address | address ∈ addresses tree} heap heap') ∧
      (¬ InRange sum (keys tree) → visited tree ⟨heap, sum⟩ = none) := by
  induction tree generalizing heap sum with
  | nil =>
    refine ⟨fun _ ↦ ⟨heap, ?_, trivial, .refl _ heap⟩, fun h ↦ absurd (inRange_nil sum) h⟩
    rw [show (keys .nil).sum = 0 from rfl, add_zero]
    rfl
  | node cell left right ihLeft ihRight =>
    obtain ⟨address, val⟩ := cell
    obtain ⟨hnodupLeft, hnodupRight, hnotLeft, hnotRight, hdisjoint⟩ :=
      nodup_addresses_node.mp hnodup
    obtain ⟨hright, hrightNone⟩ := @ihRight heap sum hholds.rightTree hnodupRight
    rw [visited_node, inRange_node]
    by_cases hinRight : InRange sum (keys right)
    · obtain ⟨heap1, hrun1, hholds1, hsame1⟩ := hright hinRight
      have hnode1 : heap1.node address = some ⟨val, root left, root right⟩ := by
        rw [hsame1 address hnotRight, hholds.node_eq]
      rw [hrun1, Option.bind_some, accumulate_eq hnode1]
      by_cases hfits : Fits (sum + (keys right).sum + val)
      · have hnotRight1 : address ∉ addresses (raised sum right) := by rwa [addresses_raised]
        have hdisjoint1 : ∀ other ∈ addresses (raised sum right), other ∉ addresses left :=
          fun other hother hleft ↦ hdisjoint hleft (addresses_raised sum right ▸ hother)
        have hleftHolds : Holds heap1 left :=
          hholds.leftTree.frame hsame1 fun other hother hright ↦ hdisjoint hother hright
        obtain ⟨hleft, hleftNone⟩ := @ihLeft (heap1.set address ⟨sum + (keys right).sum + val,
          root left, root right⟩) (sum + (keys right).sum + val) (hleftHolds.set hnotLeft)
          hnodupLeft
        rw [if_pos hfits, Option.bind_some]
        refine ⟨fun ⟨_, _, hinLeft⟩ ↦ ?_, fun hnot ↦ hleftNone fun hinLeft ↦
          hnot ⟨hinRight, hfits, hinLeft⟩⟩
        obtain ⟨heap', hrun, hholds', hsame⟩ := hleft hinLeft
        refine ⟨heap', ?_, ⟨?_, hholds', ?_⟩, fun other hother ↦ ?_⟩
        · rw [sum_keys_node, ← add_assoc, ← add_assoc]
          exact hrun
        · rw [hsame address hnotLeft, Heap.set_node_self, root_raised, root_raised]
        · exact (hholds1.set hnotRight1).frame hsame hdisjoint1
        · obtain ⟨hne, hother⟩ := not_or.mp (mt mem_addresses_node.mpr hother)
          obtain ⟨hotherLeft, hotherRight⟩ := not_or.mp hother
          rw [hsame other hotherLeft, Heap.set_node_of_ne hne, hsame1 other hotherRight]
      · rw [if_neg hfits]
        exact ⟨fun h ↦ absurd h.2.1 hfits, fun _ ↦ rfl⟩
    · rw [hrightNone hinRight]
      exact ⟨fun h ↦ absurd h.1 hinRight, fun _ ↦ rfl⟩

/-! ### The greater tree -/

/-- The tree with each key and all greater ones added up. -/
def greaterTree (tree : PlacedTree ℤ) : PlacedTree ℤ :=
  tree.map fun cell ↦ (cell.1, cell.2 + ((keys tree).filter (cell.2 < ·)).sum)

/-- In a search tree the keys to the right are the greater ones. -/
theorem raised_eq (hsearch : Ascending Prod.snd tree) (sum : ℤ) :
    raised sum tree = tree.map fun cell ↦
      (cell.1, sum + (cell.2 + ((keys tree).filter (cell.2 < ·)).sum)) := by
  induction tree generalizing sum with
  | nil => rfl
  | node cell left right ihLeft ihRight =>
    obtain ⟨address, val⟩ := cell
    obtain ⟨hleft, hright, hbelow, habove⟩ := ascending_node.mp hsearch
    have hrightKeys : ∀ number, number ≤ val →
        (keys right).filter (number < ·) = keys right := fun number hle ↦ by
      refine List.filter_eq_self.mpr fun key hkey ↦ decide_eq_true ?_
      obtain ⟨other, hother, rfl⟩ := List.mem_map.mp hkey
      exact hle.trans_lt (habove other hother)
    have hleftKeys : ∀ number, val ≤ number →
        (keys left).filter (number < ·) = [] := fun number hle ↦ by
      refine List.filter_eq_nil_iff.mpr fun key hkey ↦ ?_
      obtain ⟨other, hother, rfl⟩ := List.mem_map.mp hkey
      rw [decide_eq_true_eq]
      exact ((hbelow other hother).trans_le hle).not_gt
    rw [raised, BinaryTree.map, ihLeft hleft, ihRight hright, keys_node]
    congr 1
    · rw [List.filter_append, hleftKeys val le_rfl, List.nil_append,
        List.filter_cons_of_neg (by simp), hrightKeys val le_rfl]
      congr 1
      ring
    · refine map_congr fun other hother ↦ ?_
      have hlt := hbelow other hother
      rw [List.filter_append, List.filter_cons_of_pos (by simpa using hlt),
        hrightKeys other.2 hlt.le, List.sum_append, List.sum_cons]
      congr 1
      ring
    · refine map_congr fun other hother ↦ ?_
      have hlt := habove other hother
      rw [List.filter_append, hleftKeys other.2 hlt.le, List.nil_append,
        List.filter_cons_of_neg (by simpa using hlt.le)]

theorem greaterTree_eq (hsearch : Ascending Prod.snd tree) : greaterTree tree = raised 0 tree := by
  rw [raised_eq hsearch, greaterTree]
  exact map_congr fun cell _ ↦ by rw [zero_add]

/-! ### Sequences of calls -/

inductive Version
  | recursive
  | iterative

/-- A call on a tree. What the heap has may have changed since the call before. -/
structure Call where
  version : Version
  heap : Heap (TreeNode ℤ)
  tree : PlacedTree ℤ
  holds : Holds heap tree
  nodup : (addresses tree).Nodup

/-- What a call does with the sum that it finds. -/
def Call.run (call : Call) (sum : ℤ) : Option (Ptr × State) :=
  match call.version with
  | .recursive => convertBST (call.heap.bound + 1) ⟨call.heap, sum⟩ (root call.tree)
  | .iterative => convertBSTIteration ⟨call.heap, sum⟩ (root call.tree)

/-- The sum after calls on an object, the one of which was zero. -/
def sumAfter (calls : List Call) : Option ℤ :=
  calls.foldlM (fun sum call ↦ (call.run sum).map fun result ↦ result.2.sum) 0

/-- After other calls on the object a call returns the greater tree. -/
def Converts (before : List Call) (call : Call) : Prop :=
  ∃ sum state, sumAfter before = some sum ∧ call.run sum = some (root call.tree, state) ∧
    Holds state.heap (greaterTree call.tree)

/-- All keys that are added to the sum, the last one first. -/
def added (calls : List Call) : List ℤ := calls.reverse.flatMap fun call ↦ keys call.tree

theorem added_append_singleton (before : List Call) (call : Call) :
    added (before ++ [call]) = keys call.tree ++ added before := by
  rw [added, List.reverse_append, List.reverse_singleton, List.singleton_append, List.flatMap_cons]
  rfl

theorem run_eq (call : Call) (sum : ℤ) : call.run sum =
    (visited call.tree ⟨call.heap, sum⟩).map fun state ↦ (root call.tree, state) := by
  obtain ⟨version, heap, tree, hholds, hnodup⟩ := call
  cases version with
  | recursive =>
    exact convertBST_eq hholds (.refl heap) (Nat.lt_succ_of_le (hholds.numNodes_le hnodup))
  | iterative => exact convertBSTIteration_eq hholds hnodup

/-- The sum goes on from call to call. -/
theorem sumAfter_spec (calls : List Call) :
    (InRange 0 (added calls) → sumAfter calls = some (added calls).sum) ∧
      (¬ InRange 0 (added calls) → sumAfter calls = none) := by
  induction calls using List.reverseRecOn with
  | nil => exact ⟨fun _ ↦ rfl, fun h ↦ absurd (inRange_nil 0) h⟩
  | append_singleton before call ih =>
    rw [added_append_singleton, inRange_append, zero_add, sumAfter, List.foldlM_append]
    change (_ → (sumAfter before).bind _ = _) ∧ (_ → (sumAfter before).bind _ = _)
    obtain ⟨hsome, hnone⟩ := ih
    by_cases hbefore : InRange 0 (added before)
    · obtain ⟨hrun, hrunNone⟩ := @visited_spec call.heap call.tree (added before).sum call.holds
        call.nodup
      rw [hsome hbefore, Option.bind_some, List.foldlM_cons, run_eq]
      constructor
      · rintro ⟨-, hcall⟩
        obtain ⟨heap', hvisited, -⟩ := hrun hcall
        rw [hvisited, List.sum_append, add_comm]
        rfl
      · intro hnot
        rw [hrunNone fun hcall ↦ hnot ⟨hbefore, hcall⟩]
        rfl
    · rw [hnone hbefore]
      exact ⟨fun h ↦ absurd h.1 hbefore, fun _ ↦ rfl⟩

theorem raised_eq_iff : raised sum tree = raised 0 tree ↔ tree = .nil ∨ sum = 0 := by
  constructor
  · intro h
    cases tree with
    | nil => exact Or.inl rfl
    | node cell left right =>
      obtain ⟨address, val⟩ := cell
      have hval := (BinaryTree.node.inj h).1
      rw [Prod.mk.injEq] at hval
      refine Or.inr ?_
      omega
  · rintro (rfl | rfl)
    · rfl
    · rfl

/-- A call on a search tree returns the greater tree just if it starts from zero and nothing
overflows. -/
theorem converts_iff_of_ascending {before : List Call} {call : Call}
    (hsearch : Ascending Prod.snd call.tree) : Converts before call ↔
      (call.tree = .nil ∨ (added before).sum = 0) ∧
        InRange 0 (keys call.tree ++ added before) := by
  obtain ⟨hsome, hnone⟩ := sumAfter_spec before
  obtain ⟨hrun, hrunNone⟩ := @visited_spec call.heap call.tree (added before).sum call.holds
    call.nodup
  rw [inRange_append, zero_add]
  constructor
  · rintro ⟨sum, state, hsum, hcall, hgreater⟩
    have hbefore : InRange 0 (added before) := by
      by_contra hnot
      rw [hnone hnot] at hsum
      cases hsum
    obtain rfl := Option.some.inj ((hsome hbefore).symm.trans hsum)
    rw [run_eq] at hcall
    have hinCall : InRange (added before).sum (keys call.tree) := by
      by_contra hnot
      rw [hrunNone hnot] at hcall
      cases hcall
    obtain ⟨heap', hvisited, hholds, -⟩ := hrun hinCall
    rw [hvisited] at hcall
    obtain rfl := (Prod.mk.inj (Option.some.inj hcall)).2
    rw [greaterTree_eq hsearch] at hgreater
    have heq := hholds.unique hgreater (by rw [root_raised, root_raised])
    exact ⟨raised_eq_iff.mp heq, hbefore, hinCall⟩
  · rintro ⟨hstart, hbefore, hinCall⟩
    obtain ⟨heap', hvisited, hholds, -⟩ := hrun hinCall
    refine ⟨_, _, hsome hbefore, by rw [run_eq, hvisited]; rfl, ?_⟩
    rw [greaterTree_eq hsearch, ← raised_eq_iff.mpr hstart]
    exact hholds

/-- All calls of a sequence do so just if each of them does. -/
theorem converts_iff (calls : List Call) :
    (∀ before call after, calls = before ++ call :: after → Ascending Prod.snd call.tree →
      Converts before call) ↔
    ∀ before call after, calls = before ++ call :: after → Ascending Prod.snd call.tree →
      (call.tree = .nil ∨ (added before).sum = 0) ∧ InRange 0 (keys call.tree ++ added before) :=
  forall_congr' fun _ ↦ forall_congr' fun _ ↦ forall_congr' fun _ ↦ imp_congr_right fun _ ↦
    forall_congr' fun hsearch ↦ converts_iff_of_ascending hsearch

/-- A call on a tree of one node. -/
def single (version : Version) : Call :=
  ⟨version, Heap.empty.set 0 ⟨1, none, none⟩, .node (0, 1) .nil .nil, ⟨rfl, trivial, trivial⟩,
    List.nodup_singleton 0⟩

/-- The second of two such calls finds the sum of the first one. -/
theorem not_converts_again : Ascending Prod.snd (single .recursive).tree ∧
    Converts [] (single .recursive) ∧ ¬ Converts [single .recursive] (single .recursive) ∧
      ¬ Converts [single .iterative] (single .iterative) := by
  have hsearch (version : Version) : Ascending Prod.snd (single version).tree :=
    List.pairwise_singleton _ _
  have hnot (version : Version) : ¬ Converts [single version] (single version) := fun h ↦ by
    rcases ((converts_iff_of_ascending (hsearch version)).mp h).1 with hnil | hzero
    · cases hnil
    · exact absurd hzero (by cases version <;> decide)
  have hfirst : InRange 0 [1] := inRange_cons.mpr ⟨inRange_nil 0, by decide⟩
  have hconverts : Converts [] (single .recursive) :=
    (converts_iff_of_ascending (hsearch _)).mpr ⟨Or.inr rfl, hfirst⟩
  exact ⟨hsearch _, hconverts, hnot _, hnot _⟩

end CppLearn.Leetcode.GreaterTree
