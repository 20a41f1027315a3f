import CppLearn.DataStructure.BST
import Mathlib.Data.Finset.Sort

/-!
# Binary search trees as sets

Without `remove`, a program's trees behave as finite sets of elements: `insert` adds an element, copies
and assignments take over all of them, and the trees share no node, so that none changes with another.
`size` counts in 32 bits: this holds as long as no tree comes to have more elements than that. With
2^32 of them the count is 0, for which `traverse` and the copy constructor take an empty tree.
-/

set_option autoImplicit false
set_option relaxedAutoImplicit false

namespace CppLearn.DataStructure.BST

open Foundation.HeapTree Foundation.NodeHeap Foundation.SearchTree Foundation.TreeContext
open Foundation.ValueObjects hiding copyAndSwap

variable {α : Type} {alloc : Allocator (TreeNode α)} {heap : Heap (TreeNode α)} {bst : BST}
  {placed : PlacedTree α}

/-! ### Copies -/

/-- `copy` makes a tree of new nodes with the same contents. -/
theorem copy_spec (alloc : Allocator (TreeNode α)) {fuel : ℕ} {tree : PlacedTree α}
    (hholds : Holds heap tree) (hfuel : tree.numNodes < fuel) :
    ∃ tree' heap', copy alloc fuel heap (root tree) = some (root tree', heap') ∧
      Planted heap tree' heap' ∧ contents tree' = contents tree := by
  induction tree generalizing heap fuel with
  | nil =>
    obtain ⟨fuel, rfl⟩ := Nat.exists_eq_succ_of_ne_zero (Nat.ne_of_gt hfuel)
    exact ⟨.nil, heap, rfl, planted_nil heap, rfl⟩
  | node label left right ihLeft ihRight =>
    obtain ⟨address, val⟩ := label
    obtain ⟨fuel, rfl⟩ := Nat.exists_eq_succ_of_ne_zero (Nat.ne_of_gt (Nat.zero_lt_of_lt hfuel))
    rw [BinaryTree.numNodes] at hfuel
    obtain ⟨new, hnew, hfree⟩ := alloc.exists_address heap
    have hholds₁ := hholds.extends (extends_set hfree ⟨val, none, none⟩)
    obtain ⟨left', heap₂, hleft, hplantedLeft, hcontentsLeft⟩ :=
      ihLeft hholds₁.leftTree (by omega : _ < fuel)
    have hnode : heap₂.node new = some ⟨val, none, none⟩ := hplantedLeft.old.node_eq Heap.set_node_self
    have hholds₂ := hholds.extends
      (((extends_set hfree _).trans hplantedLeft.old).set hfree ⟨val, root left', none⟩)
    obtain ⟨right', heap₃, hright, hplantedRight, hcontentsRight⟩ :=
      ihRight hholds₂.rightTree (by omega : _ < fuel)
    have hnode' : heap₃.node new = some ⟨val, root left', none⟩ :=
      hplantedRight.old.node_eq Heap.set_node_self
    refine ⟨.node (new, val) left' right', _, ?_, hplantedLeft.node hfree hplantedRight val, ?_⟩
    · rw [copy, root_node, if_neg (Option.some_ne_none address)]
      simp only [Heap.load_some, hholds.node_eq, Option.bind_eq_bind, Option.bind_some, Allocator.new, hnew,
        hholds₁.node_eq, hleft, Heap.modify_some hnode, hholds₂.node_eq, hright, Heap.modify_some hnode']
      rfl
    · rw [contents_node, contents_node, hcontentsLeft, hcontentsRight]

/-- `clear` deletes the nodes of the tree and no others. -/
theorem clear_spec {fuel : ℕ} {tree : PlacedTree α} (hholds : Holds heap tree)
    (hnodup : (addresses tree).Nodup) (hfuel : tree.numNodes < fuel) :
    ∃ heap', clear fuel heap (root tree) = some heap' ∧
      SameOff {address | address ∈ addresses tree} heap heap' := by
  induction tree generalizing heap fuel with
  | nil =>
    obtain ⟨fuel, rfl⟩ := Nat.exists_eq_succ_of_ne_zero (Nat.ne_of_gt hfuel)
    exact ⟨heap, rfl, .refl _ heap⟩
  | node label left right ihLeft ihRight =>
    obtain ⟨address, val⟩ := label
    obtain ⟨fuel, rfl⟩ := Nat.exists_eq_succ_of_ne_zero (Nat.ne_of_gt (Nat.zero_lt_of_lt hfuel))
    rw [BinaryTree.numNodes] at hfuel
    obtain ⟨hnodupLeft, hnodupRight, hnotLeft, hnotRight, hdisjoint⟩ := nodup_addresses_node.mp hnodup
    obtain ⟨heap₁, hleft, hsameLeft⟩ := ihLeft hholds.leftTree hnodupLeft (by omega : _ < fuel)
    have hnode : heap₁.node address = some ⟨val, root left, root right⟩ :=
      (hsameLeft address hnotLeft).trans hholds.node_eq
    have hholds₁ : Holds heap₁ right :=
      hholds.rightTree.frame hsameLeft fun other hother hmem ↦ hdisjoint hmem hother
    obtain ⟨heap₂, hright, hsameRight⟩ := ihRight hholds₁ hnodupRight (by omega : _ < fuel)
    obtain ⟨heap', hdelete, -, hsame⟩ :=
      Heap.delete_some ((hsameRight address hnotRight).trans hnode)
    refine ⟨heap', ?_, (hsameLeft.mono ?_).trans ((hsameRight.mono ?_).trans (hsame.mono ?_))⟩
    · rw [clear, root_node, if_neg (Option.some_ne_none address)]
      simp only [Heap.load_some, hholds.node_eq, Option.bind_eq_bind, Option.bind_some, hleft, hnode, hright,
        hdelete]
    · exact fun other hother ↦ mem_addresses_node.mpr (Or.inr (Or.inl hother))
    · exact fun other hother ↦ mem_addresses_node.mpr (Or.inr (Or.inr hother))
    · exact fun other hother ↦ mem_addresses_node.mpr (Or.inl hother)

/-! ### The traversal -/

/-- Nodes on the stack, each with the subtree to its right that is still to come. -/
abbrev Pending (α : Type) := List ((ℕ × α) × PlacedTree α)

def stackOf (pending : Pending α) : List Ptr := pending.map fun node ↦ some node.1.1

/-- What the traversal visits from the stack on. -/
def pendingOrder (pending : Pending α) : List (ℕ × α) :=
  pending.flatMap fun node ↦ node.1 :: inorder node.2

def HoldsPending (heap : Heap (TreeNode α)) (pending : Pending α) : Prop :=
  ∀ node ∈ pending, Holds heap node.2 ∧
    ∃ left, heap.node node.1.1 = some ⟨node.1.2, left, root node.2⟩

/-- The inner loop puts a tree onto the stack. -/
theorem pushLeft_spec {fuel : ℕ} {tree : PlacedTree α} {pending : Pending α} (hholds : Holds heap tree)
    (hpending : HoldsPending heap pending) (hfuel : tree.numNodes < fuel) :
    ∃ pending', pushLeft heap fuel (root tree) (stackOf pending) = some (stackOf pending') ∧
      HoldsPending heap pending' ∧ pendingOrder pending' = inorder tree ++ pendingOrder pending := by
  induction tree generalizing fuel pending with
  | nil =>
    obtain ⟨fuel, rfl⟩ := Nat.exists_eq_succ_of_ne_zero (Nat.ne_of_gt hfuel)
    exact ⟨pending, rfl, hpending, rfl⟩
  | node label left right ihLeft ihRight =>
    obtain ⟨address, val⟩ := label
    obtain ⟨fuel, rfl⟩ := Nat.exists_eq_succ_of_ne_zero (Nat.ne_of_gt (Nat.zero_lt_of_lt hfuel))
    rw [BinaryTree.numNodes] at hfuel
    have hpushed : HoldsPending heap (((address, val), right) :: pending) :=
      List.forall_mem_cons.mpr ⟨⟨hholds.rightTree, root left, hholds.node_eq⟩, hpending⟩
    obtain ⟨pending', hpush, hholds', horder⟩ := @ihLeft fuel _ hholds.leftTree hpushed (by omega)
    refine ⟨pending', ?_, hholds', ?_⟩
    · rw [pushLeft, root_node, if_neg (Option.some_ne_none address), Heap.load_some, hholds.node_eq]
      exact hpush
    · rw [horder, inorder_node, List.append_assoc]
      rfl

/-- The outer loop visits the tree and what is on the stack, in order. -/
theorem visitLoop_spec {fuel : ℕ} {tree : PlacedTree α} {pending : Pending α} {out : List α}
    (hholds : Holds heap tree) (hpending : HoldsPending heap pending)
    (hbound : (inorder tree ++ pendingOrder pending).length ≤ heap.bound)
    (hfuel : (inorder tree ++ pendingOrder pending).length < fuel) :
    visitLoop heap fuel (root tree) (stackOf pending) out =
      some (out ++ (inorder tree ++ pendingOrder pending).map Prod.snd) := by
  induction fuel generalizing tree pending out with
  | zero => omega
  | succ fuel ih =>
    by_cases hend : root tree = none ∧ stackOf pending = []
    · obtain ⟨htree, hstack⟩ := hend
      obtain rfl := root_eq_none.mp htree
      obtain rfl := List.map_eq_nil_iff.mp hstack
      rw [visitLoop, if_pos ⟨htree, hstack⟩]
      exact congrArg some (List.append_nil out).symm
    have hcount : tree.numNodes < heap.bound + 1 := by
      rw [List.length_append, length_inorder] at hbound
      omega
    obtain ⟨pending', hpush, hholds', horder⟩ := pushLeft_spec hholds hpending hcount
    rw [← horder] at hbound hfuel ⊢
    cases pending' with
    | nil =>
      refine absurd ?_ hend
      have hnil : inorder tree = [] ∧ pendingOrder pending = [] := List.append_eq_nil_iff.mp horder.symm
      constructor
      · have hzero := length_inorder tree
        rw [hnil.1] at hzero
        cases tree with
        | nil => rfl
        | node label left right => exact absurd hzero (by simp [BinaryTree.numNodes])
      · cases pending with
        | nil => rfl
        | cons node pending => cases hnil.2
    | cons node pending' =>
      obtain ⟨⟨address, val⟩, right⟩ := node
      obtain ⟨⟨hright, left, hnode⟩, hrest⟩ := List.forall_mem_cons.mp hholds'
      have hright' : Holds heap right := hright
      have hsplit : pendingOrder (((address, val), right) :: pending') =
          (address, val) :: (inorder right ++ pendingOrder pending') := rfl
      rw [hsplit, List.length_cons] at hbound hfuel
      rw [visitLoop, if_neg hend, hpush]
      simp only [Option.bind_eq_bind, Option.bind_some, stackOf, List.map_cons, Heap.load_some, hnode]
      rw [← stackOf, ih hright' hrest (by omega) (by omega), hsplit, List.map_cons, List.append_assoc]
      rfl

/-! ### Sets of elements -/

variable [LinearOrder α] {owned : Set ℕ} {elems : Finset α}

/-- The object has a search tree of the elements, and owns its nodes. -/
def Stands (heap : Heap (TreeNode α)) (bst : BST) (owned : Set ℕ) (elems : Finset α) : Prop :=
  ∃ placed, Represents heap bst placed ∧ owned = {address | address ∈ addresses placed} ∧
    elems = (keys placed).toFinset

theorem Reaches.frame {ptr : Ptr} {changed : Set ℕ} {heap' : Heap (TreeNode α)}
    (h : Reaches heap ptr placed) (hsame : SameOff changed heap heap')
    (hdisjoint : Disjoint {address | address ∈ addresses placed} changed) :
    Reaches heap' ptr placed :=
  ⟨h.root_eq, h.holds.frame hsame fun _ hmem ↦ Set.disjoint_left.mp hdisjoint hmem, h.nodup,
    h.ascending⟩

theorem Reaches.nodup_keys {ptr : Ptr} (h : Reaches heap ptr placed) : (keys placed).Nodup :=
  h.ascending.nodup_keys

theorem Reaches.card_keys {ptr : Ptr} (h : Reaches heap ptr placed) :
    (keys placed).toFinset.card = placed.numNodes := by
  rw [List.toFinset_card_of_nodup h.nodup_keys, keys, List.length_map, length_inorder]

theorem Represents.size_eq_zero (h : Represents heap bst placed) : size bst = 0 ↔ placed = .nil := by
  have hsize := h.size_eq
  rw [size, ← BitVec.toNat_inj, hsize]
  cases placed with
  | nil => simp
  | node label left right => simp [BinaryTree.numNodes]

/-- What an object shows of its elements. -/
structure Shows (heap : Heap (TreeNode α)) (bst : BST) (elems : Finset α) : Prop where
  find_eq : ∀ elem, find elem heap bst = some (decide (elem ∈ elems))
  size_eq : (size bst).toNat = elems.card
  visits_eq : visits heap bst = some elems.sort

theorem Represents.visits_eq (h : Represents heap bst placed) :
    visits heap bst = some (keys placed) := by
  by_cases hsize : size bst = 0
  · obtain rfl := h.size_eq_zero.mp hsize
    rw [visits, if_neg (not_not.mpr hsize)]
    rfl
  · have hcount := h.holds.numNodes_le h.nodup
    have hloop := @visitLoop_spec α heap (heap.bound + 1) placed [] [] h.holds nofun
    rw [pendingOrder, List.flatMap_nil, List.append_nil, length_inorder, h.root_eq] at hloop
    rw [visits, if_pos hsize]
    exact hloop hcount (Nat.lt_succ_of_le hcount)

theorem Shows.traverse_eq (h : Shows heap bst elems) (write : α → String) :
    traverse write heap bst =
      some ("\x7b [lxy::BST] " ++ String.join (elems.sort.map fun elem ↦ write elem ++ " ") ++ "\x7d") := by
  rw [traverse, h.visits_eq]
  rfl

theorem Stands.shows (h : Stands heap bst owned elems) : Shows heap bst elems := by
  obtain ⟨placed, hrepresents, -, rfl⟩ := h
  refine ⟨fun elem ↦ ?_, ?_, ?_⟩
  · simp only [hrepresents.find_eq, List.mem_toFinset]
  · rw [hrepresents.card_keys]
    exact hrepresents.size_eq
  · rw [hrepresents.visits_eq, (List.toFinset_sort _ hrepresents.nodup_keys).mpr]
    exact (ascending_iff.mp hrepresents.ascending).imp fun hless ↦ hless.le

/-- The objects of the class in one heap. -/
def objects (alloc : Allocator (TreeNode α)) : Class (Heap (TreeNode α)) BST α Bool where
  construct := construct
  copyConstruct := copyConstruct alloc
  assign := assign alloc
  swap := swap
  update := insert alloc

/-- `insert` into a set. -/
def insertElem (elem : α) (elems : Finset α) : Bool × Finset α :=
  (decide (elem ∉ elems), Insert.insert elem elems)

/-- So many elements can be counted. -/
def Counted (elems : Finset α) : Prop := elems.card < 2 ^ 32

theorem Stands.live (h : Stands heap bst owned elems) : ∀ address ∈ owned, heap.node address ≠ none := by
  obtain ⟨placed, hrepresents, rfl, -⟩ := h
  exact fun address hmem ↦ hrepresents.holds.node_ne_none hmem

theorem Stands.frame {changed : Set ℕ} {heap' : Heap (TreeNode α)} (h : Stands heap bst owned elems)
    (hsame : SameOff changed heap heap') (hdisjoint : Disjoint owned changed) :
    Stands heap' bst owned elems := by
  obtain ⟨placed, hrepresents, rfl, rfl⟩ := h
  exact ⟨placed, ⟨hrepresents.toReaches.frame hsame hdisjoint, hrepresents.size_eq⟩, rfl, rfl⟩

theorem stands_construct (heap : Heap (TreeNode α)) : Stands heap construct ∅ ∅ :=
  ⟨.nil, represents_construct heap, by ext; simp, rfl⟩

theorem Stands.copyConstruct_replaces (h : Stands heap bst owned elems)
    (alloc : Allocator (TreeNode α)) :
    ∃ bst' heap' owned', copyConstruct alloc heap bst = some (bst', heap') ∧
      Replaces Stands heap ∅ heap' bst' owned' elems := by
  obtain ⟨placed, hrepresents, rfl, rfl⟩ := h
  by_cases hsize : size bst = 0
  · obtain rfl := hrepresents.size_eq_zero.mp hsize
    obtain rfl : bst = construct := by
      obtain ⟨mRoot, mSize⟩ := bst
      obtain rfl : none = mRoot := hrepresents.root_eq
      obtain rfl : mSize = 0 := hsize
      rfl
    exact ⟨construct, heap, ∅, rfl, stands_construct heap, Set.empty_subset _, .refl _ heap⟩
  · obtain ⟨tree, heap', hcopy, hplanted, hcontents⟩ := copy_spec alloc hrepresents.holds
      (Nat.lt_succ_of_le (hrepresents.holds.numNodes_le hrepresents.nodup))
    have hkeys : keys tree = keys placed := by
      rw [keys, keys, ← inorder_map, ← inorder_map]
      exact congrArg inorder hcontents
    have hascending : Ascending Prod.snd tree := by
      rw [ascending_iff, hkeys]
      exact ascending_iff.mp hrepresents.ascending
    refine ⟨⟨root tree, bst.mSize⟩, heap', {address | address ∈ addresses tree}, ?_,
      ⟨tree, ⟨⟨rfl, hplanted.holds, hplanted.nodup, hascending⟩, ?_⟩, rfl, by rw [hkeys]⟩, ?_, ?_⟩
    · rw [copyConstruct, if_pos hsize, ← hrepresents.root_eq, hcopy]
      rfl
    · have hcount := congrArg List.length hkeys
      rw [keys, keys, List.length_map, List.length_map, length_inorder, length_inorder] at hcount
      rw [hcount]
      exact hrepresents.size_eq
    · rw [writable_empty]
      exact hplanted.fresh
    · rw [writable_empty]
      exact hplanted.old

theorem Stands.destruct_sameOff (h : Stands heap bst owned elems) :
    ∃ heap', destruct heap bst = some heap' ∧ SameOff owned heap heap' := by
  obtain ⟨placed, hrepresents, rfl, -⟩ := h
  by_cases hsize : size bst = 0
  · exact ⟨heap, if_neg (not_not.mpr hsize), .refl _ heap⟩
  · rw [destruct, if_pos hsize, ← hrepresents.root_eq]
    exact clear_spec hrepresents.holds hrepresents.nodup
      (Nat.lt_succ_of_le (hrepresents.holds.numNodes_le hrepresents.nodup))

theorem Stands.assign_replaces {bst' : BST} {owned' : Set ℕ} {elems' : Finset α}
    (h : Stands heap bst owned elems) (h' : Stands heap bst' owned' elems')
    (alloc : Allocator (TreeNode α)) :
    ∃ bst'' heap' owned'', assign alloc heap bst bst' = some (bst'', heap') ∧
      Replaces Stands heap owned heap' bst'' owned'' elems' :=
  copyAndSwap_replaces Stands.live Stands.frame (fun hcopied ↦ hcopied.copyConstruct_replaces alloc)
    (fun _ _ ↦ rfl) Stands.destruct_sameOff h h'

theorem Stands.insert_replaces (h : Stands heap bst owned elems) (alloc : Allocator (TreeNode α))
    (elem : α) (hcounted : Counted (insertElem elem elems).2) :
    ∃ bst' heap' owned', insert alloc elem heap bst = some ((insertElem elem elems).1, bst', heap') ∧
      Replaces Stands heap owned heap' bst' owned' (insertElem elem elems).2 := by
  obtain ⟨placed, hrepresents, rfl, rfl⟩ := h
  by_cases hmem : elem ∈ keys placed
  · have hmem' : elem ∈ (keys placed).toFinset := List.mem_toFinset.mpr hmem
    refine ⟨bst, heap, {address | address ∈ addresses placed}, ?_,
      ⟨placed, hrepresents, rfl, Finset.insert_eq_of_mem hmem'⟩, Set.subset_union_left, .refl _ heap⟩
    rw [hrepresents.insert_of_mem hmem, insertElem, decide_eq_false (not_not.mpr hmem')]
  · have hmem' : elem ∉ (keys placed).toFinset := fun h ↦ hmem (List.mem_toFinset.mp h)
    obtain ⟨placed', address, bst', heap', hinsert, hreaches, hsize, hfree, hperm, hsame⟩ :=
      @Reaches.insert_of_notMem _ _ alloc _ _ _ _ hrepresents.toReaches hmem
    have hkeys : (keys placed').Perm (elem :: keys placed) := hperm.map Prod.snd
    have hset : (keys placed').toFinset = Insert.insert elem (keys placed).toFinset := by
      rw [List.toFinset_eq_of_perm _ _ hkeys, List.toFinset_cons]
    have haddresses : (addresses placed').Perm (address :: addresses placed) := hperm.map Prod.fst
    refine ⟨bst', heap', {other | other ∈ addresses placed'}, ?_,
      ⟨placed', ⟨hreaches, ?_⟩, rfl, hset.symm⟩, fun other hother ↦ ?_, hsame.mono fun other hother ↦ ?_⟩
    · rw [hinsert, insertElem, decide_eq_true hmem']
    · have hold := hrepresents.size_eq
      have hcount := hperm.length_eq
      rw [Counted, insertElem, Finset.card_insert_of_notMem hmem', hrepresents.card_keys] at hcounted
      rw [List.length_cons, length_inorder, length_inorder] at hcount
      rw [hsize]
      bv_omega
    · rcases List.mem_cons.mp (haddresses.mem_iff.mp hother) with rfl | hother
      · exact Or.inr hfree
      · exact Or.inl hother
    · rcases hother with rfl | hother
      · exact Or.inr hfree
      · exact Or.inl hother

/-- The class implements sets of elements. -/
theorem implements (alloc : Allocator (TreeNode α)) :
    Implements (objects alloc) Stands Counted ∅ insertElem where
  live := Stands.live
  frame := Stands.frame
  construct := stands_construct
  copyConstruct := fun h ↦ h.copyConstruct_replaces alloc
  assign := fun h h' ↦ h.assign_replaces h' alloc
  swap := fun _ _ ↦ rfl
  update := fun elem _ _ _ _ h hcounted ↦ h.insert_replaces alloc elem hcounted

/-! ### Runs -/

theorem Shows.elems_eq {elems' : Finset α} (h : Shows heap bst elems) (h' : Shows heap bst elems') :
    elems = elems' := by
  ext elem
  have heq := Option.some.inj ((h.find_eq elem).symm.trans (h'.find_eq elem))
  exact decide_eq_decide.mp heq

/-- Trees behave as sets, as long as no set has more elements than can be counted. -/
theorem behavesAsSets (alloc : Allocator (TreeNode α)) (heap : Heap (TreeNode α))
    {actions : List (Action α)} (hcounted : FitsThroughout Counted ∅ insertElem actions) :
    BehavesAsValues (objects alloc) Shows ∅ insertElem heap actions :=
  behavesAsValues_of_fits (implements alloc) Stands.shows Shows.elems_eq hcounted

/-- Two trees, of which the second is a copy that is inserted into. -/
theorem behavesAsSets_copy :
    BehavesAsValues (objects .next) Shows ∅ insertElem Heap.empty
      ([.construct, .update 0 2, .copyConstruct 0, .update 1 3] : List (Action ℤ)) :=
  behavesAsSets _ _ (fitsThroughout_of_length Finset.card_empty
    (fun elem elems ↦ Finset.card_insert_le elem elems) (by decide))

/-- The program that inserts elements into one tree. -/
def insertions (elems : List α) : List (Action α) := .construct :: elems.map (.update 0)

theorem run_insertions (elems : List α) : ∃ results,
    run (values ∅ insertElem) () (insertions elems) = some ⟨[elems.toFinset], (), results⟩ := by
  induction elems using List.reverseRecOn with
  | nil => exact ⟨[], rfl⟩
  | append_singleton elems elem ih =>
    obtain ⟨results, hrun⟩ := ih
    have hsplit : insertions (elems ++ [elem]) = insertions elems ++ [.update 0 elem] := by
      rw [insertions, List.map_append]
      rfl
    refine ⟨results ++ [(insertElem elem elems.toFinset).1], ?_⟩
    rw [hsplit, run_append, hrun, List.toFinset_append, Finset.union_comm]
    rfl

/-- More elements than can be counted. -/
theorem not_behavesAsSets_of_le {elems : List α} (hnodup : elems.Nodup)
    (hle : 2 ^ 32 ≤ elems.length) (alloc : Allocator (TreeNode α)) (heap : Heap (TreeNode α)) :
    ¬ BehavesAsValues (objects alloc) Shows ∅ insertElem heap (insertions elems) := by
  intro hbehaves
  have hcounted : FitsThroughout Counted ∅ insertElem (insertions elems) :=
    hbehaves.fits fun h ↦ by
      rw [Counted, ← h.size_eq]
      exact BitVec.isLt _
  obtain ⟨results, hrun⟩ := run_insertions elems
  have hless := hcounted _ (List.prefix_refl _) _ hrun _ (List.mem_singleton_self _)
  rw [Counted, List.toFinset_card_of_nodup hnodup] at hless
  exact absurd hle hless.not_ge

/-- The numbers below 2^32. -/
theorem not_behavesAsSets_range :
    ¬ BehavesAsValues (objects .next) Shows ∅ insertElem Heap.empty (insertions (List.range (2 ^ 32))) :=
  not_behavesAsSets_of_le List.nodup_range List.length_range.ge _ _

end CppLearn.DataStructure.BST
