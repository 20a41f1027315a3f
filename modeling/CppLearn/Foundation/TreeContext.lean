import CppLearn.Foundation.HeapTree

/-!
# Trees with a hole

A place in a binary tree is given by what is around it: the nodes from the place up to the root,
each with the subtree on its other side. A tree is such a context filled at its hole. In a heap, the
lowest node of the context has the pointer to what fills it, and another tree takes the place when
that pointer is written.
-/

set_option autoImplicit false
set_option relaxedAutoImplicit false

namespace CppLearn.Foundation.TreeContext

open HeapTree NodeHeap

universe u

variable {α : Type u}

/-- A node with a hole to its left or right, and the subtree on the other side. -/
inductive Step (α : Type u)
  | goLeft (val : α) (right : BinaryTree α)
  | goRight (val : α) (left : BinaryTree α)

/-- The nodes above a hole, the lowest first. -/
abbrev Context (α : Type u) := List (Step α)

def Step.val : Step α → α
  | .goLeft val _ => val
  | .goRight val _ => val

def Step.sibling : Step α → BinaryTree α
  | .goLeft _ right => right
  | .goRight _ left => left

def Step.fill : Step α → BinaryTree α → BinaryTree α
  | .goLeft val right, tree => .node val tree right
  | .goRight val left, tree => .node val left tree

def fill : Context α → BinaryTree α → BinaryTree α
  | [], tree => tree
  | step :: context, tree => fill context (step.fill tree)

/-- The values before the hole. -/
def before : Context α → List α
  | [] => []
  | .goLeft _ _ :: context => before context
  | .goRight val left :: context => before context ++ (inorder left ++ [val])

/-- The values behind it. -/
def after : Context α → List α
  | [] => []
  | .goLeft val right :: context => val :: (inorder right ++ after context)
  | .goRight _ _ :: context => after context

theorem inorder_fill (context : Context α) (tree : BinaryTree α) :
    inorder (fill context tree) = before context ++ (inorder tree ++ after context) := by
  induction context generalizing tree with
  | nil => exact (List.append_nil _).symm
  | cons step context ih =>
    rw [fill, ih]
    cases step with
    | goLeft val right => simp [Step.fill, before, after]
    | goRight val left => simp [Step.fill, before, after]

/-! ### Contexts in a heap -/

variable {heap heap' : Heap (TreeNode α)} {context : Context (ℕ × α)} {step : Step (ℕ × α)}
  {tree : PlacedTree α} {below below' : Ptr}

/-- The node of a step, with a pointer at the hole. -/
def nodeOver : Step (ℕ × α) → Ptr → TreeNode α
  | .goLeft (_, val) right, below => ⟨val, below, root right⟩
  | .goRight (_, val) left, below => ⟨val, root left, below⟩

/-- The heap has the nodes of the context, and the lowest one the pointer `below`. -/
def HoldsContext (heap : Heap (TreeNode α)) : Context (ℕ × α) → Ptr → Prop
  | [], _ => True
  | step :: context, below => heap.node step.val.1 = some (nodeOver step below) ∧
      Holds heap step.sibling ∧ HoldsContext heap context (some step.val.1)

theorem holds_stepFill : Holds heap (step.fill tree) ↔
    heap.node step.val.1 = some (nodeOver step (root tree)) ∧ Holds heap step.sibling ∧
      Holds heap tree := by
  cases step with
  | goLeft label right => exact and_congr_right fun _ ↦ and_comm
  | goRight label left => exact Iff.rfl

theorem root_stepFill (step : Step (ℕ × α)) (tree : PlacedTree α) :
    root (step.fill tree) = some step.val.1 := by
  cases step with
  | goLeft label right => rfl
  | goRight label left => rfl

theorem holds_fill : Holds heap (fill context tree) ↔
    Holds heap tree ∧ HoldsContext heap context (root tree) := by
  induction context generalizing tree with
  | nil => exact (and_iff_left trivial).symm
  | cons step context ih =>
    rw [fill, ih, holds_stepFill, root_stepFill, HoldsContext]
    tauto

/-- The pointer to the tree, from the one at the hole. -/
def contextRoot : Context (ℕ × α) → Ptr → Ptr
  | [], below => below
  | step :: context, _ => contextRoot context (some step.val.1)

theorem root_fill : root (fill context tree) = contextRoot context (root tree) := by
  induction context generalizing tree with
  | nil => rfl
  | cons step context ih => rw [fill, ih, root_stepFill, contextRoot]

/-- The node above the hole, or a pointer where there is none. -/
def holeParent : Context (ℕ × α) → Ptr → Ptr
  | [], start => start
  | step :: _, _ => some step.val.1

/-- A tree that begins as a context does goes on below the hole. -/
theorem HoldsContext.exists_below (h : HoldsContext heap context below) (htree : Holds heap tree)
    (hroot : root tree = contextRoot context below) :
    ∃ subtree : PlacedTree α, Holds heap subtree ∧ root subtree = below := by
  induction context generalizing below with
  | nil => exact ⟨tree, htree, hroot⟩
  | cons step context ih =>
    obtain ⟨hnode, -, hcontext⟩ := h
    obtain ⟨subtree, hholds, hsubtree⟩ := ih hcontext hroot
    obtain ⟨val, left, right, rfl⟩ := exists_of_root hsubtree
    have hsame := hholds.node_eq.symm.trans hnode
    cases step with
    | goLeft label sibling =>
      have hleft : root left = below := congrArg TreeNode.left (Option.some.inj hsame)
      exact ⟨left, hholds.leftTree, hleft⟩
    | goRight label sibling =>
      have hright : root right = below := congrArg TreeNode.right (Option.some.inj hsame)
      exact ⟨right, hholds.rightTree, hright⟩

def contextAddresses (context : Context (ℕ × α)) : List ℕ :=
  (before context ++ after context).map Prod.fst

theorem perm_addresses_fill (context : Context (ℕ × α)) (tree : PlacedTree α) :
    (addresses (fill context tree)).Perm (addresses tree ++ contextAddresses context) := by
  rw [addresses, inorder_fill, addresses, contextAddresses, ← List.map_append]
  refine List.Perm.map _ ?_
  rw [← List.append_assoc, ← List.append_assoc]
  exact List.perm_append_comm.append_right _

theorem perm_contextAddresses_cons (step : Step (ℕ × α)) (context : Context (ℕ × α)) :
    (contextAddresses (step :: context)).Perm
      (step.val.1 :: (addresses step.sibling ++ contextAddresses context)) := by
  have hperm := (perm_addresses_fill (step :: context) .nil).symm.trans
    (perm_addresses_fill context (step.fill .nil))
  refine hperm.trans ?_
  cases step with
  | goLeft label right =>
    obtain ⟨address, val⟩ := label
    simp [Step.fill, Step.val, Step.sibling]
  | goRight label left =>
    obtain ⟨address, val⟩ := label
    simp only [Step.fill, Step.val, Step.sibling, addresses_node, addresses_nil, List.append_assoc,
      List.singleton_append]
    exact List.perm_middle

/-- A context stays while the heap changes elsewhere. -/
theorem HoldsContext.frame {changed : Set ℕ} (h : HoldsContext heap context below)
    (hsame : SameOff changed heap heap')
    (hdisjoint : ∀ address ∈ contextAddresses context, address ∉ changed) :
    HoldsContext heap' context below := by
  induction context generalizing below with
  | nil => trivial
  | cons step context ih =>
    obtain ⟨hnode, hsibling, hcontext⟩ := h
    have hmem {address : ℕ} (hor : address = step.val.1 ∨ address ∈ addresses step.sibling ∨
        address ∈ contextAddresses context) : address ∉ changed := by
      refine hdisjoint address ((perm_contextAddresses_cons step context).mem_iff.mpr ?_)
      rwa [List.mem_cons, List.mem_append]
    refine ⟨?_, hsibling.frame hsame fun other hother ↦ hmem (Or.inr (Or.inl hother)),
      ih hcontext fun other hother ↦ hmem (Or.inr (Or.inr hother))⟩
    rw [hsame step.val.1 (hmem (Or.inl rfl)), hnode]

theorem address_mem_contextAddresses (step : Step (ℕ × α)) (context : Context (ℕ × α)) :
    step.val.1 ∈ contextAddresses (step :: context) :=
  (perm_contextAddresses_cons step context).mem_iff.mpr List.mem_cons_self

/-- The pointer at the hole is written. -/
theorem HoldsContext.redirect (h : HoldsContext heap (step :: context) below)
    (hnodup : (contextAddresses (step :: context)).Nodup) (below' : Ptr) :
    HoldsContext (heap.set step.val.1 (nodeOver step below')) (step :: context) below' := by
  rw [(perm_contextAddresses_cons step context).nodup_iff, List.nodup_cons,
    List.mem_append] at hnodup
  obtain ⟨hnot, -⟩ := hnodup
  refine ⟨Heap.set_node_self, h.2.1.set fun hmem ↦ hnot (Or.inl hmem),
    h.2.2.frame (sameOff_set heap _ _) ?_⟩
  rintro other hother rfl
  exact hnot (Or.inr hother)

/-- Another tree takes the place. -/
theorem HoldsContext.replace (h : HoldsContext heap (step :: context) below)
    (hnodup : (contextAddresses (step :: context)).Nodup) (htree : Holds heap tree)
    (hdisjoint : (addresses tree).Disjoint (contextAddresses (step :: context))) :
    Holds (heap.set step.val.1 (nodeOver step (root tree))) (fill (step :: context) tree) := by
  refine holds_fill.mpr ⟨htree.set fun hmem ↦ ?_, h.redirect hnodup _⟩
  exact hdisjoint hmem (address_mem_contextAddresses step context)

end CppLearn.Foundation.TreeContext
