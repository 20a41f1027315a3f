import CppLearn.Foundation.HeapTree
import Mathlib.Algebra.GroupWithZero.Nat
import Mathlib.Algebra.Order.Group.Nat

/-!
# Walks over a tree with a stack

A loop that goes down on one side as far as it can, puts the nodes on a stack, and takes one off to
go on with its other side, does what a recursion does: at each node something early, then the
subtree on the near side, then something late, then the one on the far side. Both are given as
changes of a state, and the links may be read from the state.
-/

set_option autoImplicit false
set_option relaxedAutoImplicit false

namespace CppLearn.Foundation.StackWalk

open HeapTree NodeHeap

universe u

variable {α : Type u} {σ : Type}

/-- What the loop reads and does at a node. -/
structure Walker (σ : Type) where
  near : σ → Ptr → Option Ptr
  far : σ → Ptr → Option Ptr
  early : σ → Ptr → Option σ
  late : σ → Ptr → Option σ

namespace Walker

variable (walker : Walker σ)

/-- The inner loop: down on the near side, with a limit on its rounds. -/
def descend : ℕ → Ptr → List Ptr → σ → Option (List Ptr × σ)
  | 0, _, _, _ => none
  | fuel + 1, ptr, unvisited, state =>
    if ptr ≠ none then do
      let state ← walker.early state ptr
      let next ← walker.near state ptr
      descend fuel next (ptr :: unvisited) state
    else some (unvisited, state)

/-- The outer loop, with a limit on its rounds and one on those of the inner one. -/
def walk (depth : ℕ) : ℕ → Ptr → List Ptr → σ → Option σ
  | 0, _, _, _ => none
  | fuel + 1, ptr, unvisited, state =>
    if ptr ≠ none ∨ unvisited ≠ [] then do
      let (unvisited, state) ← walker.descend depth ptr unvisited state
      let top ← unvisited.head?
      let state ← walker.late state top
      let next ← walker.far state top
      walk depth fuel next unvisited.tail state
    else some state

/-- What is done at an address, early or late. -/
inductive Visit
  | early (address : ℕ)
  | late (address : ℕ)

def visit (state : σ) : Visit → Option σ
  | .early address => walker.early state (some address)
  | .late address => walker.late state (some address)

end Walker

open Walker

/-- What the recursion does on a tree, the near side of which is its left one. -/
def visits : PlacedTree α → List Visit
  | .nil => []
  | .node (address, _) near far =>
    .early address :: (visits near ++ .late address :: visits far)

/-- The links of a tree are read as they are. -/
def Links (walker : Walker σ) (state : σ) : PlacedTree α → Prop
  | .nil => True
  | .node (address, _) near far =>
    walker.near state (some address) = some (root near) ∧
      walker.far state (some address) = some (root far) ∧ Links walker state near ∧
        Links walker state far

/-- In all states that an invariant allows. -/
def Linked (walker : Walker σ) (inv : σ → Prop) (tree : PlacedTree α) : Prop :=
  ∀ state, inv state → Links walker state tree

/-- Near is to the left and far is to the right. -/
def LeftFirst (walker : Walker σ) (state : σ) (heap : Heap (TreeNode α)) : Prop :=
  ∀ address node, heap.node address = some node →
    walker.near state (some address) = some node.left ∧
      walker.far state (some address) = some node.right

/-- Near is to the right and far is to the left. -/
def RightFirst (walker : Walker σ) (state : σ) (heap : Heap (TreeNode α)) : Prop :=
  ∀ address node, heap.node address = some node →
    walker.near state (some address) = some node.right ∧
      walker.far state (some address) = some node.left

/-- The invariant is kept by whatever is done. -/
def Kept (walker : Walker σ) (inv : σ → Prop) : Prop :=
  ∀ visit state state', inv state → walker.visit state visit = some state' → inv state'

variable {walker : Walker σ} {inv : σ → Prop} {tree near far : PlacedTree α} {address : ℕ} {val : α}

theorem Linked.near_eq (h : Linked walker inv (.node (address, val) near far)) {state : σ}
    (hinv : inv state) : walker.near state (some address) = some (root near) := (h state hinv).1

theorem Linked.far_eq (h : Linked walker inv (.node (address, val) near far)) {state : σ}
    (hinv : inv state) : walker.far state (some address) = some (root far) := (h state hinv).2.1

theorem Linked.nearTree (h : Linked walker inv (.node (address, val) near far)) :
    Linked walker inv near := fun state hinv ↦ (h state hinv).2.2.1

theorem Linked.farTree (h : Linked walker inv (.node (address, val) near far)) :
    Linked walker inv far := fun state hinv ↦ (h state hinv).2.2.2

/-- The links of a tree in a heap. -/
theorem LeftFirst.links {heap : Heap (TreeNode α)} {state : σ}
    (h : LeftFirst walker state heap) (hholds : Holds heap tree) : Links walker state tree := by
  induction tree with
  | nil => trivial
  | node cell left right ihLeft ihRight =>
    obtain ⟨hnear, hfar⟩ := h _ _ hholds.node_eq
    exact ⟨hnear, hfar, ihLeft hholds.leftTree, ihRight hholds.rightTree⟩

/-- A loop that starts on the other side takes the mirrored tree. -/
theorem RightFirst.links {heap : Heap (TreeNode α)} {state : σ}
    (h : RightFirst walker state heap) (hholds : Holds heap tree) :
    Links walker state (mirror tree) := by
  induction tree with
  | nil => trivial
  | node cell left right ihLeft ihRight =>
    obtain ⟨hnear, hfar⟩ := h _ _ hholds.node_eq
    refine ⟨?_, ?_, ihRight hholds.rightTree, ihLeft hholds.leftTree⟩
    · rw [root_mirror]
      exact hnear
    · rw [root_mirror]
      exact hfar

/-! ### The stack -/

/-- The nodes on the stack, each with the subtree on its far side. -/
abbrev Entries (α : Type u) := List (ℕ × PlacedTree α)

/-- What is still to be done about them. -/
def pending (entries : Entries α) : List Visit :=
  entries.flatMap fun entry ↦ .late entry.1 :: visits entry.2

/-- As many nodes are involved. -/
def weight (entries : Entries α) : ℕ := (entries.map fun entry ↦ entry.2.numNodes + 1).sum

def ptrs (entries : Entries α) : List Ptr := entries.map fun entry ↦ some entry.1

/-- The far sides are read as they are. -/
def Stacked (walker : Walker σ) (inv : σ → Prop) (entries : Entries α) : Prop :=
  ∀ entry ∈ entries, Linked walker inv entry.2 ∧
    ∀ state, inv state → walker.far state (some entry.1) = some (root entry.2)

/-- What is done on the way down on the near side. -/
def down : PlacedTree α → List Visit
  | .nil => []
  | .node (address, _) near _ => .early address :: down near

/-- What is on the stack for it, then. -/
def spine : PlacedTree α → Entries α
  | .nil => []
  | .node (address, _) near far => spine near ++ [(address, far)]

variable {entries : Entries α} {state state' : σ}

theorem pending_append (new : Entries α) :
    pending (new ++ entries) = pending new ++ pending entries := List.flatMap_append

theorem weight_append (new : Entries α) :
    weight (new ++ entries) = weight new + weight entries := by
  rw [weight, List.map_append, List.sum_append, weight, weight]

theorem visits_eq (tree : PlacedTree α) : visits tree = down tree ++ pending (spine tree) := by
  induction tree with
  | nil => rfl
  | node cell near far ihNear _ =>
    obtain ⟨address, val⟩ := cell
    rw [visits, ihNear, down, spine, pending_append, List.cons_append, List.append_assoc]
    exact congrArg (fun list ↦ Visit.early address :: (down near ++ (pending (spine near) ++ list)))
      (List.flatMap_singleton ..).symm

theorem weight_spine (tree : PlacedTree α) : weight (spine tree) = tree.numNodes := by
  induction tree with
  | nil => rfl
  | node cell near far ihNear _ =>
    rw [spine, weight_append, ihNear, BinaryTree.numNodes, weight, List.map_singleton,
      List.sum_singleton, Nat.add_assoc]

theorem spine_eq_nil (h : spine tree = []) : tree = .nil := by
  cases tree with
  | nil => rfl
  | node cell near far =>
    exact absurd h (List.append_ne_nil_of_right_ne_nil _ (List.cons_ne_nil _ _))

theorem stacked_spine (hlinked : Linked walker inv tree) : Stacked walker inv (spine tree) := by
  induction tree with
  | nil => nofun
  | node cell near far ihNear _ =>
    obtain ⟨address, val⟩ := cell
    refine List.forall_mem_append.mpr ⟨ihNear hlinked.nearTree, List.forall_mem_singleton.mpr ?_⟩
    exact ⟨hlinked.farTree, fun state hinv ↦ hlinked.far_eq hinv⟩

/-- What is done keeps the invariant. -/
theorem Kept.foldlM (hkept : Kept walker inv) {list : List Visit} (hinv : inv state)
    (hrun : list.foldlM walker.visit state = some state') : inv state' := by
  induction list generalizing state with
  | nil =>
    obtain rfl : state = state' := Option.some.inj hrun
    exact hinv
  | cons visit list ih =>
    rw [List.foldlM_cons, Option.bind_eq_bind, Option.bind_eq_some_iff] at hrun
    obtain ⟨state1, hvisit, hrest⟩ := hrun
    exact ih (hkept _ _ _ hinv hvisit) hrest

/-- The inner loop does the early visits on its way, and leaves the others to the stack. -/
theorem descend_eq {fuel : ℕ} (hkept : Kept walker inv) (hlinked : Linked walker inv tree)
    (hinv : inv state) (hfuel : tree.numNodes < fuel) :
    walker.descend fuel (root tree) (ptrs entries) state =
      ((down tree).foldlM walker.visit state).map fun state ↦
        (ptrs (spine tree ++ entries), state) := by
  induction tree generalizing fuel entries state with
  | nil =>
    obtain ⟨fuel, rfl⟩ := Nat.exists_eq_succ_of_ne_zero (Nat.ne_zero_of_lt hfuel)
    rfl
  | node cell near far ihNear _ =>
    obtain ⟨address, val⟩ := cell
    obtain ⟨fuel, rfl⟩ := Nat.exists_eq_succ_of_ne_zero (Nat.ne_zero_of_lt hfuel)
    rw [BinaryTree.numNodes] at hfuel
    rw [descend, root_node, if_pos (Option.some_ne_none address), down, List.foldlM_cons, visit]
    cases hearly : walker.early state (some address) with
    | none => rfl
    | some state1 =>
      have hinv1 := hkept (.early address) state state1 hinv hearly
      have hdescend := @ihNear ((address, far) :: entries) state1 fuel hlinked.nearTree hinv1
        (by omega)
      rw [Option.bind_eq_bind, Option.bind_some, hlinked.near_eq hinv1, Option.bind_eq_bind,
        Option.bind_some, Option.bind_eq_bind, Option.bind_some, spine, List.append_assoc]
      exact hdescend

/-- The loop does what is left to do. -/
theorem walk_eq_foldlM {depth fuel : ℕ} (hkept : Kept walker inv) (hlinked : Linked walker inv tree)
    (hstacked : Stacked walker inv entries) (hinv : inv state)
    (hdepth : tree.numNodes + weight entries < depth)
    (hfuel : tree.numNodes + weight entries < fuel) :
    walker.walk depth fuel (root tree) (ptrs entries) state =
      (visits tree ++ pending entries).foldlM walker.visit state := by
  induction fuel generalizing tree entries state with
  | zero => cases hfuel
  | succ fuel ih =>
    by_cases hdone : root tree = none ∧ ptrs entries = []
    · obtain rfl := root_eq_none.mp hdone.1
      obtain rfl := List.map_eq_nil_iff.mp hdone.2
      rfl
    · have hloop : root tree ≠ none ∨ ptrs entries ≠ [] := by tauto
      have hstacked' : Stacked walker inv (spine tree ++ entries) :=
        List.forall_mem_append.mpr ⟨stacked_spine hlinked, hstacked⟩
      have hcount : weight (spine tree ++ entries) = tree.numNodes + weight entries := by
        rw [weight_append, weight_spine]
      rw [walk, if_pos hloop, @descend_eq _ _ walker inv tree entries state depth hkept hlinked hinv
        (by omega), visits_eq, List.append_assoc, ← pending_append, List.foldlM_append]
      cases hdown : (down tree).foldlM walker.visit state with
      | none => rfl
      | some state1 =>
        have hinv1 := hkept.foldlM hinv hdown
        rw [Option.map_some, Option.bind_eq_bind, Option.bind_some]
        change _ = (pending (spine tree ++ entries)).foldlM walker.visit state1
        dsimp only
        generalize hall : spine tree ++ entries = all at *
        cases all with
        | nil =>
          obtain ⟨hspine, hentries⟩ := List.append_eq_nil_iff.mp hall
          exact absurd ⟨root_eq_none.mpr (spine_eq_nil hspine), by rw [hentries]; rfl⟩ hdone
        | cons entry others =>
          obtain ⟨address, far⟩ := entry
          obtain ⟨⟨hfar, hroot⟩, hothers⟩ := List.forall_mem_cons.mp hstacked'
          rw [pending, List.flatMap_cons, List.cons_append, List.foldlM_cons, visit, ptrs,
            List.map_cons, List.head?_cons, Option.bind_eq_bind, Option.bind_some, List.tail_cons]
          cases hlate : walker.late state1 (some address) with
          | none => rfl
          | some state2 =>
            have hinv2 := hkept (.late address) state1 state2 hinv1 hlate
            have hless : far.numNodes + 1 + weight others = tree.numNodes + weight entries := hcount
            have hwalk := @ih far others state2 hfar hothers hinv2 (by omega) (by omega)
            rw [Option.bind_eq_bind, Option.bind_some, hroot state2 hinv2, Option.bind_some,
              Option.bind_some]
            exact hwalk

end CppLearn.Foundation.StackWalk
