import CppLearn.Foundation.HeapTree
import Mathlib.Order.Defs.LinearOrder

/-!
# Cartesian trees

The tree of a sequence in which every node is the first of the greatest among those below it is
determined by the sequence (`FirstMax.unique`). Two such trees of consecutive sequences are merged
along their right and left spine (`merge`). A tree may be taken apart along its right spine, and
what is below the last node of it replaced (`plug`).
-/

set_option autoImplicit false
set_option relaxedAutoImplicit false

namespace CppLearn.Foundation.CartesianTree

open HeapTree

universe u v

variable {α : Type u} {β : Type v} [LinearOrder β]

/-- Every node is greater than those before it in its subtree, and not less than those behind it. -/
def FirstMax (key : α → β) : BinaryTree α → Prop
  | .nil => True
  | .node val left right => (∀ other ∈ inorder left, key other < key val) ∧
      (∀ other ∈ inorder right, key other ≤ key val) ∧ FirstMax key left ∧ FirstMax key right

/-- The value at the root. -/
def top : BinaryTree α → Option α
  | .nil => none
  | .node val _ _ => some val

/-- No child is greater than its parent. -/
def ChildrenLe : BinaryTree β → Prop
  | .nil => True
  | .node val left right => (∀ child ∈ top left, child ≤ val) ∧ (∀ child ∈ top right, child ≤ val) ∧
      ChildrenLe left ∧ ChildrenLe right

theorem mem_inorder_of_top {tree : BinaryTree α} {val : α} (htop : val ∈ top tree) :
    val ∈ inorder tree := by
  cases tree with
  | nil => cases htop
  | node other left right =>
    cases htop
    exact List.mem_append_right _ List.mem_cons_self

theorem FirstMax.childrenLe {tree : BinaryTree β} (h : FirstMax id tree) : ChildrenLe tree := by
  induction tree with
  | nil => trivial
  | node val left right ihLeft ihRight =>
    obtain ⟨hleft, hright, hfirstLeft, hfirstRight⟩ := h
    exact ⟨fun child hchild ↦ (hleft child (mem_inorder_of_top hchild)).le,
      fun child hchild ↦ hright child (mem_inorder_of_top hchild), ihLeft hfirstLeft,
      ihRight hfirstRight⟩

variable {key : α → β}

theorem FirstMax.map {tree : BinaryTree α}
    (h : FirstMax key tree) : FirstMax id (tree.map key) := by
  induction tree with
  | nil => trivial
  | node val left right ihLeft ihRight =>
    obtain ⟨hleft, hright, hfirstLeft, hfirstRight⟩ := h
    refine ⟨?_, ?_, ihLeft hfirstLeft, ihRight hfirstRight⟩
    · rw [inorder_map]
      exact List.forall_mem_map.mpr hleft
    · rw [inorder_map]
      exact List.forall_mem_map.mpr hright

/-- No value is greater than the one at the root. -/
theorem FirstMax.le_top {tree : BinaryTree α} {val other : α} (h : FirstMax key tree)
    (htop : val ∈ top tree) (hother : other ∈ inorder tree) : key other ≤ key val := by
  cases tree with
  | nil => cases htop
  | node root left right =>
    cases htop
    obtain ⟨hleft, hright, -⟩ := h
    rcases List.mem_append.mp hother with hother | hother
    · exact (hleft other hother).le
    · rcases List.mem_cons.mp hother with rfl | hother
      · exact le_rfl
      · exact hright other hother

/-- The first of the greatest values splits a sequence in one way only. -/
theorem split_unique {before before' after after' : List β} {val val' : β}
    (heq : before ++ val :: after = before' ++ val' :: after')
    (hbefore : ∀ other ∈ before, other < val) (hafter : ∀ other ∈ after, other ≤ val)
    (hbefore' : ∀ other ∈ before', other < val') (hafter' : ∀ other ∈ after', other ≤ val') :
    before = before' ∧ val = val' ∧ after = after' := by
  rcases List.append_eq_append_iff.mp heq with ⟨between, rfl, hrest⟩ | ⟨between, rfl, hrest⟩
  · cases between with
    | nil =>
      obtain ⟨rfl, rfl⟩ := List.cons.inj hrest
      exact ⟨(List.append_nil before).symm, rfl, rfl⟩
    | cons other between =>
      obtain ⟨rfl, rfl⟩ := List.cons.inj hrest
      have hless := hbefore' val (List.mem_append_right _ List.mem_cons_self)
      exact absurd (hafter val' (List.mem_append_right _ List.mem_cons_self)) (not_le.mpr hless)
  · cases between with
    | nil =>
      obtain ⟨rfl, rfl⟩ := List.cons.inj hrest
      exact ⟨List.append_nil before', rfl, rfl⟩
    | cons other between =>
      obtain ⟨rfl, rfl⟩ := List.cons.inj hrest
      have hless := hbefore val' (List.mem_append_right _ List.mem_cons_self)
      exact absurd (hafter' val (List.mem_append_right _ List.mem_cons_self)) (not_le.mpr hless)

/-- A sequence has one such tree. -/
theorem FirstMax.unique {tree tree' : BinaryTree β} (h : FirstMax id tree) (h' : FirstMax id tree')
    (heq : inorder tree = inorder tree') : tree = tree' := by
  induction tree generalizing tree' with
  | nil =>
    cases tree' with
    | nil => rfl
    | node => exact absurd heq.symm (List.append_ne_nil_of_right_ne_nil _ (List.cons_ne_nil _ _))
  | node val left right ihLeft ihRight =>
    cases tree' with
    | nil => exact absurd heq (List.append_ne_nil_of_right_ne_nil _ (List.cons_ne_nil _ _))
    | node val' left' right' =>
      obtain ⟨hleft, hright, hfirstLeft, hfirstRight⟩ := h
      obtain ⟨hleft', hright', hfirstLeft', hfirstRight'⟩ := h'
      obtain ⟨heqLeft, rfl, heqRight⟩ := split_unique heq hleft hright hleft' hright'
      rw [ihLeft hfirstLeft hfirstLeft' heqLeft, ihRight hfirstRight hfirstRight' heqRight]

/-! ### Merging -/

/-- The right spine of one tree and the left spine of another, merged. Of equal values the one of
the left tree goes first. -/
def merge (key : α → β) : BinaryTree α → BinaryTree α → BinaryTree α
  | .nil, right => right
  | left, .nil => left
  | .node val left right, .node val' left' right' =>
    if key val < key val' then .node val' (merge key (.node val left right) left') right'
    else .node val left (merge key right (.node val' left' right'))
termination_by left right => left.numNodes + right.numNodes

theorem merge_nil (tree : BinaryTree α) : merge key tree .nil = tree := by
  cases tree with
  | nil => rw [merge]
  | node => rw [merge]; exact nofun

/-- The right tree goes first where its root is greater. -/
theorem merge_of_lt {left left' right' : BinaryTree α} {val' : α}
    (hless : ∀ val ∈ top left, key val < key val') :
    merge key left (.node val' left' right') = .node val' (merge key left left') right' := by
  cases left with
  | nil => rw [merge, merge]
  | node val left right => rw [merge, if_pos (hless val rfl)]

/-- The left tree goes first where the root of the right one is not greater. -/
theorem merge_of_le {left right right' : BinaryTree α} {val : α}
    (hle : ∀ val' ∈ top right', key val' ≤ key val) :
    merge key (.node val left right) right' = .node val left (merge key right right') := by
  cases right' with
  | nil => rw [merge_nil, merge_nil]
  | node val' left' right' => rw [merge, if_neg (not_lt.mpr (hle val' rfl))]

theorem inorder_merge (left right : BinaryTree α) :
    inorder (merge key left right) = inorder left ++ inorder right := by
  fun_induction merge key left right with
  | case1 right => rfl
  | case2 left => exact (List.append_nil _).symm
  | case3 val left right val' left' right' hless ih =>
    rw [inorder_node, ih, inorder_node val', List.append_assoc]
  | case4 val left right val' left' right' hless ih =>
    rw [inorder_node, ih, inorder_node val, List.append_assoc, List.cons_append]

theorem FirstMax.merge {left right : BinaryTree α} (hleft : FirstMax key left)
    (hright : FirstMax key right) : FirstMax key (merge key left right) := by
  fun_induction CartesianTree.merge key left right with
  | case1 right => exact hright
  | case2 left => exact hleft
  | case3 val left right val' left' right' hless ih =>
    obtain ⟨hbefore, hafter, hfirst, hlast⟩ := hright
    refine ⟨fun other hother ↦ ?_, hafter, ih hleft hfirst, hlast⟩
    rw [inorder_merge] at hother
    rcases List.mem_append.mp hother with hother | hother
    · exact (hleft.le_top rfl hother).trans_lt hless
    · exact hbefore other hother
  | case4 val left right val' left' right' hless ih =>
    obtain ⟨hbefore, hafter, hfirst, hlast⟩ := hleft
    refine ⟨hbefore, fun other hother ↦ ?_, hfirst, ih hlast hright⟩
    rw [inorder_merge] at hother
    rcases List.mem_append.mp hother with hother | hother
    · exact hafter other hother
    · exact (hright.le_top rfl hother).trans (not_lt.mp hless)

/-! ### Along the right spine -/

/-- A tree below nodes of a right spine, each with its left subtree, the lowest node first. -/
def plug : List (α × BinaryTree α) → BinaryTree α → BinaryTree α
  | [], tree => tree
  | (val, left) :: spine, tree => plug spine (.node val left tree)

/-- The values before those of the tree that is plugged in. -/
def spineOrder : List (α × BinaryTree α) → List α
  | [] => []
  | (val, left) :: spine => spineOrder spine ++ (inorder left ++ [val])

variable {spine : List (α × BinaryTree α)} {tree : BinaryTree α}

theorem plug_append (spine spine' : List (α × BinaryTree α)) (tree : BinaryTree α) :
    plug (spine ++ spine') tree = plug spine' (plug spine tree) := by
  induction spine generalizing tree with
  | nil => rfl
  | cons head spine ih => exact ih _

theorem inorder_plug (spine : List (α × BinaryTree α)) (tree : BinaryTree α) :
    inorder (plug spine tree) = spineOrder spine ++ inorder tree := by
  induction spine generalizing tree with
  | nil => rfl
  | cons head spine ih =>
    rw [plug, ih, inorder_node, spineOrder, List.append_assoc, List.append_assoc]
    rfl

theorem FirstMax.below (h : FirstMax key (plug spine tree)) : FirstMax key tree := by
  induction spine generalizing tree with
  | nil => exact h
  | cons head spine ih => exact (ih h).2.2.2

/-- What is below the spine is not greater than any of its nodes. -/
theorem FirstMax.le_spine (h : FirstMax key (plug spine tree)) {other : α}
    (hother : other ∈ inorder tree) {node : α × BinaryTree α} (hnode : node ∈ spine) :
    key other ≤ key node.1 := by
  induction spine generalizing tree with
  | nil => cases hnode
  | cons head spine ih =>
    have hhead : FirstMax key (.node head.1 head.2 tree) := FirstMax.below h
    rcases List.mem_cons.mp hnode with rfl | hnode
    · exact hhead.2.1 other hother
    · refine ih h ?_ hnode
      exact List.mem_append_right _ (List.mem_cons_of_mem _ hother)

/-- All else is not greater than some node of the spine. -/
theorem FirstMax.exists_spine (h : FirstMax key (plug spine tree)) {other : α}
    (hother : other ∈ inorder (plug spine tree)) :
    other ∈ inorder tree ∨ ∃ node ∈ spine, key other ≤ key node.1 := by
  induction spine generalizing tree with
  | nil => exact Or.inl hother
  | cons head spine ih =>
    have hhead : FirstMax key (.node head.1 head.2 tree) := FirstMax.below h
    rcases ih h hother with hother | ⟨node, hnode, hle⟩
    · rcases List.mem_append.mp hother with hother | hother
      · exact Or.inr ⟨head, List.mem_cons_self, (hhead.1 other hother).le⟩
      · rcases List.mem_cons.mp hother with rfl | hother
        · exact Or.inr ⟨head, List.mem_cons_self, le_rfl⟩
        · exact Or.inl hother
    · exact Or.inr ⟨node, List.mem_cons_of_mem _ hnode, hle⟩

/-- Another tree of which this holds may take its place. -/
theorem FirstMax.replace {tree' : BinaryTree α} (h : FirstMax key (plug spine tree))
    (h' : FirstMax key tree')
    (hle : ∀ other ∈ inorder tree', ∀ node ∈ spine, key other ≤ key node.1) :
    FirstMax key (plug spine tree') := by
  induction spine generalizing tree tree' with
  | nil => exact h'
  | cons head spine ih =>
    have hplug : FirstMax key (plug spine (.node head.1 head.2 tree)) := h
    obtain ⟨hbefore, -, hfirst, -⟩ := hplug.below
    refine ih h ⟨hbefore, fun other hother ↦ hle other hother head List.mem_cons_self,
      hfirst, h'⟩ ?_
    intro other hother node hnode
    rcases List.mem_append.mp hother with hother | hother
    · exact hplug.le_spine (List.mem_append_left _ hother) hnode
    · rcases List.mem_cons.mp hother with rfl | hother
      · exact hplug.le_spine (List.mem_append_right _ List.mem_cons_self) hnode
      · exact hle other hother node (List.mem_cons_of_mem _ hnode)

/-- A value behind all others, with those below it that are less, takes the end of the spine. -/
theorem FirstMax.push {popped : List (α × BinaryTree α)} {val : α}
    (h : FirstMax key (plug (popped ++ spine) .nil))
    (hpopped : ∀ node ∈ popped, key node.1 < key val)
    (hspine : ∀ node ∈ spine.head?, key val ≤ key node.1) :
    FirstMax key (plug spine (.node val (plug popped .nil) .nil)) := by
  rw [plug_append] at h
  have hless : ∀ other ∈ inorder (plug popped .nil), key other < key val := by
    intro other hother
    rcases h.below.exists_spine hother with hother | ⟨node, hnode, hle⟩
    · cases hother
    · exact hle.trans_lt (hpopped node hnode)
  refine h.replace ⟨hless, nofun, h.below, trivial⟩ fun other hother node hnode ↦ ?_
  rcases List.mem_append.mp hother with hother | hother
  · exact h.le_spine hother hnode
  · obtain rfl := List.mem_singleton.mp hother
    cases spine with
    | nil => cases hnode
    | cons head spine =>
      have hhead := hspine head rfl
      rcases List.mem_cons.mp hnode with rfl | hnode
      · exact hhead
      · have hplug : FirstMax key (plug spine (.node head.1 head.2 (plug popped .nil))) := h
        exact hhead.trans (hplug.le_spine (List.mem_append_right _ List.mem_cons_self) hnode)

end CppLearn.Foundation.CartesianTree
