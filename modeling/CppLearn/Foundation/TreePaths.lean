import Mathlib.Data.List.Chain
import Mathlib.Data.List.Nodup
import Mathlib.Data.Set.Basic
import Mathlib.Order.Bounds.Basic
import Mathlib.Data.Tree.Basic
import Mathlib.Tactic.Common

/-!
# Paths in a tree

A node of a binary tree has a place, the way to it from the root. A path goes from child to parent
or from parent to child, and to no place twice. It therefore goes up to its highest node and down
from there on the other side; a path from the root goes down only.
-/

set_option autoImplicit false
set_option relaxedAutoImplicit false

namespace CppLearn.Foundation.TreePaths

universe u

variable {α : Type u} {tree left right : BinaryTree α} {val : α}

/-- The turns from the root, `false` for the left. -/
abbrev Place := List Bool

/-- The tree has a node at a place. -/
def Has : BinaryTree α → Place → Prop
  | .nil, _ => False
  | .node _ _ _, [] => True
  | .node _ left _, false :: place => Has left place
  | .node _ _ right, true :: place => Has right place

/-- The subtree on one side. -/
def side (turn : Bool) (tree : BinaryTree α) : BinaryTree α :=
  if turn then tree.right else tree.left

/-- The second place is that of a child of the first one. -/
def Below (place other : Place) : Prop := ∃ turn, other = place ++ [turn]

def Adjacent (place other : Place) : Prop := Below place other ∨ Below other place

structure IsPath (tree : BinaryTree α) (path : List Place) : Prop where
  has : ∀ place ∈ path, Has tree place
  chain : path.IsChain Adjacent
  nodup : path.Nodup

/-- A path that goes down at every step. -/
structure IsDownPath (tree : BinaryTree α) (path : List Place) : Prop where
  has : ∀ place ∈ path, Has tree place
  chain : path.IsChain Below

/-- The greatest number of steps of a path. -/
def diameter : BinaryTree α → ℕ
  | .nil => 0
  | .node _ left right =>
    max (max (diameter left) (diameter right)) (right.height + left.height)

variable {place other : Place} {path rest front back : List Place} {turn turn' : Bool}

theorem has_cons : Has (.node val left right) (turn :: place) ↔
    Has (side turn (.node val left right)) place := by
  cases turn with
  | false => exact Iff.rfl
  | true => exact Iff.rfl

theorem Has.length_lt (h : Has tree place) : place.length < tree.height := by
  induction tree generalizing place with
  | nil => exact h.elim
  | node val left right ihLeft ihRight =>
    rw [BinaryTree.height]
    match place with
    | [] => exact Nat.succ_pos _
    | false :: place =>
      have hlt := @ihLeft place h
      rw [List.length_cons]
      omega
    | true :: place =>
      have hlt := @ihRight place h
      rw [List.length_cons]
      omega

theorem adjacent_symm (h : Adjacent place other) : Adjacent other place := h.symm

theorem below_cons : Below (turn :: place) (turn :: other) ↔ Below place other := by
  simp [Below]

theorem adjacent_cons : Adjacent (turn :: place) (turn :: other) ↔ Adjacent place other :=
  or_congr below_cons below_cons

theorem adjacent_nil (h : Adjacent [] place) : ∃ turn, place = [turn] := by
  rcases h with ⟨turn, rfl⟩ | ⟨turn, hnil⟩
  · exact ⟨turn, rfl⟩
  · exact absurd hnil.symm (List.append_ne_nil_of_right_ne_nil _ (List.cons_ne_nil turn []))

/-- A step away from the root stays on its side. -/
theorem turn_eq_of_adjacent (h : Adjacent (turn :: place) (turn' :: other)) : turn' = turn := by
  rcases h with ⟨last, heq⟩ | ⟨last, heq⟩
  · exact (List.cons.inj heq).1
  · exact (List.cons.inj heq).1.symm

/-- A path that does not come to the root is on one of its sides. -/
theorem exists_turn (hchain : path.IsChain Adjacent) (hroot : [] ∉ path) (hne : path ≠ []) :
    ∃ (turn : Bool) (rest : List Place), path = rest.map (turn :: ·) := by
  induction path with
  | nil => exact absurd rfl hne
  | cons place path ih =>
    match place with
    | [] => exact absurd List.mem_cons_self hroot
    | turn :: place =>
      by_cases hlast : path = []
      · exact ⟨turn, [place], by rw [hlast]; rfl⟩
      · obtain ⟨turn', rest, rfl⟩ := ih hchain.tail (mt (List.mem_cons_of_mem _) hroot) hlast
        match rest with
        | [] => exact absurd rfl hlast
        | other :: rest =>
          obtain rfl := turn_eq_of_adjacent (List.isChain_cons_cons.mp hchain).1
          exact ⟨turn', place :: other :: rest, rfl⟩

/-- A path below the root is one of a subtree. -/
theorem isPath_map : IsPath (.node val left right) (path.map (turn :: ·)) ↔
    IsPath (side turn (.node val left right)) path := by
  have hinjective : Function.Injective fun place : Place ↦ turn :: place :=
    fun _ _ heq ↦ (List.cons.inj heq).2
  constructor
  · rintro ⟨hhas, hchain, hnodup⟩
    refine ⟨fun place hmem ↦ has_cons.mp (hhas _ (List.mem_map_of_mem hmem)), ?_,
      (List.nodup_map_iff hinjective).mp hnodup⟩
    exact ((List.isChain_map _).mp hchain).imp fun _ _ ↦ adjacent_cons.mp
  · rintro ⟨hhas, hchain, hnodup⟩
    refine ⟨?_, (List.isChain_map _).mpr (hchain.imp fun _ _ ↦ adjacent_cons.mpr),
      (List.nodup_map_iff hinjective).mpr hnodup⟩
    intro place hmem
    obtain ⟨other, hother, rfl⟩ := List.mem_map.mp hmem
    exact has_cons.mpr (hhas other hother)

theorem IsPath.reverse (h : IsPath tree path) : IsPath tree path.reverse := by
  refine ⟨fun place hmem ↦ h.has place (List.mem_reverse.mp hmem), ?_,
    List.nodup_reverse.mpr h.nodup⟩
  exact List.isChain_reverse.mpr (h.chain.imp fun _ _ ↦ adjacent_symm)

theorem IsPath.sublist (h : IsPath tree path) (hwithin : rest <:+: path) : IsPath tree rest := by
  refine ⟨fun place hmem ↦ h.has place (hwithin.subset hmem), ?_, h.nodup.sublist hwithin.sublist⟩
  obtain ⟨front, back, rfl⟩ := hwithin
  exact h.chain.left_of_append.right_of_append

/-! ### Down from the root -/

/-- Behind the root a path is one from the root of a subtree. -/
theorem IsPath.arm (h : IsPath (.node val left right) ([] :: path)) (hne : path ≠ []) :
    ∃ (turn : Bool) (rest : List Place), path = ([] :: rest).map (turn :: ·) ∧
      IsPath (side turn (.node val left right)) ([] :: rest) := by
  obtain ⟨hroot, -⟩ := List.nodup_cons.mp h.nodup
  obtain ⟨turn, places, rfl⟩ := exists_turn h.chain.tail hroot hne
  match places with
  | [] => exact absurd rfl hne
  | place :: rest =>
    obtain ⟨turn', hturn⟩ := adjacent_nil (List.isChain_cons_cons.mp h.chain).1
    obtain rfl : place = [] := (List.cons.inj hturn).2
    exact ⟨turn, rest, rfl, isPath_map.mp (h.sublist (List.suffix_cons _ _).isInfix)⟩

/-- A path from the root has no more nodes than the tree has levels. -/
theorem IsPath.length_lt (h : IsPath tree ([] :: path)) : path.length < tree.height := by
  induction tree generalizing path with
  | nil => exact (h.has [] List.mem_cons_self).elim
  | node val left right ihLeft ihRight =>
    rw [BinaryTree.height]
    by_cases hne : path = []
    · rw [hne]
      exact Nat.succ_pos _
    · obtain ⟨turn, rest, rfl, hrest⟩ := h.arm hne
      rw [List.length_map, List.length_cons]
      cases turn with
      | false =>
        have hlt := ihLeft hrest
        omega
      | true =>
        have hlt := ihRight hrest
        omega

/-- On both sides of the root the nodes of a path are on one side of the tree. -/
theorem IsPath.exists_side (h : IsPath (.node val left right) ([] :: path)) :
    ∃ turn, path.length ≤ (side turn (.node val left right)).height ∧
      (path ≠ [] → [turn] ∈ path) := by
  by_cases hne : path = []
  · exact ⟨false, by rw [hne]; exact Nat.zero_le _, fun hpath ↦ absurd hne hpath⟩
  · obtain ⟨turn, rest, rfl, hrest⟩ := h.arm hne
    refine ⟨turn, ?_, fun _ ↦ List.mem_cons_self⟩
    rw [List.length_map]
    exact hrest.length_lt

theorem height_side_le (val : α) (left right : BinaryTree α) (turn : Bool) :
    (side turn (.node val left right)).height ≤ right.height + left.height := by
  cases turn with
  | false => exact Nat.le_add_left left.height right.height
  | true => exact Nat.le_add_right right.height left.height

theorem height_side_add (val : α) (left right : BinaryTree α) (hne : turn ≠ turn') :
    (side turn (.node val left right)).height + (side turn' (.node val left right)).height =
      right.height + left.height := by
  obtain rfl : turn' = !turn := Bool.eq_not_of_ne hne.symm
  cases turn with
  | false => exact Nat.add_comm left.height right.height
  | true => rfl

/-- A path through the root goes up on one side and down on the other. -/
theorem IsPath.length_le_of_root (h : IsPath (.node val left right) path) (hroot : [] ∈ path) :
    path.length ≤ right.height + left.height + 1 := by
  obtain ⟨front, back, rfl⟩ := List.append_of_mem hroot
  have hup : IsPath (.node val left right) ([] :: front.reverse) := by
    have hfront : front ++ [[]] <:+: front ++ [] :: back :=
      ⟨[], back, by rw [List.nil_append, List.append_assoc, List.singleton_append]⟩
    have hreverse := (h.sublist hfront).reverse
    rwa [List.reverse_append, List.reverse_singleton, List.singleton_append] at hreverse
  have hdown : IsPath (.node val left right) ([] :: back) :=
    h.sublist (List.suffix_append front ([] :: back)).isInfix
  obtain ⟨turn, hfront, hturn⟩ := hup.exists_side
  obtain ⟨turn', hback, hturn'⟩ := hdown.exists_side
  have hdifferent : front ≠ [] → back ≠ [] → turn ≠ turn' := by
    rintro hfrontNe hbackNe rfl
    have hmem := hturn (mt List.reverse_eq_nil_iff.mp hfrontNe)
    exact (List.nodup_append'.mp h.nodup).2.2 (List.mem_reverse.mp hmem)
      (List.mem_cons_of_mem _ (hturn' hbackNe))
  rw [List.length_reverse] at hfront
  rw [List.length_append, List.length_cons]
  have hleft := height_side_le val left right turn
  have hright := height_side_le val left right turn'
  by_cases hfrontNe : front = []
  · rw [hfrontNe, List.length_nil]
    omega
  · by_cases hbackNe : back = []
    · rw [hbackNe, List.length_nil]
      omega
    · have hsum := height_side_add val left right (hdifferent hfrontNe hbackNe)
      omega

/-- No path is longer than the diameter. -/
theorem IsPath.length_le (h : IsPath tree path) : path.length ≤ diameter tree + 1 := by
  induction tree generalizing path with
  | nil =>
    cases path with
    | nil => exact Nat.zero_le _
    | cons place path => exact (h.has place List.mem_cons_self).elim
  | node val left right ihLeft ihRight =>
    rw [diameter]
    by_cases hroot : [] ∈ path
    · have hle := h.length_le_of_root hroot
      omega
    · by_cases hne : path = []
      · rw [hne]
        exact Nat.zero_le _
      · obtain ⟨turn, rest, rfl⟩ := exists_turn h.chain hroot hne
        have hrest := isPath_map.mp h
        rw [List.length_map]
        cases turn with
        | false =>
          have hle := ihLeft hrest
          omega
        | true =>
          have hle := ihRight hrest
          omega

/-! ### The longest paths -/

/-- The way down to a deepest node. -/
def deepest : BinaryTree α → List Place
  | .nil => []
  | .node _ left right =>
    [] :: if left.height < right.height then (deepest right).map (true :: ·)
      else (deepest left).map (false :: ·)

theorem length_deepest (tree : BinaryTree α) : (deepest tree).length = tree.height := by
  induction tree with
  | nil => rfl
  | node val left right ihLeft ihRight =>
    rw [deepest, List.length_cons, BinaryTree.height]
    split
    next hlt => rw [List.length_map, ihRight, Nat.max_eq_right hlt.le]
    next hge => rw [List.length_map, ihLeft, Nat.max_eq_left (Nat.le_of_not_lt hge)]

theorem head_deepest : ∀ place ∈ (deepest tree).head?, place = [] := by
  cases tree with
  | nil => nofun
  | node val left right =>
    rintro place ⟨rfl⟩
    rfl

theorem isDownPath_map (h : IsDownPath (side turn (.node val left right)) path) :
    IsDownPath (.node val left right) (path.map (turn :: ·)) := by
  refine ⟨fun place hmem ↦ ?_, (List.isChain_map _).mpr (h.chain.imp fun _ _ ↦ below_cons.mpr)⟩
  obtain ⟨other, hother, rfl⟩ := List.mem_map.mp hmem
  exact has_cons.mpr (h.has other hother)

/-- The root, and a way down from the root of a subtree. -/
theorem IsDownPath.cons_root (h : IsDownPath (side turn (.node val left right)) path)
    (hhead : ∀ place ∈ path.head?, place = []) :
    IsDownPath (.node val left right) ([] :: path.map (turn :: ·)) := by
  have hmap := isDownPath_map h
  refine ⟨List.forall_mem_cons.mpr ⟨trivial, hmap.has⟩,
    List.isChain_cons.mpr ⟨fun place hplace ↦ ?_, hmap.chain⟩⟩
  rw [List.head?_map, Option.mem_map] at hplace
  obtain ⟨other, hother, rfl⟩ := hplace
  rw [hhead other hother]
  exact ⟨turn, rfl⟩

theorem isDownPath_deepest (tree : BinaryTree α) : IsDownPath tree (deepest tree) := by
  induction tree with
  | nil => exact ⟨nofun, .nil⟩
  | node val left right ihLeft ihRight =>
    rw [deepest]
    split
    · exact @IsDownPath.cons_root _ left right val _ true ihRight head_deepest
    · exact @IsDownPath.cons_root _ left right val _ false ihLeft head_deepest

/-- Nor has any way down more nodes than the tree has levels. -/
theorem IsDownPath.length_le (h : IsDownPath tree path) : path.length ≤ tree.height := by
  have hreach : ∀ (first : Place) (rest : List Place), IsDownPath tree (first :: rest) →
      first.length + rest.length < tree.height := by
    intro first rest
    induction rest generalizing first with
    | nil => exact fun hpath ↦ (hpath.has first List.mem_cons_self).length_lt
    | cons second rest ih =>
      intro hpath
      obtain ⟨⟨turn, rfl⟩, hchain⟩ := List.isChain_cons_cons.mp hpath.chain
      have hlt := ih _ ⟨(List.forall_mem_cons.mp hpath.has).2, hchain⟩
      rw [List.length_append, List.length_singleton] at hlt
      rw [List.length_cons]
      omega
  cases path with
  | nil => exact Nat.zero_le _
  | cons first rest =>
    have hlt := hreach first rest h
    rw [List.length_cons]
    omega

/-- The height is the number of nodes on a longest way down. -/
theorem isGreatest_height (tree : BinaryTree α) :
    IsGreatest {nodes | ∃ path, IsDownPath tree path ∧ path.length = nodes} tree.height := by
  refine ⟨⟨deepest tree, isDownPath_deepest tree, length_deepest tree⟩, ?_⟩
  rintro nodes ⟨path, hpath, rfl⟩
  exact hpath.length_le

/-- A way down is a path. -/
theorem IsDownPath.isPath (h : IsDownPath tree path) : IsPath tree path := by
  refine ⟨h.has, h.chain.imp fun _ _ ↦ Or.inl, ?_⟩
  have hlonger : (path.map List.length).IsChain (· < ·) := by
    refine (List.isChain_map _).mpr (h.chain.imp ?_)
    rintro place other ⟨turn, rfl⟩
    rw [List.length_append]
    exact Nat.lt_succ_self _
  exact .of_map List.length hlonger.pairwise.nodup

/-- A longest path up on one side and down on the other. -/
theorem isPath_through (val : α) (left right : BinaryTree α) :
    IsPath (.node val left right) (((deepest left).map (false :: ·)).reverse ++ [[]] ++
      (deepest right).map (true :: ·)) := by
  have hleft := (@IsDownPath.cons_root _ left right val _ false (isDownPath_deepest left)
    head_deepest).isPath
  have hright := (@IsDownPath.cons_root _ left right val _ true (isDownPath_deepest right)
    head_deepest).isPath
  have hup := hleft.reverse
  rw [List.reverse_cons] at hup
  refine ⟨List.forall_mem_append.mpr ⟨hup.has, (List.forall_mem_cons.mp hright.has).2⟩,
    hup.chain.append_overlap hright.chain (List.cons_ne_nil _ _),
    List.nodup_append'.mpr ⟨hup.nodup, (List.nodup_cons.mp hright.nodup).2, ?_⟩⟩
  intro place hplace hother
  obtain ⟨other, -, rfl⟩ := List.mem_map.mp hother
  rcases List.mem_append.mp hplace with hplace | hplace
  · obtain ⟨another, -, heq⟩ := List.mem_map.mp (List.mem_reverse.mp hplace)
    exact Bool.false_ne_true (List.cons.inj heq).1
  · exact List.cons_ne_nil true other (List.mem_singleton.mp hplace)

theorem exists_isPath (hne : tree ≠ .nil) :
    ∃ path, IsPath tree path ∧ path.length = diameter tree + 1 := by
  induction tree with
  | nil => exact absurd rfl hne
  | node val left right ihLeft ihRight =>
    rw [diameter]
    rcases Nat.lt_or_ge (right.height + left.height) (max (diameter left) (diameter right)) with
      hlt | hge
    · rw [Nat.max_eq_left hlt.le]
      rcases Nat.le_total (diameter left) (diameter right) with hle | hle
      · have hright : right ≠ .nil := by
          rintro rfl
          rw [Nat.max_eq_right hle] at hlt
          exact Nat.not_lt_zero _ hlt
        obtain ⟨path, hpath, hlength⟩ := ihRight hright
        refine ⟨path.map (true :: ·), isPath_map.mpr hpath, ?_⟩
        rw [List.length_map, hlength, Nat.max_eq_right hle]
      · have hleft : left ≠ .nil := by
          rintro rfl
          rw [Nat.max_eq_left hle] at hlt
          exact Nat.not_lt_zero _ hlt
        obtain ⟨path, hpath, hlength⟩ := ihLeft hleft
        refine ⟨path.map (false :: ·), isPath_map.mpr hpath, ?_⟩
        rw [List.length_map, hlength, Nat.max_eq_left hle]
    · refine ⟨_, isPath_through val left right, ?_⟩
      rw [Nat.max_eq_right hge, List.length_append, List.length_append, List.length_reverse,
        List.length_map, List.length_map, length_deepest, length_deepest, List.length_singleton]
      omega

/-- A path between two nodes. -/
structure Joins (tree : BinaryTree α) (first last : Place) (path : List Place) : Prop
    extends IsPath tree path where
  head_eq : path.head? = some first
  last_eq : path.getLast? = some last

/-- The diameter is the number of steps of a longest path between two nodes. -/
theorem isGreatest_diameter (hne : tree ≠ .nil) :
    IsGreatest {steps | ∃ first last path, Joins tree first last path ∧ path.length = steps + 1}
      (diameter tree) := by
  constructor
  · obtain ⟨path, hpath, hlength⟩ := exists_isPath hne
    have hne : path ≠ [] := List.length_pos_iff.mp (hlength ▸ Nat.succ_pos _)
    exact ⟨path.head hne, path.getLast hne, path,
      ⟨hpath, List.head?_eq_some_head hne, List.getLast?_eq_some_getLast hne⟩, hlength⟩
  · rintro steps ⟨first, last, path, hpath, hlength⟩
    have hle := hpath.toIsPath.length_le
    omega

end CppLearn.Foundation.TreePaths
