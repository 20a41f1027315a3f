import CppLearn.Foundation.TreeContext

/-!
# Search trees

The keys of a search tree ascend from the left to the right. A context leads to a key where it turns the
way that the key does at each node: then what is before the hole is less than the key, what is behind it
is greater, and the key is in the tree only if it is below the hole.
-/

set_option autoImplicit false
set_option relaxedAutoImplicit false

namespace CppLearn.Foundation.SearchTree

open HeapTree TreeContext

universe u v

variable {α : Type u} {κ : Type v} [LinearOrder κ] {key : α → κ} {elem : κ} {context : Context α}
  {tree tree' left right : BinaryTree α} {val : α}

/-- The keys ascend from the left to the right. -/
def Ascending (key : α → κ) (tree : BinaryTree α) : Prop :=
  (inorder tree).Pairwise fun first second ↦ key first < key second

theorem ascending_nil (key : α → κ) : Ascending key .nil := List.Pairwise.nil

theorem ascending_node : Ascending key (.node val left right) ↔
    Ascending key left ∧ Ascending key right ∧ (∀ other ∈ inorder left, key other < key val) ∧
      ∀ other ∈ inorder right, key val < key other := by
  rw [Ascending, inorder_node, List.pairwise_append, List.pairwise_cons]
  constructor
  · rintro ⟨hleft, ⟨habove, hright⟩, hcross⟩
    exact ⟨hleft, hright, fun other hother ↦ hcross other hother val List.mem_cons_self, habove⟩
  · rintro ⟨hleft, hright, hbelow, habove⟩
    refine ⟨hleft, ⟨habove, hright⟩, fun first hfirst second hsecond ↦ ?_⟩
    rcases List.mem_cons.mp hsecond with rfl | hsecond
    · exact hbelow first hfirst
    · exact (hbelow first hfirst).trans (habove second hsecond)

/-- A key is at one place only. -/
theorem Ascending.nodup_keys (h : Ascending key tree) : ((inorder tree).map key).Nodup := by
  rw [List.Nodup, List.pairwise_map]
  exact h.imp fun hless ↦ hless.ne

/-- What is filled in is a search tree too. -/
theorem Ascending.below (h : Ascending key (fill context tree)) : Ascending key tree := by
  rw [Ascending, inorder_fill, List.pairwise_append, List.pairwise_append] at h
  exact h.2.1.1

/-- The side of a node on which the hole is, is the one of the key. -/
def Toward (key : α → κ) (elem : κ) : Step α → Prop
  | .goLeft val _ => elem < key val
  | .goRight val _ => key val < elem

/-- The way to the hole is the one to the key. -/
def Leads (key : α → κ) (elem : κ) (context : Context α) : Prop := ∀ step ∈ context, Toward key elem step

theorem Leads.before_lt (hleads : Leads key elem context) (h : Ascending key (fill context tree)) :
    ∀ other ∈ before context, key other < elem := by
  induction context generalizing tree with
  | nil => nofun
  | cons step context ih =>
    obtain ⟨hstep, hrest⟩ := List.forall_mem_cons.mp hleads
    have hbefore := ih hrest h
    cases step with
    | goLeft val right => exact hbefore
    | goRight val left =>
      have hfill : Ascending key (fill context (.node val left tree)) := h
      intro other hother
      rcases List.mem_append.mp hother with hother | hother
      · exact hbefore other hother
      · rcases List.mem_append.mp hother with hother | hother
        · exact ((ascending_node.mp hfill.below).2.2.1 other hother).trans hstep
        · rw [List.mem_singleton.mp hother]
          exact hstep

theorem Leads.lt_after (hleads : Leads key elem context) (h : Ascending key (fill context tree)) :
    ∀ other ∈ after context, elem < key other := by
  induction context generalizing tree with
  | nil => nofun
  | cons step context ih =>
    obtain ⟨hstep, hrest⟩ := List.forall_mem_cons.mp hleads
    have hafter := ih hrest h
    cases step with
    | goLeft val right =>
      have hfill : Ascending key (fill context (.node val tree right)) := h
      intro other hother
      rcases List.mem_cons.mp hother with rfl | hother
      · exact hstep
      · rcases List.mem_append.mp hother with hother | hother
        · exact LT.lt.trans hstep ((ascending_node.mp hfill.below).2.2.2 other hother)
        · exact hafter other hother
    | goRight val left => exact hafter

/-- The key is not outside of the hole. -/
theorem Leads.mem_iff (hleads : Leads key elem context) (h : Ascending key (fill context tree)) :
    elem ∈ (inorder (fill context tree)).map key ↔ elem ∈ (inorder tree).map key := by
  rw [inorder_fill, List.map_append, List.map_append, List.mem_append, List.mem_append]
  constructor
  · rintro (hbefore | htree | hafter)
    · obtain ⟨other, hother, rfl⟩ := List.mem_map.mp hbefore
      exact absurd (hleads.before_lt h other hother) (lt_irrefl _)
    · exact htree
    · obtain ⟨other, hother, rfl⟩ := List.mem_map.mp hafter
      exact absurd (hleads.lt_after h other hother) (lt_irrefl _)
  · exact fun htree ↦ Or.inr (Or.inl htree)

/-- A search tree of the key and what was there takes the place of what was there. -/
theorem Ascending.replace (h : Ascending key (fill context tree)) (hleads : Leads key elem context)
    (h' : Ascending key tree')
    (hmem : ∀ other ∈ inorder tree', other ∈ inorder tree ∨ key other = elem) :
    Ascending key (fill context tree') := by
  have hless := hleads.before_lt h
  have hgreater := hleads.lt_after h
  rw [Ascending, inorder_fill, List.pairwise_append, List.pairwise_append] at h ⊢
  obtain ⟨hbefore, ⟨-, hafter, hright⟩, hleft⟩ := h
  refine ⟨hbefore, ⟨h', hafter, fun first hfirst second hsecond ↦ ?_⟩,
    fun first hfirst second hsecond ↦ ?_⟩
  · rcases hmem first hfirst with hold | hkey
    · exact hright first hold second hsecond
    · rw [hkey]
      exact hgreater second hsecond
  · rcases List.mem_append.mp hsecond with hsecond | hsecond
    · rcases hmem second hsecond with hold | hkey
      · exact hleft first hfirst second (List.mem_append_left _ hold)
      · rw [hkey]
        exact hless first hfirst
    · exact hleft first hfirst second (List.mem_append_right _ hsecond)

end CppLearn.Foundation.SearchTree
