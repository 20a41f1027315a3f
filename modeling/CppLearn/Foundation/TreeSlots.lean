import CppLearn.Foundation.TreeLevels
import Mathlib.Data.List.DropRight
import Mathlib.Tactic.Ring

/-!
# Places in the levels of a tree

At each depth a full tree has a row of slots, numbered from the left. The nodes of any tree are in
some of them; those between the first and the last one make up the width of a level. A breadth-first
search goes from subtrees at some slots to their children at the slots below.
-/

set_option autoImplicit false
set_option relaxedAutoImplicit false

namespace CppLearn.Foundation.TreeSlots

open TreeLevels

universe u v

variable {α : Type u} {β : Type v} {tree : BinaryTree α} {depth : ℕ}

/-- The slots that have a node at a depth. -/
def slots : BinaryTree α → ℕ → List ℕ
  | .nil, _ => []
  | .node _ _ _, 0 => [0]
  | .node _ left right, depth + 1 => slots left depth ++ (slots right depth).map (2 ^ depth + ·)

/-- How many slots there are from the first of some to the last one. -/
def span : List ℕ → ℕ
  | [] => 0
  | first :: rest => rest.getLastD first + 1 - first

def width (tree : BinaryTree α) (depth : ℕ) : ℕ := span (slots tree depth)

/-- The width of the widest level. -/
def maxWidth (tree : BinaryTree α) : ℕ :=
  ((List.range tree.height).map (width tree)).foldr max 0

theorem slots_nil (depth : ℕ) : slots (.nil : BinaryTree α) depth = [] := by
  rw [slots]

theorem slots_succ (val : α) (left right : BinaryTree α) (depth : ℕ) :
    slots (.node val left right) (depth + 1) =
      slots left depth ++ (slots right depth).map (2 ^ depth + ·) := rfl

theorem slots_eq_nil_iff : slots tree depth = [] ↔ tree.height ≤ depth := by
  induction tree generalizing depth with
  | nil => simp [slots]
  | node val left right ihLeft ihRight =>
    cases depth with
    | zero => simp [slots]
    | succ depth =>
      rw [slots_succ, List.append_eq_nil_iff, List.map_eq_nil_iff, ihLeft, ihRight,
        BinaryTree.height, Nat.succ_le_succ_iff, Nat.max_le]

theorem slots_map (f : α → β) (tree : BinaryTree α) (depth : ℕ) :
    slots (tree.map f) depth = slots tree depth := by
  induction tree generalizing depth with
  | nil => simp [BinaryTree.map, slots]
  | node val left right ihLeft ihRight =>
    cases depth with
    | zero => rfl
    | succ depth => rw [BinaryTree.map, slots_succ, slots_succ, ihLeft, ihRight]

theorem slot_lt {slot : ℕ} (hmem : slot ∈ slots tree depth) : slot < 2 ^ depth := by
  induction tree generalizing depth slot with
  | nil =>
    rw [slots_nil] at hmem
    cases hmem
  | node val left right ihLeft ihRight =>
    cases depth with
    | zero =>
      obtain rfl := List.mem_singleton.mp hmem
      exact Nat.one_pos
    | succ depth =>
      rw [Nat.pow_succ]
      rcases List.mem_append.mp hmem with hmem | hmem
      · have hlt := ihLeft hmem
        omega
      · obtain ⟨below, hbelow, rfl⟩ := List.mem_map.mp hmem
        have hlt := ihRight hbelow
        omega

/-- The nodes of a level are in different slots, in order. -/
theorem pairwise_slots (tree : BinaryTree α) (depth : ℕ) :
    (slots tree depth).Pairwise (· < ·) := by
  induction tree generalizing depth with
  | nil =>
    rw [slots_nil]
    exact .nil
  | node val left right ihLeft ihRight =>
    cases depth with
    | zero => exact List.pairwise_singleton ..
    | succ depth =>
      refine List.pairwise_append.mpr ⟨ihLeft depth,
        (ihRight depth).map _ fun _ _ hlt ↦ Nat.add_lt_add_left hlt _, ?_⟩
      intro slot hslot other hother
      obtain ⟨below, -, rfl⟩ := List.mem_map.mp hother
      exact (slot_lt hslot).trans_le (Nat.le_add_right _ _)

theorem span_eq {row : List ℕ} {first last : ℕ} (hfirst : row.head? = some first)
    (hlast : row.getLast? = some last) : span row = last + 1 - first := by
  cases row with
  | nil => cases hfirst
  | cons other rest =>
    obtain rfl : other = first := Option.some.inj hfirst
    rw [List.getLast?_cons] at hlast
    rw [span, ← Option.some.inj hlast, List.getLastD_eq_getLast?]

/-- Slots in order are no more than from the first to the last one. -/
theorem length_le_span {row : List ℕ} (hrow : row.Pairwise (· < ·)) : row.length ≤ span row := by
  have hreach : ∀ (first : ℕ) (rest : List ℕ), (first :: rest).Pairwise (· < ·) →
      first + rest.length ≤ rest.getLastD first := by
    intro first rest
    induction rest generalizing first with
    | nil => exact fun _ ↦ le_rfl
    | cons second rest ih =>
      intro hsorted
      obtain ⟨hfirst, hrest⟩ := List.pairwise_cons.mp hsorted
      have hlt := hfirst second List.mem_cons_self
      have hle := ih second hrest
      rw [List.length_cons, List.getLastD_cons]
      omega
  cases row with
  | nil => exact Nat.zero_le _
  | cons first rest =>
    have hle := hreach first rest hrow
    rw [span, List.length_cons]
    omega

/-- Slots in order lie between the first and the last one. -/
theorem bounds_of_pairwise {first : ℕ} {rest : List ℕ} (hrow : (first :: rest).Pairwise (· < ·)) :
    rest.getLastD first ∈ first :: rest ∧
      ∀ slot ∈ first :: rest, first ≤ slot ∧ slot ≤ rest.getLastD first := by
  induction rest generalizing first with
  | nil => simp
  | cons second rest ih =>
    obtain ⟨hfirst, hrest⟩ := List.pairwise_cons.mp hrow
    obtain ⟨hmem, hbounds⟩ := ih hrest
    have hlt := hfirst second List.mem_cons_self
    rw [List.getLastD_cons]
    refine ⟨List.mem_cons_of_mem _ hmem, fun slot hslot ↦ ?_⟩
    rcases List.mem_cons.mp hslot with rfl | hslot
    · exact ⟨le_rfl, hlt.le.trans (hbounds second List.mem_cons_self).2⟩
    · exact ⟨(hfirst slot hslot).le, (hbounds slot hslot).2⟩

theorem width_eq_zero_iff : width tree depth = 0 ↔ tree.height ≤ depth := by
  rw [← slots_eq_nil_iff, width]
  constructor
  · intro hzero
    have hle := length_le_span (pairwise_slots tree depth)
    exact List.length_eq_zero_iff.mp (Nat.le_zero.mp (hle.trans_eq hzero))
  · intro hnil
    rw [hnil, span]

theorem le_foldr_max {values : List ℕ} {value : ℕ} (hmem : value ∈ values) :
    value ≤ values.foldr max 0 := by
  induction values with
  | nil => cases hmem
  | cons other values ih =>
    rw [List.foldr_cons]
    rcases List.mem_cons.mp hmem with rfl | hmem
    · exact Nat.le_max_left ..
    · exact (ih hmem).trans (Nat.le_max_right ..)

theorem width_le_maxWidth (tree : BinaryTree α) (depth : ℕ) :
    width tree depth ≤ maxWidth tree := by
  rcases Nat.lt_or_ge depth tree.height with hlt | hle
  · exact le_foldr_max (List.mem_map_of_mem (List.mem_range.mpr hlt))
  · rw [width_eq_zero_iff.mpr hle]
    exact Nat.zero_le _

theorem foldr_max_mem {values : List ℕ} (hne : values ≠ []) : values.foldr max 0 ∈ values := by
  induction values with
  | nil => exact absurd rfl hne
  | cons value values ih =>
    rw [List.foldr_cons]
    by_cases hvalues : values = []
    · subst hvalues
      rw [List.foldr_nil, Nat.max_zero]
      exact List.mem_cons_self
    · rcases Nat.le_total value (values.foldr max 0) with hle | hle
      · rw [Nat.max_eq_right hle]
        exact List.mem_cons_of_mem _ (ih hvalues)
      · rw [Nat.max_eq_left hle]
        exact List.mem_cons_self

/-- Some level is the widest one. -/
theorem exists_width_eq (tree : BinaryTree α) : ∃ depth, width tree depth = maxWidth tree := by
  cases tree with
  | nil => exact ⟨0, rfl⟩
  | node val left right =>
    have hmem := @foldr_max_mem ((List.range (BinaryTree.node val left right).height).map
      (width (.node val left right))) (by simp [BinaryTree.height])
    obtain ⟨depth, -, hdepth⟩ := List.mem_map.mp hmem
    exact ⟨depth, hdepth⟩

/-! ### Subtrees at slots -/

/-- The slots of the nodes at a depth below some subtrees. -/
def slotsBelow (row : List (BinaryTree α × ℕ)) (below : ℕ) : List ℕ :=
  row.flatMap fun entry ↦ (slots entry.1 below).map (entry.2 * 2 ^ below + ·)

/-- The children of some subtrees, empty ones with them. -/
def grown (row : List (BinaryTree α × ℕ)) : List (BinaryTree α × ℕ) :=
  row.flatMap fun entry ↦ [(entry.1.left, entry.2 * 2), (entry.1.right, entry.2 * 2 + 1)]

theorem slotsBelow_append (row more : List (BinaryTree α × ℕ)) (below : ℕ) :
    slotsBelow (row ++ more) below = slotsBelow row below ++ slotsBelow more below :=
  List.flatMap_append ..

theorem slotsBelow_root (tree : BinaryTree α) (below : ℕ) :
    slotsBelow [(tree, 0)] below = slots tree below := by
  rw [slotsBelow, List.flatMap_singleton]
  simp

/-- What is below the children is one level deeper below their parents. -/
theorem slotsBelow_grown (row : List (BinaryTree α × ℕ)) (below : ℕ) :
    slotsBelow (grown row) below = slotsBelow row (below + 1) := by
  rw [slotsBelow, grown, List.flatMap_assoc, slotsBelow]
  refine congrArg (fun f ↦ row.flatMap f) (funext fun entry ↦ ?_)
  obtain ⟨tree, slot⟩ := entry
  cases tree with
  | nil => simp [slots]
  | node val left right =>
    have hleft : slot * 2 * 2 ^ below = slot * 2 ^ (below + 1) := by ring
    have hright (other : ℕ) : (slot * 2 + 1) * 2 ^ below + other =
        slot * 2 ^ (below + 1) + (2 ^ below + other) := by ring
    simp only [List.flatMap_cons, List.flatMap_nil, List.append_nil, BinaryTree.left,
      BinaryTree.right, slots_succ, List.map_append, List.map_map, hleft]
    refine congrArg (_ ++ ·) (List.map_congr_left fun other _ ↦ ?_)
    rw [Function.comp_apply, hright]

/-- The subtrees of a row that have nodes. -/
def occupied (row : List (BinaryTree α × ℕ)) : List (BinaryTree α × ℕ) :=
  row.flatMap fun entry ↦ (present entry.1).map fun tree ↦ (tree, entry.2)

theorem grown_cons (entry : BinaryTree α × ℕ) (row : List (BinaryTree α × ℕ)) :
    grown (entry :: row) =
      [(entry.1.left, entry.2 * 2), (entry.1.right, entry.2 * 2 + 1)] ++ grown row :=
  List.flatMap_cons ..

theorem occupied_append (row more : List (BinaryTree α × ℕ)) :
    occupied (row ++ more) = occupied row ++ occupied more := List.flatMap_append ..

theorem slotsBelow_occupied (row : List (BinaryTree α × ℕ)) (below : ℕ) :
    slotsBelow (occupied row) below = slotsBelow row below := by
  rw [slotsBelow, occupied, List.flatMap_assoc, slotsBelow]
  refine congrArg (fun f ↦ row.flatMap f) (funext fun entry ↦ ?_)
  obtain ⟨tree, slot⟩ := entry
  cases tree with
  | nil => simp [present, slots]
  | node val left right => simp [present]

theorem mem_occupied {row : List (BinaryTree α × ℕ)} {entry : BinaryTree α × ℕ}
    (hmem : entry ∈ occupied row) : entry ∈ row ∧ entry.1 ≠ .nil := by
  obtain ⟨other, hother, hmem⟩ := List.mem_flatMap.mp hmem
  obtain ⟨tree, htree, rfl⟩ := List.mem_map.mp hmem
  obtain ⟨rfl, hne⟩ := mem_present htree
  exact ⟨hother, hne⟩

/-- A subtree that has nodes has one at its own slot. -/
theorem slotsBelow_cons_zero {row : List (BinaryTree α × ℕ)} {slot : ℕ} (hne : tree ≠ .nil) :
    slotsBelow ((tree, slot) :: row) 0 = slot :: slotsBelow row 0 := by
  cases tree with
  | nil => exact absurd rfl hne
  | node val left right => simp [slotsBelow, slots]

theorem slotsBelow_zero {row : List (BinaryTree α × ℕ)} (hrow : ∀ entry ∈ row, entry.1 ≠ .nil) :
    slotsBelow row 0 = row.map Prod.snd := by
  induction row with
  | nil => rfl
  | cons entry row ih =>
    obtain ⟨hentry, hrest⟩ := List.forall_mem_cons.mp hrow
    rw [slotsBelow_cons_zero hentry, ih hrest, List.map_cons]

/-- The subtrees that begin at a depth, with their slots. -/
def subtreesAt (tree : BinaryTree α) : ℕ → List (BinaryTree α × ℕ)
  | 0 => occupied [(tree, 0)]
  | depth + 1 => occupied (grown (subtreesAt tree depth))

theorem slotsBelow_subtreesAt (tree : BinaryTree α) (depth below : ℕ) :
    slotsBelow (subtreesAt tree depth) below = slots tree (depth + below) := by
  induction depth generalizing below with
  | zero => rw [subtreesAt, slotsBelow_occupied, slotsBelow_root, Nat.zero_add]
  | succ depth ih =>
    rw [subtreesAt, slotsBelow_occupied, slotsBelow_grown, ih, Nat.add_right_comm, Nat.add_assoc]

theorem ne_nil_of_mem_subtreesAt {entry : BinaryTree α × ℕ} (hmem : entry ∈ subtreesAt tree depth) :
    entry.1 ≠ .nil := by
  cases depth with
  | zero => exact (mem_occupied hmem).2
  | succ depth => exact (mem_occupied hmem).2

theorem map_snd_subtreesAt (tree : BinaryTree α) (depth : ℕ) :
    (subtreesAt tree depth).map Prod.snd = slots tree depth := by
  rw [← slotsBelow_zero fun _ hmem ↦ ne_nil_of_mem_subtreesAt hmem, slotsBelow_subtreesAt,
    Nat.add_zero]

/-! ### Subtrees side by side -/

def isNil : BinaryTree α → Bool
  | .nil => true
  | .node _ _ _ => false

/-- The children of some subtrees side by side, empty ones with them. -/
def below (forest : List (BinaryTree α)) : List (BinaryTree α) :=
  forest.flatMap fun tree ↦ [tree.left, tree.right]

theorem isNil_iff : isNil tree = true ↔ tree = .nil := by
  cases tree with
  | nil => simp [isNil]
  | node val left right => simp [isNil]

theorem below_cons (tree : BinaryTree α) (forest : List (BinaryTree α)) :
    below (tree :: forest) = [tree.left, tree.right] ++ below forest :=
  List.flatMap_cons ..

theorem grown_zipIdx (forest : List (BinaryTree α)) (slot : ℕ) :
    grown (forest.zipIdx slot) = (below forest).zipIdx (slot * 2) := by
  induction forest generalizing slot with
  | nil => rfl
  | cons tree forest ih =>
    have hnext := ih (slot + 1)
    rw [grown] at hnext
    rw [List.zipIdx_cons, grown, List.flatMap_cons, hnext, below_cons, List.zipIdx_append,
      Nat.succ_mul]
    rfl

/-- Empty subtrees on the left move the others. -/
theorem exists_dropWhile (forest : List (BinaryTree α)) (slot : ℕ) :
    ∃ slot', ∀ depth, slotsBelow ((forest.dropWhile isNil).zipIdx slot') depth =
      slotsBelow (forest.zipIdx slot) depth := by
  induction forest generalizing slot with
  | nil => exact ⟨slot, fun _ ↦ rfl⟩
  | cons tree forest ih =>
    cases tree with
    | nil =>
      obtain ⟨slot', hslot⟩ := ih (slot + 1)
      refine ⟨slot', fun depth ↦ ?_⟩
      rw [List.dropWhile_cons_of_pos rfl, hslot, List.zipIdx_cons]
      simp [slotsBelow, slots]
    | node val left right =>
      refine ⟨slot, fun _ ↦ ?_⟩
      rw [List.dropWhile_cons_of_neg Bool.false_ne_true]

/-- Those on the right do not. -/
theorem slotsBelow_rdropWhile (forest : List (BinaryTree α)) (slot depth : ℕ) :
    slotsBelow ((forest.rdropWhile isNil).zipIdx slot) depth =
      slotsBelow (forest.zipIdx slot) depth := by
  induction forest using List.reverseRecOn with
  | nil => rfl
  | append_singleton forest tree ih =>
    cases tree with
    | nil =>
      rw [List.rdropWhile_concat_pos _ _ _ rfl, ih, List.zipIdx_append, slotsBelow_append]
      simp [slotsBelow, slots]
    | node val left right => rw [List.rdropWhile_concat_neg _ _ _ Bool.false_ne_true]

/-- A row with no empty subtrees at its ends is as long as its slots are wide. -/
theorem span_slotsBelow {forest : List (BinaryTree α)} (slot : ℕ)
    (hfirst : ∀ tree ∈ forest.head?, tree ≠ .nil) (hlast : ∀ tree ∈ forest.getLast?, tree ≠ .nil) :
    span (slotsBelow (forest.zipIdx slot) 0) = forest.length := by
  rcases List.eq_nil_or_concat' forest with rfl | ⟨init, last, rfl⟩
  · rfl
  · have hend : last ≠ .nil := hlast last List.getLast?_concat
    have hsplit : slotsBelow ((init ++ [last]).zipIdx slot) 0 =
        slotsBelow (init.zipIdx slot) 0 ++ [slot + init.length] := by
      rw [List.zipIdx_append, slotsBelow_append, List.zipIdx_singleton, slotsBelow_cons_zero hend]
      rfl
    have hhead : (slotsBelow ((init ++ [last]).zipIdx slot) 0).head? = some slot := by
      cases init with
      | nil => rw [hsplit]; rfl
      | cons tree init =>
        rw [List.cons_append, List.zipIdx_cons, slotsBelow_cons_zero (hfirst tree rfl),
          List.head?_cons]
    have hlength : slot + init.length + 1 - slot = (init ++ [last]).length := by
      rw [List.length_append, List.length_singleton]
      omega
    rw [span_eq hhead (by rw [hsplit, List.getLast?_concat]), hlength]

end CppLearn.Foundation.TreeSlots
