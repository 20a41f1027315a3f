import CppLearn.Foundation.NodeHeap
import CppLearn.Foundation.QuadTrees

/-!
# The union of quad trees

`intersect` returns one of its arguments where a leaf decides, so that the trees have nodes in
common afterwards, and else puts the results for the four quadrants together. Only new nodes are
written.
-/

set_option autoImplicit false
set_option relaxedAutoImplicit false

namespace CppLearn.Leetcode.IntersectQuadTrees

open Foundation.NodeHeap Foundation.QuadTrees
open Foundation.QuadTrees.QuadTree

/-! ### The program -/

structure Node where
  val : Bool
  isLeaf : Bool
  topLeft : Ptr
  topRight : Ptr
  bottomLeft : Ptr
  bottomRight : Ptr

def Node.child (node : Node) : Quadrant → Ptr
  | .topLeft => node.topLeft
  | .topRight => node.topRight
  | .bottomLeft => node.bottomLeft
  | .bottomRight => node.bottomRight

/-- The recursive call for a quadrant. -/
def intersectChild (call : Heap Node → Ptr → Ptr → Option (Ptr × Heap Node)) (heap : Heap Node)
    (quadTree1 quadTree2 : Ptr) (quadrant : Quadrant) : Option (Ptr × Heap Node) := do
  let node1 ← heap.load quadTree1
  let node2 ← heap.load quadTree2
  call heap (node1.child quadrant) (node2.child quadrant)

/-- `tl->val == tr->val && … && br->isLeaf`. -/
def equalLeaves (tl tr bl br : Node) : Bool :=
  tl.val == tr.val && tl.val == bl.val && tl.val == br.val &&
    tl.isLeaf && tr.isLeaf && bl.isLeaf && br.isLeaf

variable (alloc : Allocator Node)

/-- The new node over the four results. All of them are read, which the source does only up to the
first that differs. -/
def combine (heap : Heap Node) (tl tr bl br : Ptr) : Option (Ptr × Heap Node) := do
  let tlNode ← heap.load tl
  let trNode ← heap.load tr
  let blNode ← heap.load bl
  let brNode ← heap.load br
  if equalLeaves tlNode trNode blNode brNode then
    let (address, heap) := alloc.new heap ⟨tlNode.val, true, none, none, none, none⟩
    return (some address, heap)
  else
    let (address, heap) := alloc.new heap ⟨false, false, tl, tr, bl, br⟩
    return (some address, heap)

/-- With a limit on the depth of the recursion. -/
def intersect : ℕ → Heap Node → Ptr → Ptr → Option (Ptr × Heap Node)
  | 0, _, _, _ => none
  | fuel + 1, heap, quadTree1, quadTree2 => do
    let node1 ← heap.load quadTree1
    if node1.isLeaf && node1.val then return (quadTree1, heap)
    let node2 ← heap.load quadTree2
    if node2.isLeaf && node2.val then return (quadTree2, heap)
    if node1.isLeaf && !node1.val then return (quadTree2, heap)
    if node2.isLeaf && !node2.val then return (quadTree1, heap)
    let (tl, heap) ← intersectChild (intersect fuel) heap quadTree1 quadTree2 .topLeft
    let (tr, heap) ← intersectChild (intersect fuel) heap quadTree1 quadTree2 .topRight
    let (bl, heap) ← intersectChild (intersect fuel) heap quadTree1 quadTree2 .bottomLeft
    let (br, heap) ← intersectChild (intersect fuel) heap quadTree1 quadTree2 .bottomRight
    combine alloc heap tl tr bl br

/-! ### Trees in a heap -/

/-- A pointer to a quad tree. Its nodes may be those of other trees, too. -/
def Represents (heap : Heap Node) {n : ℕ} (ptr : Ptr) : QuadTree Bool n → Prop
  | .leaf val => heap.load ptr = some ⟨val, true, none, none, none, none⟩
  | .node child => ∃ node, heap.load ptr = some node ∧ node.isLeaf = false ∧
      ∀ quadrant, Represents heap (node.child quadrant) (child quadrant)

variable {alloc} {heap heap' : Heap Node} {n : ℕ} {ptr quadTree1 quadTree2 : Ptr}
  {first second : QuadTree Bool n}

theorem load_of_extends {node : Node} (hload : heap.load ptr = some node)
    (hextends : Extends heap heap') : heap'.load ptr = some node := by
  obtain ⟨address, rfl, hnode⟩ := Option.bind_eq_some_iff.mp hload
  exact hextends.node_eq hnode

theorem Represents.extends {tree : QuadTree Bool n} (h : Represents heap ptr tree)
    (hextends : Extends heap heap') : Represents heap' ptr tree := by
  induction tree generalizing ptr with
  | leaf val => exact load_of_extends h hextends
  | node child ih =>
    obtain ⟨node, hload, hleaf, hchild⟩ := h
    exact ⟨node, load_of_extends hload hextends, hleaf,
      fun quadrant ↦ ih quadrant (hchild quadrant)⟩

/-- The node that the pointer points to is a leaf just if the tree is. -/
theorem Represents.exists_node {tree : QuadTree Bool n} (h : Represents heap ptr tree) :
    ∃ node, heap.load ptr = some node ∧
      tree.leafVal = if node.isLeaf then some node.val else none := by
  cases tree with
  | leaf val => exact ⟨_, h, rfl⟩
  | node child =>
    obtain ⟨node, hload, hleaf, -⟩ := h
    exact ⟨node, hload, by rw [hleaf]; rfl⟩

theorem equalLeaves_iff {nodes : Quadrant → Node} :
    equalLeaves (nodes .topLeft) (nodes .topRight) (nodes .bottomLeft) (nodes .bottomRight) = true ↔
      ∀ quadrant, (nodes quadrant).isLeaf = true ∧
        (nodes quadrant).val = (nodes .topLeft).val := by
  simp only [equalLeaves, Quadrant.forall_iff, Bool.and_eq_true, beq_iff_eq]
  constructor
  · rintro ⟨⟨⟨⟨⟨⟨htr, hbl⟩, hbr⟩, htlLeaf⟩, htrLeaf⟩, hblLeaf⟩, hbrLeaf⟩
    exact ⟨⟨htlLeaf, trivial⟩, ⟨htrLeaf, htr.symm⟩, ⟨hblLeaf, hbl.symm⟩, hbrLeaf, hbr.symm⟩
  · rintro ⟨⟨htlLeaf, -⟩, ⟨htrLeaf, htr⟩, ⟨hblLeaf, hbl⟩, hbrLeaf, hbr⟩
    exact ⟨⟨⟨⟨⟨⟨htr.symm, hbl.symm⟩, hbr.symm⟩, htlLeaf⟩, htrLeaf⟩, hblLeaf⟩, hbrLeaf⟩

/-- The new node is a leaf where the four trees are equal leaves, and else has them below it. -/
theorem combine_spec {results : Quadrant → Ptr} {trees : Quadrant → QuadTree Bool n}
    (hresults : ∀ quadrant, Represents heap (results quadrant) (trees quadrant)) :
    ∃ ptr heap', combine alloc heap (results .topLeft) (results .topRight) (results .bottomLeft)
      (results .bottomRight) = some (ptr, heap') ∧ Represents heap' ptr (join trees) ∧
        Extends heap heap' := by
  choose nodes hload hval using fun quadrant ↦ (hresults quadrant).exists_node
  have hfree := alloc.free heap
  have hleaf (val : Bool) (quadrant : Quadrant) : trees quadrant = .leaf val ↔
      (nodes quadrant).isLeaf = true ∧ (nodes quadrant).val = val := by
    rw [← leafVal_eq_some_iff, hval quadrant, Option.ite_none_right_eq_some, Option.some_inj]
  rw [combine, hload, hload, hload, hload]
  simp only [Option.bind_eq_bind, Option.bind_some]
  split
  next hequal =>
    have hall : ∀ quadrant, trees quadrant = .leaf (nodes .topLeft).val := fun quadrant ↦
      (hleaf _ quadrant).mpr (equalLeaves_iff.mp hequal quadrant)
    refine ⟨_, _, rfl, ?_, extends_set hfree _⟩
    rw [join_of_forall hall]
    exact Heap.set_node_self
  next hequal =>
    have hnot : ¬ ∃ val, ∀ quadrant, trees quadrant = .leaf val := fun ⟨val, hall⟩ ↦ by
      refine hequal (equalLeaves_iff.mpr fun quadrant ↦ ?_)
      rw [((hleaf val .topLeft).mp (hall .topLeft)).2]
      exact (hleaf val quadrant).mp (hall quadrant)
    have hextends := extends_set hfree
      ⟨false, false, results .topLeft, results .topRight, results .bottomLeft, results .bottomRight⟩
    refine ⟨_, _, rfl, ?_, hextends⟩
    rw [join_of_not_exists hnot]
    refine ⟨_, Heap.set_node_self, rfl, fun quadrant ↦ ?_⟩
    cases quadrant with
    | topLeft => exact (hresults .topLeft).extends hextends
    | topRight => exact (hresults .topRight).extends hextends
    | bottomLeft => exact (hresults .bottomLeft).extends hextends
    | bottomRight => exact (hresults .bottomRight).extends hextends

/-- The four results, each for its quadrant. -/
def place (tl tr bl br : Ptr) : Quadrant → Ptr
  | .topLeft => tl
  | .topRight => tr
  | .bottomLeft => bl
  | .bottomRight => br

theorem intersectChild_eq {node1 node2 : Node} (hload1 : heap.load quadTree1 = some node1)
    (hload2 : heap.load quadTree2 = some node2) (quadrant : Quadrant)
    (call : Heap Node → Ptr → Ptr → Option (Ptr × Heap Node)) :
    intersectChild call heap quadTree1 quadTree2 quadrant =
      call heap (node1.child quadrant) (node2.child quadrant) := by
  rw [intersectChild, hload1, hload2]
  rfl

/-- The result is a pointer to the union, and the old nodes stay as they are. -/
theorem intersect_union {fuel : ℕ} (hfirst : Represents heap quadTree1 first)
    (hsecond : Represents heap quadTree2 second) (hfuel : n < fuel) :
    ∃ ptr heap', intersect alloc fuel heap quadTree1 quadTree2 = some (ptr, heap') ∧
      Represents heap' ptr (union first second) ∧ Extends heap heap' := by
  obtain ⟨fuel, rfl⟩ := Nat.exists_eq_succ_of_ne_zero (Nat.ne_zero_of_lt hfuel)
  induction first generalizing heap quadTree1 quadTree2 fuel with
  | leaf val =>
    have hload1 : heap.load quadTree1 = _ := hfirst
    cases val with
    | true =>
      rw [union_full_left, intersect, hload1]
      exact ⟨quadTree1, heap, rfl, hfirst, .refl heap⟩
    | false =>
      obtain ⟨node2, hload2, -⟩ := hsecond.exists_node
      rw [union_empty_left, intersect, hload1]
      refine ⟨quadTree2, heap, ?_, hsecond, .refl heap⟩
      simp [hload2]
  | node child ih =>
    obtain ⟨node1, hload1, hleaf1, hchild1⟩ := hfirst
    cases second with
    | leaf val =>
      have hload2 : heap.load quadTree2 = _ := hsecond
      cases val with
      | true =>
        rw [union_full_right]
        refine ⟨quadTree2, heap, ?_, hsecond, .refl heap⟩
        simp [intersect, hload1, hload2, hleaf1]
      | false =>
        rw [union_empty_right]
        refine ⟨quadTree1, heap, ?_, ⟨node1, hload1, hleaf1, hchild1⟩, .refl heap⟩
        simp [intersect, hload1, hload2, hleaf1]
    | node child' =>
      obtain ⟨node2, hload2, hleaf2, hchild2⟩ := hsecond
      obtain ⟨fuel, rfl⟩ := Nat.exists_eq_succ_of_ne_zero
        (Nat.ne_zero_of_lt (Nat.lt_of_succ_lt_succ hfuel))
      have hcall {later : Heap Node} (hold : Extends heap later) (quadrant : Quadrant) :
          ∃ ptr heap', intersectChild (intersect alloc (fuel + 1)) later quadTree1 quadTree2
              quadrant = some (ptr, heap') ∧
            Represents heap' ptr (union (child quadrant) (child' quadrant)) ∧
              Extends later heap' := by
        rw [intersectChild_eq (load_of_extends hload1 hold) (load_of_extends hload2 hold)]
        exact ih quadrant ((hchild1 quadrant).extends hold) ((hchild2 quadrant).extends hold) _
          (Nat.lt_of_succ_lt_succ hfuel)
      obtain ⟨tl, heap1, hrun1, htl, hold1⟩ := hcall (.refl heap) .topLeft
      obtain ⟨tr, heap2, hrun2, htr, hextends2⟩ := hcall hold1 .topRight
      have hold2 := hold1.trans hextends2
      obtain ⟨bl, heap3, hrun3, hbl, hextends3⟩ := hcall hold2 .bottomLeft
      have hold3 := hold2.trans hextends3
      obtain ⟨br, heap4, hrun4, hbr, hextends4⟩ := hcall hold3 .bottomRight
      have hresults : ∀ quadrant, Represents heap4 (place tl tr bl br quadrant)
          (union (child quadrant) (child' quadrant)) := Quadrant.forall_iff.mpr
        ⟨htl.extends (hextends2.trans (hextends3.trans hextends4)),
          htr.extends (hextends3.trans hextends4), hbl.extends hextends4, hbr⟩
      obtain ⟨ptr, heap', hrun, hjoin, hextends⟩ := @combine_spec alloc _ _ _ _ hresults
      refine ⟨ptr, heap', ?_, hjoin, (hold3.trans hextends4).trans hextends⟩
      rw [intersect, hload1, hload2]
      simp only [hleaf1, hleaf2, Bool.false_and, Bool.false_eq_true, if_false,
        Option.bind_eq_bind, Option.bind_some, hrun1, hrun2, hrun3, hrun4]
      exact hrun

/-- The result is a quad tree of the cells that are full in one of the two, and minimal if both
are. -/
theorem intersect_spec {fuel : ℕ} (hfirst : Represents heap quadTree1 first)
    (hsecond : Represents heap quadTree2 second) (hfuel : n < fuel) :
    ∃ (ptr : Ptr) (heap' : Heap Node) (tree : QuadTree Bool n),
      intersect alloc fuel heap quadTree1 quadTree2 = some (ptr, heap') ∧
        Represents heap' ptr tree ∧
        (∀ row col, tree.cell row col = (first.cell row col || second.cell row col)) ∧
        (first.Minimal → second.Minimal → tree.Minimal) := by
  obtain ⟨ptr, heap', hrun, hunion, -⟩ := @intersect_union alloc _ _ _ _ _ _ _ hfirst hsecond hfuel
  exact ⟨ptr, heap', _, hrun, hunion, cell_union first second, minimal_union⟩

theorem intersect_spec_corner :
    let heap := (((Heap.empty.set 0 ⟨true, true, none, none, none, none⟩).set 1
      ⟨false, true, none, none, none, none⟩).set 2
      ⟨false, false, some 0, some 1, some 1, some 1⟩).set 3
      ⟨false, false, some 1, some 0, some 0, some 0⟩
    let corner (val : Bool) : QuadTree Bool 1 :=
      .node fun quadrant ↦ .leaf (if quadrant = .topLeft then val else !val)
    ∃ (ptr : Ptr) (heap' : Heap Node) (tree : QuadTree Bool 1),
      intersect .next 2 heap (some 2) (some 3) = some (ptr, heap') ∧ Represents heap' ptr tree ∧
        (∀ row col, tree.cell row col =
          ((corner true).cell row col || (corner false).cell row col)) ∧
        tree.Minimal := by
  intro heap corner
  have hfirst : Represents heap (some 2) (corner true) :=
    ⟨_, rfl, rfl, Quadrant.forall_iff.mpr ⟨rfl, rfl, rfl, rfl⟩⟩
  have hsecond : Represents heap (some 3) (corner false) :=
    ⟨_, rfl, rfl, Quadrant.forall_iff.mpr ⟨rfl, rfl, rfl, rfl⟩⟩
  have hminimal (val : Bool) : (corner val).Minimal := by
    refine ⟨fun ⟨other, hall⟩ ↦ ?_, fun _ ↦ trivial⟩
    have hleft : val = other := leaf.inj (hall .topLeft)
    have hright : (!val) = other := leaf.inj (hall .topRight)
    exact Bool.not_ne_self val (hright.trans hleft.symm)
  obtain ⟨ptr, heap', tree, hrun, htree, hcell, hleast⟩ :=
    @intersect_spec .next heap 1 (some 2) (some 3) _ _ 2 hfirst hsecond (by decide)
  exact ⟨ptr, heap', tree, hrun, htree, hcell, hleast (hminimal true) (hminimal false)⟩

end CppLearn.Leetcode.IntersectQuadTrees
