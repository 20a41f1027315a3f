import CppLearn.DataStructure.BST

/-!
# Removal from a binary search tree

`remove` takes the node of an element out of the tree and puts another in its place: its only child, or
the least node of its right subtree where it has two children. `remove_min` cuts that node off by writing
to its parent. It has none in the subtree where it is the right child itself: then it is not cut off, and
`remove` makes it its own right child, so that what was below it is lost and the tree has become a cycle.
-/

set_option autoImplicit false
set_option relaxedAutoImplicit false

namespace CppLearn.DataStructure.BST

open Foundation.HeapTree Foundation.NodeHeap Foundation.SearchTree Foundation.TreeContext

variable {α : Type} {heap : Heap (TreeNode α)} {address : ℕ} {val : α} {left right : PlacedTree α}

/-! ### The least node -/

/-- The loop goes to the left as far as there are nodes. -/
theorem leftmost_spec {fuel : ℕ} {start : Ptr} {context : Context (ℕ × α)} {label : ℕ × α}
    (hholds : Holds heap (.node label left right)) (hfuel : left.numNodes < fuel) :
    ∃ context' least rest, fill context (.node label left right) = fill context' (.node least .nil rest) ∧
      before context' = before context ∧
      leftmost heap fuel (holeParent context start) (some label.1) =
        some (holeParent context' start, some least.1) ∧
      (left = .nil ∧ context' = context ∨
        ∃ above sibling outer, context' = .goLeft above sibling :: outer) := by
  induction left generalizing fuel context label right with
  | nil =>
    obtain ⟨address, val⟩ := label
    obtain ⟨fuel, rfl⟩ := Nat.exists_eq_succ_of_ne_zero (Nat.ne_of_gt hfuel)
    refine ⟨context, (address, val), right, rfl, rfl, ?_, Or.inl ⟨rfl, rfl⟩⟩
    rw [leftmost, Heap.load_some, hholds.node_eq]
    rfl
  | node below left right' ihLeft =>
    obtain ⟨address, val⟩ := label
    obtain ⟨fuel, rfl⟩ := Nat.exists_eq_succ_of_ne_zero (Nat.ne_of_gt (Nat.zero_lt_of_lt hfuel))
    rw [BinaryTree.numNodes] at hfuel
    obtain ⟨context', least, rest, hfill, hbefore, hloop, hend⟩ :=
      @ihLeft right' fuel (.goLeft (address, val) right :: context) below hholds.leftTree (by omega)
    refine ⟨context', least, rest, hfill, hbefore, ?_, Or.inr ?_⟩
    · rw [leftmost, Heap.load_some, hholds.node_eq]
      exact hloop
    · rcases hend with ⟨-, rfl⟩ | hend
      · exact ⟨_, _, _, rfl⟩
      · exact hend

/-- A least node below the root is cut off. -/
theorem removeMin_spec {label : ℕ × α} (hholds : Holds heap (.node label left right))
    (hnodup : (addresses (.node label left right)).Nodup) (hleft : left ≠ .nil) :
    ∃ least val tree heap', inorder (.node label left right) = (least, val) :: inorder tree ∧
      root tree = some label.1 ∧ removeMin heap (some label.1) = some (some least, heap') ∧
      Holds heap' tree ∧ heap'.node least = some ⟨val, none, none⟩ ∧
      SameOff {other | other ∈ addresses (.node label left right)} heap heap' := by
  have hfuel : left.numNodes < heap.bound + 1 := by
    have hle := hholds.numNodes_le hnodup
    rw [BinaryTree.numNodes] at hle
    omega
  obtain ⟨context, ⟨least, val⟩, rest, hfill, hbefore, hloop, ⟨hnil, -⟩ | ⟨above, sibling, outer, rfl⟩⟩ :=
    @leftmost_spec α heap left right (heap.bound + 1) (some label.1) [] label hholds hfuel
  · exact absurd hnil hleft
  obtain ⟨step, hstep⟩ : ∃ step, step = Step.goLeft above sibling := ⟨_, rfl⟩
  rw [← hstep] at hfill hbefore hloop
  have hfill' : BinaryTree.node label left right = fill (step :: outer) (.node (least, val) .nil rest) :=
    hfill
  have hroot : root (fill (step :: outer) rest) = some label.1 := by
    have hsame := congrArg root hfill'
    rw [root_fill, contextRoot] at hsame ⊢
    exact hsame.symm
  rw [hfill'] at hholds hnodup ⊢
  rw [(perm_addresses_fill _ _).nodup_iff, List.nodup_append', addresses_node] at hnodup
  obtain ⟨hnodupLeast, hnodupContext, hdisjoint⟩ := hnodup
  obtain ⟨⟨hleast, -, hrest⟩, hcontext⟩ := holds_fill.mp hholds
  have hnotContext : least ∉ contextAddresses (step :: outer) := fun hmem ↦
    hdisjoint (by simp) hmem
  have hne : least ≠ step.val.1 := fun heq ↦
    hnotContext (heq ▸ address_mem_contextAddresses step outer)
  have habove : heap.node step.val.1 = some (nodeOver step (some least)) := hcontext.1
  have hcut : Holds (heap.set step.val.1 (nodeOver step (root rest))) (fill (step :: outer) rest) := by
    refine hcontext.replace hnodupContext hrest fun other hother hmem ↦ hdisjoint ?_ hmem
    simp [hother]
  have hnotCut : least ∉ addresses (fill (step :: outer) rest) := by
    rw [(perm_addresses_fill _ _).mem_iff, List.mem_append, not_or]
    exact ⟨(List.nodup_cons.mp hnodupLeast).1, hnotContext⟩
  have hleast' : (heap.set step.val.1 (nodeOver step (root rest))).node least =
      some ⟨val, none, root rest⟩ := (Heap.set_node_of_ne hne).trans hleast
  refine ⟨least, val, fill (step :: outer) rest, _, ?_, hroot, ?_, hcut.set hnotCut, Heap.set_node_self, ?_⟩
  · rw [inorder_fill, inorder_fill, hbefore]
    rfl
  · have hlink : ({ nodeOver step (some least) with left := root rest } : TreeNode α) =
        nodeOver step (root rest) := by
      rw [hstep]
      rfl
    rw [removeMin, if_neg (Option.some_ne_none _)]
    have hloop' : leftmost heap (heap.bound + 1) (some label.1) (some label.1) =
        some (some step.val.1, some least) := hloop
    simp only [hloop', Option.bind_eq_bind, Option.bind_some, Heap.load_some, hleast,
      Heap.modify_some habove]
    rw [hlink, Heap.modify_some hleast']
    rfl
  · refine ((sameOff_set heap _ _).mono ?_).trans ((sameOff_set _ least _).mono ?_)
    · rintro other rfl
      exact (perm_addresses_fill _ _).mem_iff.mpr
        (List.mem_append_right _ (address_mem_contextAddresses step outer))
    · rintro other rfl
      exact (perm_addresses_fill _ _).mem_iff.mpr (List.mem_append_left _ (by simp))

/-- With two children, the least node of the right subtree takes the place, where it is not the child
itself. -/
theorem replacement_least {leftLabel label : ℕ × α} {left' left'' below rest : PlacedTree α}
    (hholds : Holds heap (.node (address, val) (.node leftLabel left' left'') (.node label below rest)))
    (hnodup : (addresses (.node (address, val) (.node leftLabel left' left'')
      (.node label below rest))).Nodup) (hbelow : below ≠ .nil) :
    ∃ tree heap', replacement heap (some address) = some (root tree, heap') ∧ Holds heap' tree ∧
      inorder tree = inorder (.node leftLabel left' left'') ++ inorder (.node label below rest) ∧
      SameOff {other | other ∈ addresses (.node label below rest)} heap heap' := by
  obtain ⟨leftAddress, leftVal⟩ := leftLabel
  obtain ⟨-, hnodupRight, -, hnotRight, hdisjoint⟩ := nodup_addresses_node.mp hnodup
  obtain ⟨least, leastVal, tree, heap', horder, hroot, hremove, htree, hleast, hsame⟩ :=
    removeMin_spec hholds.rightTree hnodupRight hbelow
  have haddresses : addresses (.node label below rest) = least :: addresses tree := by
    rw [addresses, horder, List.map_cons]
    rfl
  rw [haddresses] at hnodupRight hnotRight hdisjoint hsame ⊢
  have hnode : heap.node address = some ⟨val, some leftAddress, some label.1⟩ := hholds.node_eq
  have hnode' : heap'.node address = some ⟨val, some leftAddress, some label.1⟩ :=
    (hsame address hnotRight).trans hnode
  have hne : address ≠ least := fun heq ↦ hnotRight (heq ▸ List.mem_cons_self)
  have hnode'' (cell : TreeNode α) : (heap'.set least cell).node address =
      some ⟨val, some leftAddress, some label.1⟩ := (Heap.set_node_of_ne hne).trans hnode'
  have hleft : Holds heap' (.node (leftAddress, leftVal) left' left'') :=
    hholds.leftTree.frame hsame fun other hother hmem ↦ hdisjoint hother hmem
  have hnotLeft : least ∉ addresses (.node (leftAddress, leftVal) left' left'') := fun hmem ↦
    hdisjoint hmem List.mem_cons_self
  have hnotTree : least ∉ addresses tree := (List.nodup_cons.mp hnodupRight).1
  have hwritten (source : Heap (TreeNode α)) (cell : TreeNode α) :
      SameOff {other | other ∈ least :: addresses tree} source (source.set least cell) := by
    refine (sameOff_set source least cell).mono ?_
    rintro other rfl
    exact List.mem_cons_self
  refine ⟨.node (least, leastVal) (.node (leftAddress, leftVal) left' left'') tree,
    (heap'.set least ⟨leastVal, some leftAddress, none⟩).set least
      ⟨leastVal, some leftAddress, some label.1⟩, ?_,
    ⟨?_, (hleft.set hnotLeft).set hnotLeft, (htree.set hnotTree).set hnotTree⟩, ?_,
    hsame.trans ((hwritten heap' _).trans (hwritten _ _))⟩
  · rw [replacement, Heap.load_some, hnode]
    simp only [Option.bind_eq_bind, Option.bind_some, reduceCtorEq, if_false, hremove, Heap.load_some,
      hnode', Heap.modify_some hleast, hnode'', Heap.modify_some Heap.set_node_self]
    rfl
  · rw [Heap.set_node_self, hroot]
    rfl
  · rw [horder, inorder_node]

/-- What takes the place of a node, unless that is its right child which is not cut off. -/
theorem replacement_spec (hholds : Holds heap (.node (address, val) left right))
    (hnodup : (addresses (.node (address, val) left right)).Nodup)
    (hnext : left ≠ .nil → ∀ label rest, right ≠ .node label .nil rest) :
    ∃ tree heap', replacement heap (some address) = some (root tree, heap') ∧ Holds heap' tree ∧
      inorder tree = inorder left ++ inorder right ∧
      SameOff {other | other ∈ addresses right} heap heap' := by
  have hnode := hholds.node_eq
  cases left with
  | nil =>
    refine ⟨right, heap, ?_, hholds.rightTree, rfl, .refl _ heap⟩
    rw [replacement, Heap.load_some, hnode]
    rfl
  | node leftLabel left' left'' =>
    cases right with
    | nil =>
      refine ⟨_, heap, ?_, hholds.leftTree, (List.append_nil _).symm, .refl _ heap⟩
      rw [replacement, Heap.load_some, hnode]
      rfl
    | node label below rest =>
      refine replacement_least hholds hnodup ?_
      rintro rfl
      exact hnext (fun hnil ↦ nomatch hnil) label rest rfl

/-- A right child without a left one becomes its own right child. -/
theorem replacement_child {least : ℕ} {leastVal : α} {rest : PlacedTree α}
    (hholds : Holds heap (.node (address, val) left (.node (least, leastVal) .nil rest)))
    (hne : address ≠ least) (hleft : left ≠ .nil) :
    ∃ heap', replacement heap (some address) = some (some least, heap') ∧
      heap'.node least = some ⟨leastVal, root left, some least⟩ ∧ SameOff {least} heap heap' := by
  have hnode : heap.node address = some ⟨val, root left, some least⟩ := hholds.node_eq
  have hleast : heap.node least = some ⟨leastVal, none, root rest⟩ := hholds.rightTree.node_eq
  have hnode' (source : Heap (TreeNode α)) (cell : TreeNode α)
      (hsource : source.node address = some ⟨val, root left, some least⟩) :
      (source.set least cell).node address = some ⟨val, root left, some least⟩ :=
    (Heap.set_node_of_ne hne).trans hsource
  obtain ⟨cut, hcut⟩ : ∃ cut, cut = (heap.set least ⟨leastVal, root rest, root rest⟩).set least
      ⟨leastVal, root rest, none⟩ := ⟨_, rfl⟩
  have hremove : removeMin heap (some least) = some (some least, cut) := by
    rw [removeMin, if_neg (Option.some_ne_none _), leftmost, Heap.load_some, hleast]
    simp only [Option.bind_eq_bind, Option.bind_some, ne_eq, not_true_eq_false, if_false, Heap.load_some,
      hleast, Heap.modify_some hleast, Heap.modify_some Heap.set_node_self, hcut]
    rfl
  have hcutNode : cut.node address = some ⟨val, root left, some least⟩ := by
    rw [hcut]
    exact hnode' _ _ (hnode' _ _ hnode)
  have hcutLeast : cut.node least = some ⟨leastVal, root rest, none⟩ := by
    rw [hcut, Heap.set_node_self]
  have hroot : root left ≠ none := fun hnone ↦ hleft (root_eq_none.mp hnone)
  refine ⟨(cut.set least ⟨leastVal, root left, none⟩).set least ⟨leastVal, root left, some least⟩, ?_,
    Heap.set_node_self, ?_⟩
  · rw [replacement, Heap.load_some, hnode]
    simp only [Option.bind_eq_bind, Option.bind_some, hroot, reduceCtorEq, if_false, hremove,
      Heap.load_some, hcutNode, Heap.modify_some hcutLeast, hnode' cut _ hcutNode,
      Heap.modify_some Heap.set_node_self]
    rfl
  · rw [hcut]
    exact (((sameOff_set heap least _).trans (sameOff_set _ least _)).trans (sameOff_set _ least _)).trans
      (sameOff_set _ least _)

/-! ### Out of the tree -/

/-- The node of the element has two children, and the right one has no left child. -/
def NextIsChild (elem : α) : PlacedTree α → Prop
  | .nil => False
  | .node (_, val) left right =>
    val = elem ∧ left ≠ .nil ∧ (∃ label rest, right = .node label .nil rest) ∨
      NextIsChild elem left ∨ NextIsChild elem right

theorem NextIsChild.mem {elem : α} {tree : PlacedTree α} (h : NextIsChild elem tree) : elem ∈ keys tree := by
  induction tree with
  | nil => cases h
  | node label left right ihLeft ihRight =>
    rw [keys, inorder_node, List.map_append, List.map_cons, List.mem_append, List.mem_cons]
    rcases h with ⟨rfl, -⟩ | h | h
    · exact Or.inr (Or.inl rfl)
    · exact Or.inl (ihLeft h)
    · exact Or.inr (Or.inr (ihRight h))

/-- With the nodes of both sides below the hole, one node alone is gone. -/
theorem perm_fill_node {context : Context (ℕ × α)} {tree : PlacedTree α} {label : ℕ × α}
    (horder : inorder tree = inorder left ++ inorder right) :
    (inorder (fill context (.node label left right))).Perm (label :: inorder (fill context tree)) := by
  rw [inorder_fill, inorder_fill, horder, inorder_node, List.append_assoc, List.append_assoc,
    List.cons_append, ← List.append_assoc, ← List.append_assoc]
  exact List.perm_middle

theorem sublist_fill_node {context : Context (ℕ × α)} {tree : PlacedTree α} {label : ℕ × α}
    (horder : inorder tree = inorder left ++ inorder right) :
    (inorder (fill context tree)).Sublist (inorder (fill context (.node label left right))) := by
  rw [inorder_fill, inorder_fill, horder, inorder_node]
  refine List.Sublist.append_left (List.Sublist.append_right ?_ _) _
  exact List.Sublist.append_left (List.sublist_cons_self _ _) _

variable [LinearOrder α] {elem : α} {bst : BST} {placed : PlacedTree α}

/-- The pointer to the node of the element, in its parent or in the object, is written. -/
theorem relink_spec {context : Context (ℕ × α)} {node : TreeNode α}
    (hnode : heap.node address = some node) (hval : node.val = elem)
    (hcontext : HoldsContext heap context (some address)) (hnodup : (contextAddresses context).Nodup)
    (hleads : Leads Prod.snd elem context) (tmp : Ptr) :
    ∃ heap', relink elem heap (contextRoot context (some address)) (holeParent context (some address))
        tmp = some (contextRoot context tmp, heap') ∧ HoldsContext heap' context tmp ∧
      SameOff {other | other ∈ contextAddresses context} heap heap' := by
  cases context with
  | nil =>
    refine ⟨heap, ?_, trivial, .refl _ heap⟩
    rw [relink, holeParent, Heap.load_some, hnode]
    simp only [Option.bind_eq_bind, Option.bind_some, hval, lt_irrefl, if_false]
    rfl
  | cons step context =>
    have habove : heap.node step.val.1 = some (nodeOver step (some address)) := hcontext.1
    refine ⟨_, ?_, hcontext.redirect hnodup tmp, (sameOff_set heap _ _).mono ?_⟩
    · have hstep := hleads step List.mem_cons_self
      rw [relink, holeParent, Heap.load_some, habove]
      cases step with
      | goLeft label right =>
        have hless : ¬ (nodeOver (.goLeft label right) (some address)).val < elem := LT.lt.not_gt hstep
        have hgreater : elem < (nodeOver (.goLeft label right) (some address)).val := hstep
        simp only [Option.bind_eq_bind, Option.bind_some, if_neg hless, if_pos hgreater,
          Heap.modify_some habove]
        rfl
      | goRight label left =>
        have hless : (nodeOver (.goRight label left) (some address)).val < elem := hstep
        simp only [Option.bind_eq_bind, Option.bind_some, if_pos hless, Heap.modify_some habove]
        rfl
    · rintro other rfl
      exact address_mem_contextAddresses step context

/-- What is not in the tree is not removed. -/
theorem Reaches.remove_of_notMem (h : Reaches heap bst.mRoot placed) (hnot : elem ∉ keys placed) :
    remove elem heap bst = some (false, bst, heap) := by
  obtain ⟨context, tree, -, -, hdescend, ⟨-, rfl⟩ | ⟨hmem, -⟩⟩ := h.descend_eq elem
  · rw [remove, hdescend]
    rfl
  · exact absurd hmem hnot

/-- `remove` around what takes the place of the node. -/
theorem remove_eq {context : Context (ℕ × α)} {tmp : Ptr} {heap' : Heap (TreeNode α)}
    (h : Reaches heap bst.mRoot (fill context (.node (address, elem) left right)))
    (hleads : Leads Prod.snd elem context)
    (hdescend : descend heap elem (heap.bound + 1) bst.mRoot bst.mRoot =
      some (holeParent context bst.mRoot, some address))
    (hreplacement : replacement heap (some address) = some (tmp, heap'))
    (hsame : SameOff {other | other ∈ addresses right} heap heap') :
    ∃ heap'', remove elem heap bst = some (true, ⟨contextRoot context tmp, bst.mSize - 1⟩, heap'') ∧
      HoldsContext heap'' context tmp ∧
      SameOff {other | other = address ∨ other ∈ contextAddresses context} heap' heap'' := by
  have hnodup := h.nodup
  rw [(perm_addresses_fill _ _).nodup_iff, List.nodup_append', nodup_addresses_node] at hnodup
  obtain ⟨⟨-, -, -, hnotRight, -⟩, hnodupContext, hdisjoint⟩ := hnodup
  obtain ⟨htree, hcontext⟩ := holds_fill.mp h.holds
  have hnode : heap'.node address = some ⟨elem, root left, root right⟩ :=
    (hsame address hnotRight).trans htree.node_eq
  have hcontext' : HoldsContext heap' context (some address) :=
    hcontext.frame hsame fun other hother hmem ↦
      hdisjoint (mem_addresses_node.mpr (Or.inr (Or.inr hmem))) hother
  have hnotContext : address ∉ contextAddresses context := fun hmem ↦
    hdisjoint (mem_addresses_node.mpr (Or.inl rfl)) hmem
  obtain ⟨linked, hrelink, hlinked, hsameLinked⟩ :=
    relink_spec hnode rfl hcontext' hnodupContext hleads tmp
  obtain ⟨heap'', hdelete, -, hsameDelete⟩ :=
    Heap.delete_some ((hsameLinked address hnotContext).trans hnode)
  have hroot : bst.mRoot = contextRoot context (some address) := by
    rw [← h.root_eq, root_fill, root_node]
  refine ⟨heap'', ?_, hlinked.frame hsameDelete fun other hother hmem ↦ ?_,
    (hsameLinked.mono fun other hother ↦ Or.inr hother).trans
      (hsameDelete.mono fun other hother ↦ Or.inl hother)⟩
  · have hparent : holeParent context bst.mRoot = holeParent context (some address) := by
      cases context with
      | nil => exact hroot
      | cons step context => rfl
    rw [remove, hdescend, hparent]
    simp only [Option.bind_eq_bind, Option.bind_some, reduceCtorEq, if_false, hreplacement, hroot,
      hrelink, hdelete]
    rfl
  · obtain rfl : other = address := hmem
    exact hnotContext hother

/-! ### Set deletion -/

/-- The element is taken out of the set, and the object still has a search tree. -/
def Removes (elem : α) (heap : Heap (TreeNode α)) (bst : BST) (placed : PlacedTree α) : Prop :=
  ∃ removed bst' heap' placed', remove elem heap bst = some (removed, bst', heap') ∧
    (removed = true ↔ elem ∈ keys placed) ∧ Represents heap' bst' placed' ∧
    (∀ key, key ∈ keys placed' ↔ key ∈ keys placed ∧ key ≠ elem) ∧
    (removed = false → bst' = bst ∧ heap' = heap)

/-- The node of the element is the only one that matters. -/
theorem nextIsChild_node
    (h : Ascending Prod.snd (.node (address, elem) left right : PlacedTree α)) :
    NextIsChild elem (.node (address, elem) left right) ↔
      left ≠ .nil ∧ ∃ label rest, right = .node label .nil rest := by
  obtain ⟨-, -, hless, hgreater⟩ := ascending_node.mp h
  constructor
  · rintro (⟨-, h⟩ | h | h)
    · exact h
    · obtain ⟨other, hother, heq⟩ := List.mem_map.mp h.mem
      exact absurd (hless other hother) (heq ▸ lt_irrefl _)
    · obtain ⟨other, hother, heq⟩ := List.mem_map.mp h.mem
      exact absurd (hgreater other hother) (heq ▸ lt_irrefl _)
  · exact fun h ↦ Or.inl ⟨rfl, h⟩

theorem nextIsChild_fill {context : Context (ℕ × α)} {tree : PlacedTree α}
    (h : Ascending Prod.snd (fill context tree)) (hleads : Leads Prod.snd elem context) :
    NextIsChild elem (fill context tree) ↔ NextIsChild elem tree := by
  induction context generalizing tree with
  | nil => exact Iff.rfl
  | cons step context ih =>
    obtain ⟨hstep, hleads⟩ := List.forall_mem_cons.mp hleads
    have hfill : Ascending Prod.snd (fill context (step.fill tree)) := h
    refine (ih hfill hleads).trans ?_
    have hbelow := hfill.below
    cases step with
    | goLeft label right =>
      obtain ⟨-, -, -, hgreater⟩ := ascending_node.mp hbelow
      constructor
      · rintro (⟨heq, -⟩ | h | h)
        · exact absurd hstep (heq ▸ lt_irrefl _)
        · exact h
        · obtain ⟨other, hother, heq⟩ := List.mem_map.mp h.mem
          exact absurd (hgreater other hother) (heq ▸ hstep.not_gt)
      · exact fun h ↦ Or.inr (Or.inl h)
    | goRight label left =>
      obtain ⟨-, -, hless, -⟩ := ascending_node.mp hbelow
      constructor
      · rintro (⟨heq, -⟩ | h | h)
        · exact absurd hstep (heq ▸ lt_irrefl _)
        · obtain ⟨other, hother, heq⟩ := List.mem_map.mp h.mem
          exact absurd (hless other hother) (heq ▸ hstep.not_gt)
        · exact h
      · exact fun h ↦ Or.inr (Or.inr h)

/-- What was lost is the whole property: the tree is not one any more. -/
theorem not_removes (h : Represents heap bst placed) (hnext : NextIsChild elem placed) :
    ¬ Removes elem heap bst placed := by
  obtain ⟨context, tree, rfl, hleads, hdescend, ⟨hnot, -⟩ | ⟨-, address, left, right, rfl⟩⟩ :=
    h.descend_eq elem
  · exact absurd hnext.mem hnot
  rw [nextIsChild_fill h.ascending hleads, nextIsChild_node h.ascending.below] at hnext
  obtain ⟨hleft, ⟨least, leastVal⟩, rest, rfl⟩ := hnext
  have hnodup := h.nodup
  rw [(perm_addresses_fill _ _).nodup_iff, List.nodup_append', nodup_addresses_node] at hnodup
  obtain ⟨⟨-, -, -, hnotRight, -⟩, -, hdisjoint⟩ := hnodup
  have hleast : least ∈ addresses (.node (least, leastVal) .nil rest) :=
    mem_addresses_node.mpr (Or.inl rfl)
  have hne : address ≠ least := fun heq ↦ hnotRight (heq ▸ hleast)
  obtain ⟨heap', hreplacement, hself, hsame⟩ :=
    replacement_child (holds_fill.mp h.holds).1 hne hleft
  obtain ⟨heap'', hremove, hcontext, hsame'⟩ := remove_eq h.toReaches hleads hdescend hreplacement
    (hsame.mono fun other hother ↦ Set.mem_singleton_iff.mp hother ▸ hleast)
  have hself' : heap''.node least = some ⟨leastVal, root left, some least⟩ := by
    rw [hsame' least, hself]
    rintro (heq | hmem)
    · exact hne heq.symm
    · exact hdisjoint (mem_addresses_node.mpr (Or.inr (Or.inr hleast))) hmem
  rintro ⟨removed, bst', result, placed', hresult, -, hrepresents, -, -⟩
  rw [hremove] at hresult
  obtain ⟨rfl, rfl, rfl⟩ : true = removed ∧ _ = bst' ∧ heap'' = result := by
    simpa only [Option.some.injEq, Prod.mk.injEq] using hresult
  obtain ⟨subtree, hholds, hroot⟩ := hcontext.exists_below hrepresents.holds hrepresents.root_eq
  exact hholds.right_ne hroot hself' rfl

theorem removes_of_not (h : Represents heap bst placed) (hnext : ¬ NextIsChild elem placed) :
    Removes elem heap bst placed := by
  by_cases hmem : elem ∈ keys placed
  rotate_left
  · refine ⟨false, bst, heap, placed, h.remove_of_notMem hmem, by simp [hmem], h, fun key ↦ ?_,
      fun _ ↦ ⟨rfl, rfl⟩⟩
    exact ⟨fun hkey ↦ ⟨hkey, fun heq ↦ hmem (heq ▸ hkey)⟩, And.left⟩
  obtain ⟨context, tree, rfl, hleads, hdescend, ⟨hnot, -⟩ | ⟨-, address, left, right, rfl⟩⟩ :=
    h.descend_eq elem
  · exact absurd hmem hnot
  rw [nextIsChild_fill h.ascending hleads, nextIsChild_node h.ascending.below] at hnext
  have hnodup := h.nodup
  rw [(perm_addresses_fill _ _).nodup_iff, List.nodup_append'] at hnodup
  obtain ⟨hnodupNode, -, hdisjoint⟩ := hnodup
  obtain ⟨tree, heap', hreplacement, hholds, horder, hsame⟩ :=
    replacement_spec (holds_fill.mp h.holds).1 hnodupNode fun hleft label rest hright ↦
      hnext ⟨hleft, label, rest, hright⟩
  obtain ⟨heap'', hremove, hcontext, hsame'⟩ :=
    remove_eq h.toReaches hleads hdescend hreplacement hsame
  have hsublist := @sublist_fill_node α left right context tree (address, elem) horder
  have hperm := @perm_fill_node α left right context tree (address, elem) horder
  have hother {other : ℕ} (hmem : other ∈ addresses tree) :
      other ≠ address ∧ other ∈ addresses (.node (address, elem) left right) := by
    rw [addresses, horder, List.map_append] at hmem
    obtain ⟨-, -, hnotLeft, hnotRight, -⟩ := nodup_addresses_node.mp hnodupNode
    rcases List.mem_append.mp hmem with hmem | hmem
    · exact ⟨fun heq ↦ hnotLeft (heq ▸ hmem), mem_addresses_node.mpr (Or.inr (Or.inl hmem))⟩
    · exact ⟨fun heq ↦ hnotRight (heq ▸ hmem), mem_addresses_node.mpr (Or.inr (Or.inr hmem))⟩
  have hholds' : Holds heap'' tree := hholds.frame hsame' fun other hmem hchanged ↦ by
    obtain ⟨hne, hnode⟩ := hother hmem
    rcases hchanged with heq | hcontext
    · exact hne heq
    · exact hdisjoint hnode hcontext
  have hkeys : (keys (fill context (.node (address, elem) left right))).Perm
      (elem :: keys (fill context tree)) := hperm.map Prod.snd
  have hnodupKeys := h.ascending.nodup_keys
  rw [← keys, hkeys.nodup_iff, List.nodup_cons] at hnodupKeys
  refine ⟨true, _, heap'', fill context tree, hremove, iff_of_true rfl hmem,
    ⟨⟨root_fill, holds_fill.mpr ⟨hholds', hcontext⟩, h.nodup.sublist (hsublist.map Prod.fst),
      h.ascending.sublist hsublist⟩, ?_⟩, fun key ↦ ?_, by rintro ⟨⟩⟩
  · have hcount := hperm.length_eq
    have hsize := h.size_eq
    rw [List.length_cons, length_inorder, length_inorder] at hcount
    bv_omega
  · rw [hkeys.mem_iff, List.mem_cons]
    constructor
    · exact fun hkey ↦ ⟨Or.inr hkey, fun heq ↦ hnodupKeys.1 (heq ▸ hkey)⟩
    · rintro ⟨heq | hkey, hne⟩
      · exact absurd heq hne
      · exact hkey

/-- The tree of 2, with 1 to its left and 3 to its right. -/
def smallTree : PlacedTree ℤ := .node (0, 2) (.node (1, 1) .nil .nil) (.node (2, 3) .nil .nil)

theorem represents_smallTree : ∃ bst heap,
    inserts .next [2, 1, 3] Heap.empty construct = some (bst, heap) ∧ Represents heap bst smallTree := by
  refine ⟨⟨some 0, 3⟩, _, rfl, ⟨rfl, ?_, by decide, ?_⟩, rfl⟩
  · exact ⟨rfl, ⟨rfl, trivial, trivial⟩, ⟨rfl, trivial, trivial⟩⟩
  · rw [Ascending]
    decide

/-- Removal is set deletion exactly where the next element is not the right child. -/
theorem removes_iff (h : Represents heap bst placed) (elem : α) :
    Removes elem heap bst placed ↔ ¬ NextIsChild elem placed :=
  ⟨fun hremoves hnext ↦ not_removes h hnext hremoves, removes_of_not h⟩

theorem removes_iff_leaf : ∃ bst heap,
    inserts .next [2, 1, 3] Heap.empty construct = some (bst, heap) ∧
      (Removes (3 : ℤ) heap bst smallTree ↔ ¬ NextIsChild 3 smallTree) := by
  obtain ⟨bst, heap, hinserts, h⟩ := represents_smallTree
  exact ⟨bst, heap, hinserts, removes_iff h 3⟩

/-- The root of the tree has a right child without a left one. -/
theorem not_removes_root : ∃ bst heap placed,
    inserts .next [2, 1, 3] Heap.empty construct = some (bst, heap) ∧ Represents heap bst placed ∧
      ¬ Removes (2 : ℤ) heap bst placed := by
  obtain ⟨bst, heap, hinserts, h⟩ := represents_smallTree
  refine ⟨bst, heap, smallTree, hinserts, h, not_removes h (Or.inl ⟨rfl, nofun, _, _, rfl⟩)⟩

end CppLearn.DataStructure.BST
