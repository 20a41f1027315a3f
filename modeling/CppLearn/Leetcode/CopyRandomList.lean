import CppLearn.Foundation.HeapList

/-!
# Copying a list with random pointers

`copyRandomList` puts a copy of each node behind it, so that the copy of any node is its next one.
It sets the random pointers of the copies so, and then takes the copies out again. At the end the
list is what it was, and the copies are a list of their own.
-/

set_option autoImplicit false
set_option relaxedAutoImplicit false

namespace CppLearn.Leetcode.CopyRandomList

open Foundation.HeapList Foundation.NodeHeap

/-! ### The program -/

/-- What a node has besides `next`. -/
structure Content where
  label : ℤ
  random : Ptr
  deriving DecidableEq

abbrev RandomListNode := ListNode Content

/-- `RandomListNode(x)`. -/
def construct (x : ℤ) : RandomListNode := ⟨⟨x, none⟩, none⟩

variable (alloc : Allocator RandomListNode)

/-- The first loop, with a limit on its rounds. -/
def weaveLoop : ℕ → Heap RandomListNode → Ptr → Option (Heap RandomListNode)
  | 0, _, _ => none
  | fuel + 1, heap, ptr =>
    if ptr ≠ none then do
      let node ← heap.load ptr
      let (dummy, heap) := alloc.new heap (construct node.val.label)
      let next ← nextOf heap ptr
      let heap ← setNext heap (some dummy) next
      let heap ← setNext heap ptr (some dummy)
      let ptr ← nextOf heap (some dummy)
      weaveLoop fuel heap ptr
    else some heap

/-- `ptr->random = random`. -/
def setRandom (heap : Heap RandomListNode) (ptr random : Ptr) : Option (Heap RandomListNode) :=
  heap.modify ptr fun node ↦ { node with val := { node.val with random := random } }

/-- `random != nullptr ? random->next : nullptr`. -/
def copyRandom (heap : Heap RandomListNode) (random : Ptr) : Option Ptr :=
  if random ≠ none then nextOf heap random else some none

/-- The second loop, with a limit on its rounds. -/
def randomLoop : ℕ → Heap RandomListNode → Ptr → Option (Heap RandomListNode)
  | 0, _, _ => none
  | fuel + 1, heap, ptr =>
    if ptr ≠ none then do
      let copy ← nextOf heap ptr
      let node ← heap.load ptr
      let random ← copyRandom heap node.val.random
      let heap ← setRandom heap copy random
      let next ← nextOf heap ptr
      let ptr ← nextOf heap next
      randomLoop fuel heap ptr
    else some heap

/-- The last loop, with a limit on its rounds. -/
def extractLoop : ℕ → Heap RandomListNode → Ptr → Ptr → Option (Heap RandomListNode)
  | 0, _, _, _ => none
  | fuel + 1, heap, ptr, cptr =>
    if ptr ≠ none then do
      let copy ← nextOf heap ptr
      let heap ← setNext heap cptr copy
      let next ← nextOf heap ptr
      let after ← nextOf heap next
      let heap ← setNext heap ptr after
      let ptr ← nextOf heap ptr
      let cptr ← nextOf heap cptr
      extractLoop fuel heap ptr cptr
    else some heap

/-- `copyRandomList`, with `deepcopy` as a node of its own for the time of the last loop. -/
def copyRandomList (heap : Heap RandomListNode)
    (head : Ptr) : Option (Ptr × Heap RandomListNode) := do
  let rounds := heap.bound + 1
  let heap ← weaveLoop alloc rounds heap head
  let heap ← randomLoop rounds heap head
  let (deepcopy, heap) := alloc.new heap (construct 0)
  let heap ← extractLoop rounds heap head (some deepcopy)
  release heap deepcopy

/-! ### Nodes with their copies -/

/-- The copies, where each node has one whose address and content depend on the node's. -/
def copies (copyOf : ℕ → ℕ) (copy : Content → Content) (cells : Cells Content) : Cells Content :=
  cells.map fun cell ↦ (copyOf cell.1, copy cell.2)

/-- Each node with its copy behind it. -/
def woven (copyOf : ℕ → ℕ) (copy : Content → Content) : Cells Content → Cells Content
  | [] => []
  | cell :: cells => cell :: (copyOf cell.1, copy cell.2) :: woven copyOf copy cells

/-- The copy before its random pointer is set. -/
def blank (content : Content) : Content := ⟨content.label, none⟩

/-- The copy with the random pointer to a copy. -/
def linked (copyOf : ℕ → ℕ) (content : Content) : Content :=
  ⟨content.label, content.random.map copyOf⟩

variable {alloc} {heap : Heap RandomListNode} {head stop : Ptr} {cells front rest : Cells Content}
  {copyOf : ℕ → ℕ} {copy copy' : Content → Content} {address : ℕ}

theorem woven_append :
    woven copyOf copy (front ++ rest) = woven copyOf copy front ++ woven copyOf copy rest := by
  induction front with
  | nil => rfl
  | cons cell front ih =>
    rw [List.cons_append, woven, ih, woven, List.cons_append, List.cons_append]

theorem headOf_woven : headOf (woven copyOf copy cells) stop = headOf cells stop := by
  cases cells with
  | nil => rfl
  | cons cell cells => rfl

theorem mem_addresses_woven : address ∈ addresses (woven copyOf copy cells) ↔
    address ∈ addresses cells ∨ ∃ other ∈ addresses cells, copyOf other = address := by
  induction cells with
  | nil => simp [woven]
  | cons cell cells ih =>
    obtain ⟨other, content⟩ := cell
    simp only [woven, addresses_cons, List.mem_cons, ih, exists_eq_or_imp, eq_comm (a := address)]
    tauto

/-- A copy that is put elsewhere is that of a node which is not in the list. -/
theorem woven_update {other : ℕ} (hnot : other ∉ addresses cells) :
    woven (Function.update copyOf other address) copy cells = woven copyOf copy cells := by
  induction cells with
  | nil => rfl
  | cons cell cells ih =>
    obtain ⟨hne, hnot⟩ := List.ne_and_not_mem_of_not_mem_cons hnot
    rw [woven, woven, ih hnot, Function.update_of_ne (Ne.symm hne)]

/-- Where a node is one with its copy behind it. -/
theorem nextOf_woven (h : Segment heap (woven copyOf copy cells) stop)
    (hmem : address ∈ addresses cells) :
    nextOf heap (some address) = some (some (copyOf address)) := by
  induction cells with
  | nil => cases hmem
  | cons cell cells ih =>
    obtain ⟨other, content⟩ := cell
    rcases List.mem_cons.mp hmem with rfl | hmem
    · exact nextOf_some h.1
    · exact ih h.2.2 hmem

/-! ### The loops -/

/-- One round puts a new copy behind a node. -/
theorem weave_round {fuel dummy : ℕ}
    {content : Content} {next : Ptr} (hdummy : alloc.address heap = dummy)
    (hne : address ≠ dummy) (hnode : heap.node address = some ⟨content, next⟩) :
    ∃ heap', weaveLoop alloc (fuel + 1) heap (some address) = weaveLoop alloc fuel heap' next ∧
      heap'.node address = some ⟨content, some dummy⟩ ∧
      heap'.node dummy = some ⟨blank content, next⟩ ∧
      SameOff {place | place ∈ [address, dummy]} heap heap' := by
  have hnode1 := (Heap.set_node_of_ne hne :
    (heap.set dummy (construct content.label)).node address = _).trans hnode
  have hnode2 := (Heap.set_node_of_ne hne : ((heap.set dummy (construct content.label)).set dummy
    ⟨blank content, next⟩).node address = _).trans hnode1
  have hcopy :
      (((heap.set dummy (construct content.label)).set dummy ⟨blank content, next⟩).set address
      ⟨content, some dummy⟩).node dummy = some ⟨blank content, next⟩ :=
    (Heap.set_node_of_ne (Ne.symm hne)).trans Heap.set_node_self
  have hset : setNext (heap.set dummy (construct content.label)) (some dummy) next =
      some ((heap.set dummy (construct content.label)).set dummy ⟨blank content, next⟩) :=
    setNext_some Heap.set_node_self next
  refine ⟨_, ?_, Heap.set_node_self, hcopy, ?_⟩
  · rw [weaveLoop, if_pos (Option.some_ne_none address), Heap.load_some, hnode]
    simp only [Option.bind_eq_bind, Option.bind_some, Allocator.new, hdummy, nextOf_some hnode1,
      hset, setNext_some hnode2, nextOf_some hcopy]
  · exact ((sameOff_set_of_mem (List.mem_cons_of_mem _ List.mem_cons_self) heap _).trans
      (sameOff_set_of_mem (List.mem_cons_of_mem _ List.mem_cons_self) _ _)).trans
      (sameOff_set_of_mem List.mem_cons_self _ _)

/-- The first loop puts a new copy behind each node. -/
theorem weaveLoop_spec {fuel : ℕ} (h : Segment heap cells none) (hfuel : cells.length < fuel) :
    ∃ copyOf heap', weaveLoop alloc fuel heap (headOf cells none) = some heap' ∧
      Segment heap' (woven copyOf blank cells) none ∧
      (∀ address ∈ addresses cells, heap.node (copyOf address) = none) ∧
      SameOff {address | address ∈ addresses (woven copyOf blank cells)} heap heap' := by
  induction cells generalizing heap fuel with
  | nil =>
    obtain ⟨fuel, rfl⟩ := Nat.exists_eq_succ_of_ne_zero (Nat.ne_of_gt hfuel)
    exact ⟨id, heap, if_neg (not_not.mpr rfl), segment_nil, nofun, .refl _ heap⟩
  | cons cell cells ih =>
    obtain ⟨fuel, rfl⟩ := Nat.exists_eq_succ_of_ne_zero (Nat.ne_of_gt (Nat.zero_lt_of_lt hfuel))
    obtain ⟨address, content⟩ := cell
    obtain ⟨dummy, hdummy, hfree⟩ := alloc.exists_address heap
    have hne : address ≠ dummy := by
      rintro rfl
      cases h.1.symm.trans hfree
    have hnot : address ∉ addresses cells := (List.nodup_cons.mp h.nodup).1
    obtain ⟨heap3, hround, hnode, hcopy, hsame3⟩ := weave_round hdummy hne h.1
    have howned {place : ℕ} (hplace : heap3.node place = none) :
        place ≠ address ∧ place ≠ dummy := by
      constructor
      · rintro rfl
        cases hnode.symm.trans hplace
      · rintro rfl
        cases hcopy.symm.trans hplace
    have hrest : Segment heap3 cells none := by
      refine h.2.frame hsame3 fun place hplace hmem ↦ ?_
      rcases List.mem_pair.mp hmem with rfl | rfl
      · exact hnot hplace
      · exact h.2.notMem hfree hplace
    obtain ⟨copyOf, heap', hloop, hwoven, hfresh, hsame⟩ := ih hrest (Nat.lt_of_succ_lt_succ hfuel)
    have hnotWoven {place : ℕ} (hplace : heap3.node place ≠ none)
        (hnotCells : place ∉ addresses cells) : place ∉ addresses (woven copyOf blank cells) := by
      rw [mem_addresses_woven]
      rintro (hmem | ⟨other, hother, rfl⟩)
      · exact hnotCells hmem
      · exact hplace (hfresh other hother)
    have hnotAddress := hnotWoven (hnode ▸ Option.some_ne_none _) hnot
    have hnotDummy := hnotWoven (hcopy ▸ Option.some_ne_none _) (h.2.notMem hfree)
    refine ⟨Function.update copyOf address dummy, heap', ?_, ?_, ?_, ?_⟩
    · rw [headOf_cons, hround]
      exact hloop
    · rw [woven, woven_update hnot, Function.update_self]
      exact ⟨(hsame address hnotAddress).trans hnode,
        (hsame dummy hnotDummy).trans (hcopy.trans (by rw [headOf_woven])), hwoven⟩
    · refine List.forall_mem_cons.mpr ⟨by rwa [Function.update_self], fun other hother ↦ ?_⟩
      have hother' : other ≠ address := fun heq ↦ hnot (heq ▸ hother)
      rw [Function.update_of_ne hother']
      have hfree' := hfresh other hother
      have hplace := howned hfree'
      rwa [hsame3 _ (by simpa using hplace)] at hfree'
    · rw [woven, woven_update hnot, Function.update_self]
      refine SameOff.trans (hsame3.mono fun place hmem ↦ ?_) (hsame.mono fun place hmem ↦ ?_)
      · rcases List.mem_pair.mp hmem with rfl | rfl
        · exact List.mem_cons_self
        · exact List.mem_cons_of_mem _ List.mem_cons_self
      · exact List.mem_cons_of_mem _ (List.mem_cons_of_mem _ hmem)

/-- Every random pointer is null or points to one of the nodes. -/
def RandomWithin (cells nodes : Cells Content) : Prop :=
  ∀ cell ∈ cells, ∀ address ∈ cell.2.random, address ∈ addresses nodes

/-- The random pointer of a copy is to be the copy behind the random node. -/
theorem copyRandom_eq {content : Content}
    (hfront : Segment heap (woven copyOf copy front) (headOf (woven copyOf copy' rest) none))
    (hrest : Segment heap (woven copyOf copy' rest) none)
    (hwithin : ∀ address ∈ content.random, address ∈ addresses (front ++ rest)) :
    copyRandom heap content.random = some (content.random.map copyOf) := by
  cases hcontent : content.random with
  | none => rfl
  | some target =>
    have hmem := hwithin target hcontent
    rw [addresses_append] at hmem
    rw [copyRandom, if_pos (Option.some_ne_none target), Option.map_some]
    rcases List.mem_append.mp hmem with hmem | hmem
    · exact nextOf_woven hfront hmem
    · exact nextOf_woven hrest hmem

/-- One round sets the random pointer of one copy. -/
theorem random_round {fuel : ℕ} {content : Content}
    (h : Segment heap (woven copyOf (linked copyOf) front ++
      woven copyOf blank ((address, content) :: rest)) none)
    (hrandom : copyRandom heap content.random = some (content.random.map copyOf)) :
    ∃ heap', randomLoop (fuel + 1) heap (some address) =
        randomLoop fuel heap' (headOf rest none) ∧
      Segment heap' (woven copyOf (linked copyOf) (front ++ [(address, content)]) ++
        woven copyOf blank rest) none ∧
      SameOff {copyOf address} heap heap' := by
  have hnode : heap.node address = some ⟨content, some (copyOf address)⟩ :=
    (segment_append.mp h).2.1
  have hcopy : heap.node (copyOf address) =
      some ⟨blank content, headOf (woven copyOf blank rest) none⟩ := (segment_append.mp h).2.2.1
  have hsetRandom : setRandom heap (some (copyOf address)) (content.random.map copyOf) =
      some (heap.set (copyOf address)
        ⟨linked copyOf content, headOf (woven copyOf blank rest) none⟩) := Heap.modify_some hcopy _
  have hwhole : Segment heap ((woven copyOf (linked copyOf) front ++ [(address, content)]) ++
      (copyOf address, blank content) :: woven copyOf blank rest) none := by
    rwa [List.append_assoc, List.singleton_append]
  have hset := hwhole.setVal (linked copyOf content)
  rw [List.append_assoc, List.singleton_append] at hset
  obtain ⟨-, hnode', hcopy', -⟩ := segment_append.mp hset
  refine ⟨heap.set (copyOf address)
    ⟨linked copyOf content, headOf (woven copyOf blank rest) none⟩, ?_, ?_, sameOff_set heap _ _⟩
  · rw [randomLoop, if_pos (Option.some_ne_none address), ← @headOf_woven none rest copyOf blank]
    simp only [Option.bind_eq_bind, nextOf_some hnode, Heap.load_some, hnode, Option.bind_some,
      hrandom, hsetRandom, nextOf_some hnode', headOf_cons, nextOf_some hcopy']
  · rw [woven_append, woven, woven, List.append_assoc]
    exact hset

/-- The second loop sets the random pointers of the copies that are left. -/
theorem randomLoop_spec {fuel : ℕ}
    (h : Segment heap (woven copyOf (linked copyOf) front ++ woven copyOf blank rest) none)
    (hwithin : RandomWithin rest (front ++ rest)) (hfuel : rest.length < fuel) :
    ∃ heap', randomLoop fuel heap (headOf rest none) = some heap' ∧
      Segment heap' (woven copyOf (linked copyOf) (front ++ rest)) none ∧
      SameOff {address | address ∈ addresses (woven copyOf blank rest)} heap heap' := by
  induction rest generalizing heap front fuel with
  | nil =>
    obtain ⟨fuel, rfl⟩ := Nat.exists_eq_succ_of_ne_zero (Nat.ne_of_gt hfuel)
    rw [woven, List.append_nil] at h
    rw [List.append_nil]
    exact ⟨heap, if_neg (not_not.mpr rfl), h, .refl _ heap⟩
  | cons cell rest ih =>
    obtain ⟨fuel, rfl⟩ := Nat.exists_eq_succ_of_ne_zero (Nat.ne_of_gt (Nat.zero_lt_of_lt hfuel))
    obtain ⟨address, content⟩ := cell
    obtain ⟨hwithinHead, hwithinRest⟩ := List.forall_mem_cons.mp hwithin
    obtain ⟨hfront, hback⟩ := segment_append.mp h
    obtain ⟨heap1, hround, hsegment1, hsame1⟩ :=
      @random_round _ _ _ _ _ fuel _ h (copyRandom_eq hfront hback hwithinHead)
    have hcells :
        front ++ (address, content) :: rest = (front ++ [(address, content)]) ++ rest := by
      rw [List.append_assoc, List.singleton_append]
    rw [hcells] at hwithinRest ⊢
    obtain ⟨heap', hloop, hsegment, hsame⟩ :=
      ih hsegment1 hwithinRest (Nat.lt_of_succ_lt_succ hfuel)
    refine ⟨heap', hround.trans hloop, hsegment, SameOff.trans (hsame1.mono fun place hmem ↦ ?_)
      (hsame.mono fun _ hmem ↦ List.mem_cons_of_mem _ (List.mem_cons_of_mem _ hmem))⟩
    rw [Set.mem_singleton_iff.mp hmem]
    exact List.mem_cons_of_mem _ List.mem_cons_self

/-- The last loop takes the copies out, and puts them behind a node. -/
theorem extractLoop_spec {fuel cptr : ℕ} {content : Content} {last : Ptr}
    (h : Segment heap (woven copyOf copy cells) none)
    (hcptr : heap.node cptr = some ⟨content, last⟩)
    (hnot : cptr ∉ addresses (woven copyOf copy cells)) (hlast : cells = [] → last = none)
    (hfuel : cells.length < fuel) :
    ∃ heap', extractLoop fuel heap (headOf cells none) (some cptr) = some heap' ∧
      Segment heap' cells none ∧ Segment heap' ((cptr, content) :: copies copyOf copy cells) none ∧
      SameOff {address | address ∈ cptr :: addresses (woven copyOf copy cells)} heap heap' := by
  induction cells generalizing heap fuel cptr content last with
  | nil =>
    obtain ⟨fuel, rfl⟩ := Nat.exists_eq_succ_of_ne_zero (Nat.ne_of_gt hfuel)
    refine ⟨heap, if_neg (not_not.mpr rfl), segment_nil, ⟨?_, segment_nil⟩, .refl _ heap⟩
    rw [hcptr, hlast rfl]
    rfl
  | cons cell cells ih =>
    obtain ⟨fuel, rfl⟩ := Nat.exists_eq_succ_of_ne_zero (Nat.ne_of_gt (Nat.zero_lt_of_lt hfuel))
    obtain ⟨address, original⟩ := cell
    have hnodup := h.nodup
    obtain ⟨hnode, hcopy, hrest⟩ := h
    obtain ⟨hnotAddress, hnodupRest⟩ :
        address ∉ copyOf address :: addresses (woven copyOf copy cells) ∧
        (copyOf address :: addresses (woven copyOf copy cells)).Nodup := List.nodup_cons.mp hnodup
    have hnotCopy := (List.nodup_cons.mp hnodupRest).1
    obtain ⟨hneAddress, hnotRest⟩ := List.ne_and_not_mem_of_not_mem_cons hnot
    obtain ⟨hneCopy, hnotRest⟩ := List.ne_and_not_mem_of_not_mem_cons hnotRest
    have hneBoth : copyOf address ≠ address := (List.ne_of_not_mem_cons hnotAddress).symm
    -- The copy is linked to the copies before it, and the node to the one behind its copy.
    have hnode1 := (Heap.set_node_of_ne (Ne.symm hneAddress) :
      (heap.set cptr ⟨content, some (copyOf address)⟩).node address = _).trans hnode
    have hcopy1 := (Heap.set_node_of_ne (Ne.symm hneCopy) :
      (heap.set cptr ⟨content, some (copyOf address)⟩).node (copyOf address) = _).trans hcopy
    have hcopy2 :=
      (Heap.set_node_of_ne hneBoth : ((heap.set cptr ⟨content, some (copyOf address)⟩).set address
      ⟨original, headOf (woven copyOf copy cells) none⟩).node (copyOf address) = _).trans hcopy1
    have hcptr2 :=
      (Heap.set_node_of_ne hneAddress : ((heap.set cptr ⟨content, some (copyOf address)⟩).set
      address ⟨original, headOf (woven copyOf copy cells) none⟩).node cptr = _).trans
      Heap.set_node_self
    obtain ⟨heap', hloop, hcells, hcopies, hsame⟩ :=
      ih ((hrest.set hnotRest).set (List.not_mem_of_not_mem_cons hnotAddress)) hcopy2 hnotCopy
        (fun h ↦ by rw [h]; rfl) (Nat.lt_of_succ_lt_succ hfuel)
    have hsame1 := (sameOff_set_of_mem (List.mem_cons_self :
      address ∈ address :: copyOf address :: addresses (woven copyOf copy cells)) _ _).trans
      (hsame.mono fun _ hmem ↦ List.mem_cons_of_mem address hmem)
    obtain ⟨hlinked, hsame'⟩ := hcopies.link hsame1 (.refl _) hnot
    refine ⟨heap', ?_, ⟨?_, hcells⟩, hlinked, hsame'⟩
    · rw [extractLoop, headOf_cons, if_pos (Option.some_ne_none address)]
      simp only [Option.bind_eq_bind, nextOf_some hnode, headOf_cons, setNext_some hcptr,
        nextOf_some hnode1, nextOf_some hcopy1, setNext_some hnode1,
        nextOf_some Heap.set_node_self, nextOf_some hcptr2, Option.bind_some]
      rw [← @headOf_woven none cells copyOf copy] at hloop
      exact hloop
    · rw [hsame address hnotAddress, Heap.set_node_self, headOf_woven]

/-! ### The copy -/

/-- The returned list is that of the copies of the nodes at new addresses, with random pointers to
the copies, and nothing else has changed. -/
structure Copied (heap : Heap RandomListNode)
    (cells : Cells Content) (heap' : Heap RandomListNode) (head : Ptr) (copyOf : ℕ → ℕ) : Prop where
  list : IsList heap' head (copies copyOf (linked copyOf) cells)
  fresh : ∀ address ∈ addresses cells, heap.node (copyOf address) = none
  same : SameOff {address | address ∈ (addresses cells).map copyOf} heap heap'

theorem copyRandomList_copied (alloc : Allocator RandomListNode) (h : IsList heap head cells)
    (hwithin : RandomWithin cells cells) :
    ∃ copyOf head' heap', copyRandomList alloc heap head = some (head', heap') ∧
      Copied heap cells heap' head' copyOf := by
  have hlength := Nat.lt_succ_of_le h.length_le
  obtain ⟨copyOf, heap1, hweave, hwoven1, hfresh, hsame1⟩ :=
    @weaveLoop_spec alloc _ _ _ h.segment hlength
  obtain ⟨heap2, hrandom, hwoven2, hsame2⟩ :=
    @randomLoop_spec _ [] cells copyOf _ hwoven1 hwithin hlength
  rw [List.nil_append] at hwoven2
  obtain ⟨deepcopy, hdeepcopy, hfree⟩ := alloc.exists_address heap2
  have hnot := hwoven2.notMem hfree
  obtain ⟨heap3, hextract, hcells, hcopies, hsame3⟩ :=
    @extractLoop_spec _ cells copyOf (linked copyOf) _ deepcopy ⟨0, none⟩ none
      (hwoven2.extends (extends_set hfree (construct 0))) Heap.set_node_self hnot
      (fun _ ↦ rfl) hlength
  obtain ⟨heap4, hrelease, hlist, hsame4, hgone⟩ :=
    hcopies.release hfree ((sameOff_set_of_mem List.mem_cons_self heap2 _).trans hsame3)
  refine ⟨copyOf, _, heap4, ?_, hlist, hfresh, fun address hmem ↦ ?_⟩
  · rw [h.head_eq] at hweave hrandom hextract
    rw [copyRandomList]
    simp only [Option.bind_eq_bind, hweave, Option.bind_some, hrandom, Allocator.new,
      hdeepcopy, hextract, hrelease]
  · change address ∉ (addresses cells).map copyOf at hmem
    rw [List.mem_map] at hmem
    by_cases hcell : address ∈ addresses cells
    · -- The nodes of the list are what they were.
      have hne : address ≠ deepcopy := by
        rintro rfl
        exact hnot (mem_addresses_woven.mpr (.inl hcell))
      rw [hgone address hne, h.segment.node_eq hcells hcell]
    · have hout {copy : Content → Content} : address ∉ addresses (woven copyOf copy cells) :=
        fun hwoven ↦ (mem_addresses_woven.mp hwoven).elim hcell hmem
      rw [hsame4 address hout, hsame2 address hout, hsame1 address hout]

/-- Two nodes, whose random pointers both point to the second one. -/
theorem copyRandomList_copied_two :
    let heap : Heap RandomListNode :=
      (Heap.empty.set 0 ⟨⟨7, some 1⟩, some 1⟩).set 1 ⟨⟨8, some 1⟩, none⟩
    ∃ copyOf head' heap', copyRandomList .next heap (some 0) = some (head', heap') ∧
      Copied heap [(0, ⟨7, some 1⟩), (1, ⟨8, some 1⟩)] heap' head' copyOf := by
  intro heap
  have h : IsList heap (some 0) [(0, ⟨7, some 1⟩), (1, ⟨8, some 1⟩)] := ⟨rfl, rfl, rfl, trivial⟩
  have hwithin :
      RandomWithin [(0, ⟨7, some 1⟩), (1, ⟨8, some 1⟩)] [(0, ⟨7, some 1⟩), (1, ⟨8, some 1⟩)] := by
    simp [RandomWithin, addresses]
  exact copyRandomList_copied .next h hwithin

end CppLearn.Leetcode.CopyRandomList
