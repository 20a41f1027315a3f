import CppLearn.Foundation.HeapList
import CppLearn.Foundation.ValueObjects
import Mathlib.Data.BitVec

/-!
# Queues

`Queue` keeps its elements in nodes that form a cycle, and points to the last of them, behind which the
first one comes. `push` puts a node behind the last one, `pop` takes out the one behind it. A program's
queues behave as lists, and share no node, as long as each has fewer elements than its 32 bits of
`m_size` can count.
-/

set_option autoImplicit false
set_option relaxedAutoImplicit false

namespace CppLearn.DataStructure

open Foundation.HeapList Foundation.NodeHeap Foundation.ValueObjects

/-- The members of a `Queue`. -/
structure Queue where
  mTail : Ptr
  mSize : BitVec 32
  deriving DecidableEq

namespace Queue

variable {α : Type}

/-! ### The program -/

/-- The constructor without arguments. -/
def construct : Queue := ⟨none, 0⟩

def size (queue : Queue) : BitVec 32 := queue.mSize

def empty (queue : Queue) : Bool := queue.mTail = none

def front (heap : Heap (ListNode α)) (queue : Queue) : Option α := do
  let tail ← heap.load queue.mTail
  let head ← heap.load tail.next
  return head.val

def back (heap : Heap (ListNode α)) (queue : Queue) : Option α := do
  let tail ← heap.load queue.mTail
  return tail.val

/-- `m_tail->next = new LinkNode(val, m_tail->next)` and `m_tail = m_tail->next`. -/
def append (alloc : Allocator (ListNode α)) (heap : Heap (ListNode α)) (mTail : Ptr) (val : α) :
    Option (Ptr × Heap (ListNode α)) := do
  let tail ← heap.load mTail
  let (node, heap) := alloc.new heap ⟨val, tail.next⟩
  let heap ← heap.modify mTail fun tail ↦ { tail with next := some node }
  let tail ← heap.load mTail
  return (tail.next, heap)

/-- `m_tail = new LinkNode(val)` and `m_tail->next = m_tail`. -/
def first (alloc : Allocator (ListNode α)) (heap : Heap (ListNode α)) (val : α) :
    Option (Ptr × Heap (ListNode α)) := do
  let (node, heap) := alloc.new heap ⟨val, none⟩
  let heap ← heap.modify (some node) fun tail ↦ { tail with next := some node }
  return (some node, heap)

/-- The loop of the copy constructor, with a limit on its rounds. -/
def copyLoop (alloc : Allocator (ListNode α)) :
    ℕ → Heap (ListNode α) → Ptr → Ptr → Ptr → Option (Ptr × Heap (ListNode α))
  | 0, _, _, _, _ => none
  | fuel + 1, heap, mTail, origHead, cur =>
    if cur = origHead then some (mTail, heap)
    else do
      let node ← heap.load cur
      let (mTail, heap) ← append alloc heap mTail node.val
      let node ← heap.load cur
      copyLoop alloc fuel heap mTail origHead node.next

/-- The copy constructor. -/
def copyConstruct (alloc : Allocator (ListNode α)) (heap : Heap (ListNode α)) (original : Queue) :
    Option (Queue × Heap (ListNode α)) :=
  if empty original then some (⟨none, original.mSize⟩, heap)
  else do
    let val ← front heap original
    let (mTail, heap) ← first alloc heap val
    let tail ← heap.load original.mTail
    let origHead := tail.next
    let head ← heap.load origHead
    let (mTail, heap) ← copyLoop alloc (heap.bound + 1) heap mTail origHead head.next
    return (⟨mTail, original.mSize⟩, heap)

/-- The loop of the destructor, with a limit on its rounds. -/
def destructLoop (mTail : Ptr) : ℕ → Heap (ListNode α) → Ptr → Option (Heap (ListNode α))
  | 0, _, _ => none
  | fuel + 1, heap, head =>
    if head = mTail then some heap
    else do
      let node ← heap.load head
      let heap ← heap.modify mTail fun tail ↦ { tail with next := node.next }
      let heap ← heap.delete head
      let tail ← heap.load mTail
      destructLoop mTail fuel heap tail.next

/-- The destructor. -/
def destruct (heap : Heap (ListNode α)) (queue : Queue) : Option (Heap (ListNode α)) :=
  if empty queue then some heap
  else do
    let tail ← heap.load queue.mTail
    let heap ← destructLoop queue.mTail (heap.bound + 1) heap tail.next
    heap.delete queue.mTail

def push (alloc : Allocator (ListNode α)) (elem : α) (heap : Heap (ListNode α)) (queue : Queue) :
    Option (Queue × Heap (ListNode α)) := do
  let (mTail, heap) ←
    if empty queue then first alloc heap elem else append alloc heap queue.mTail elem
  return (⟨mTail, queue.mSize + 1⟩, heap)

def pop (heap : Heap (ListNode α)) (queue : Queue) : Option (Bool × Queue × Heap (ListNode α)) :=
  if empty queue then some (false, queue, heap)
  else do
    let tail ← heap.load queue.mTail
    let head := tail.next
    let (mTail, heap) ←
      if head = queue.mTail then some (none, heap)
      else do
        let node ← heap.load head
        let heap ← heap.modify queue.mTail fun tail ↦ { tail with next := node.next }
        pure (queue.mTail, heap)
    let heap ← heap.delete head
    return (true, ⟨mTail, queue.mSize - 1⟩, heap)

/-- `swap`: the two objects afterwards. -/
def swap (queue rightHandSide : Queue) : Queue × Queue :=
  (⟨rightHandSide.mTail, rightHandSide.mSize⟩, ⟨queue.mTail, queue.mSize⟩)

/-- `operator=`. -/
def assign (alloc : Allocator (ListNode α)) :
    Heap (ListNode α) → Queue → Queue → Option (Queue × Heap (ListNode α)) :=
  copyAndSwap (copyConstruct alloc) swap destruct

/-- What is done to a queue. -/
inductive Change (α : Type)
  | push (elem : α)
  | pop

/-- A change, with the result of `pop`. -/
def change (alloc : Allocator (ListNode α)) (heap : Heap (ListNode α)) (queue : Queue) :
    Change α → Option (Option Bool × Queue × Heap (ListNode α))
  | .push elem => (push alloc elem heap queue).map fun (queue, heap) ↦ (none, queue, heap)
  | .pop => (pop heap queue).map fun (popped, queue, heap) ↦ (some popped, queue, heap)

/-- The objects of the class in one heap. -/
def objects (alloc : Allocator (ListNode α)) :
    Class (Heap (ListNode α)) Queue (Change α) (Option Bool) where
  construct := construct
  copyConstruct := copyConstruct alloc
  assign := assign alloc
  swap := swap
  update := fun action heap queue ↦ change alloc heap queue action

/-! ### The cycle -/

/-- The nodes from behind the last one round to it, with the elements of the list. -/
structure Cycle (heap : Heap (ListNode α)) (mTail : Ptr) (cells : Cells α) : Prop where
  tail_eq : mTail = cells.getLast?.map Prod.fst
  segment : Segment heap cells (headOf cells none)
  nodup : (addresses cells).Nodup

/-- The object has the cycle, and counts its nodes. -/
structure Represents (heap : Heap (ListNode α)) (queue : Queue) (cells : Cells α) : Prop
    extends Cycle heap queue.mTail cells where
  size_eq : queue.mSize.toNat = cells.length

variable {heap heap' : Heap (ListNode α)} {mTail : Ptr} {queue : Queue} {cells : Cells α}

theorem cycle_nil (heap : Heap (ListNode α)) : Cycle heap none ([] : Cells α) :=
  ⟨rfl, trivial, .nil⟩

theorem Cycle.tail_eq_none (h : Cycle heap mTail cells) : mTail = none ↔ cells = [] := by
  rw [h.tail_eq, Option.map_eq_none_iff, List.getLast?_eq_none_iff]

/-- A cycle that is not empty has a last node. -/
theorem Cycle.exists_last (h : Cycle heap mTail cells) (hcells : cells ≠ []) :
    ∃ init last val, cells = init ++ [(last, val)] ∧ mTail = some last ∧
      heap.node last = some ⟨val, headOf cells none⟩ := by
  obtain ⟨init, ⟨last, val⟩, rfl⟩ := List.eq_nil_or_concat' cells |>.resolve_left hcells
  refine ⟨init, last, val, rfl, ?_, (segment_append.mp h.segment).2.1⟩
  rw [h.tail_eq, List.getLast?_append]
  rfl

theorem Cycle.frame {changed : Set ℕ} (h : Cycle heap mTail cells) (hsame : SameOff changed heap heap')
    (hdisjoint : ∀ address ∈ addresses cells, address ∉ changed) : Cycle heap' mTail cells :=
  ⟨h.tail_eq, h.segment.frame hsame hdisjoint, h.nodup⟩

/-- A node goes behind the last one. -/
theorem append_spec (alloc : Allocator (ListNode α)) {init : Cells α} {last : ℕ} {val : α}
    (h : Cycle heap (some last) (init ++ [(last, val)])) (elem : α) :
    ∃ node heap', append alloc heap (some last) elem = some (some node, heap') ∧
      heap.node node = none ∧ Cycle heap' (some node) (init ++ [(last, val)] ++ [(node, elem)]) ∧
      SameOff {other | other = last ∨ heap.node other = none} heap heap' := by
  obtain ⟨node, hnode, hfree⟩ := alloc.exists_address heap
  obtain ⟨stop, hstop⟩ : ∃ stop, headOf (init ++ [(last, val)]) none = stop := ⟨_, rfl⟩
  have hsegment := h.segment
  rw [hstop] at hsegment
  have hlast : heap.node last = some ⟨val, stop⟩ := (segment_append.mp hsegment).2.1
  have hne : last ≠ node := by
    rintro rfl
    rw [hlast] at hfree
    cases hfree
  have hnotInit : last ∉ addresses init := by
    have hnodup := h.nodup
    rw [addresses_append, addresses_cons, addresses_nil, List.nodup_append'] at hnodup
    exact fun hmem ↦ hnodup.2.2 hmem List.mem_cons_self
  have hlast' : (heap.set node ⟨elem, stop⟩).node last = some ⟨val, stop⟩ :=
    (Heap.set_node_of_ne hne).trans hlast
  have hsegment' := (hsegment.extends (extends_set hfree ⟨elem, stop⟩)).redirect hnotInit (some node)
  refine ⟨node, (heap.set node ⟨elem, stop⟩).set last ⟨val, some node⟩, ?_, hfree, ⟨?_, ?_, ?_⟩, ?_⟩
  · rw [append, Heap.load_some, hlast]
    simp only [Option.bind_eq_bind, Option.bind_some, Allocator.new, hnode, Heap.modify_some hlast',
      Heap.load_some, Heap.set_node_self]
    rfl
  · rw [List.getLast?_append]
    rfl
  · rw [headOf_append, ← headOf_of_ne_nil (List.append_ne_nil_of_right_ne_nil _ (List.cons_ne_nil _ _))
      none, hstop]
    refine segment_append.mpr ⟨hsegment', ?_, trivial⟩
    rw [Heap.set_node_of_ne hne.symm, Heap.set_node_self]
    rfl
  · rw [addresses_append, List.nodup_append']
    exact ⟨h.nodup, List.nodup_singleton node, List.disjoint_singleton.mpr (h.segment.notMem hfree)⟩
  · refine ((sameOff_set heap node _).mono ?_).trans ((sameOff_set _ last _).mono ?_)
    · rintro other rfl
      exact Or.inr hfree
    · exact fun other hother ↦ Or.inl hother

/-- A cycle of one new node. -/
theorem first_spec (alloc : Allocator (ListNode α)) (heap : Heap (ListNode α)) (elem : α) :
    ∃ node heap', first alloc heap elem = some (some node, heap') ∧ heap.node node = none ∧
      Cycle heap' (some node) [(node, elem)] ∧ Extends heap heap' := by
  obtain ⟨node, hnode, hfree⟩ := alloc.exists_address heap
  have hset : (heap.set node ⟨elem, none⟩).node node = some ⟨elem, none⟩ := Heap.set_node_self
  refine ⟨node, (heap.set node ⟨elem, none⟩).set node ⟨elem, some node⟩, ?_, hfree,
    ⟨rfl, ⟨Heap.set_node_self, trivial⟩, List.nodup_singleton node⟩,
    (extends_set hfree _).set hfree _⟩
  rw [first]
  simp only [Allocator.new, hnode, Heap.modify_some hset, Option.bind_eq_bind, Option.bind_some]
  rfl

/-- The loop of the copy constructor goes round the other cycle, to its head again. -/
theorem copyLoop_spec (alloc : Allocator (ListNode α)) {fuel head last : ℕ} {copied todo : Cells α}
    (hcopied : Cycle heap (some last) copied) (hne : copied ≠ [])
    (htodo : Segment heap todo (some head)) (hhead : head ∉ addresses todo)
    (hdisjoint : (addresses copied).Disjoint (addresses todo)) (hfuel : todo.length < fuel) :
    ∃ last' added heap', copyLoop alloc fuel heap (some last) (some head) (headOf todo (some head)) =
        some (some last', heap') ∧ Cycle heap' (some last') (copied ++ added) ∧ vals added = vals todo ∧
      (∀ other ∈ addresses added, heap.node other = none) ∧
      SameOff {other | other ∈ addresses copied ∨ heap.node other = none} heap heap' := by
  induction todo generalizing heap fuel last copied with
  | nil =>
    obtain ⟨fuel, rfl⟩ := Nat.exists_eq_succ_of_ne_zero (Nat.ne_of_gt hfuel)
    refine ⟨last, [], heap, ?_, (List.append_nil copied).symm ▸ hcopied, rfl, nofun, .refl _ heap⟩
    rw [copyLoop, headOf_nil, if_pos rfl]
  | cons cell todo ih =>
    obtain ⟨cur, val⟩ := cell
    obtain ⟨fuel, rfl⟩ := Nat.exists_eq_succ_of_ne_zero (Nat.ne_of_gt (Nat.zero_lt_of_lt hfuel))
    obtain ⟨init, last, lastVal, rfl, hlast, -⟩ := hcopied.exists_last hne
    rw [hlast] at hcopied ⊢
    obtain ⟨node, heap₁, happend, hfree, hcycle, hsame⟩ := append_spec alloc hcopied val
    have hmemLast : last ∈ addresses (init ++ [(last, lastVal)]) := by simp
    have hcur : heap.node cur = some ⟨val, headOf todo (some head)⟩ := htodo.1
    have hkept {other : ℕ} (hmem : other ∈ addresses ((cur, val) :: todo)) :
        other ∉ {other | other = last ∨ heap.node other = none} := by
      rintro (rfl | hnone)
      · exact hdisjoint hmemLast hmem
      · exact htodo.notMem hnone hmem
    have htodo' := htodo.frame hsame fun other hmem ↦ hkept hmem
    obtain ⟨hcurHead, hheadTodo⟩ := not_or.mp fun hmem ↦ hhead (List.mem_cons.mpr hmem)
    have hdisjoint' : (addresses (init ++ [(last, lastVal)] ++ [(node, val)])).Disjoint
        (addresses todo) := by
      intro other hother hmem
      rw [addresses_append] at hother
      rcases List.mem_append.mp hother with hother | hother
      · exact hdisjoint hother (List.mem_cons_of_mem _ hmem)
      · rw [List.mem_singleton.mp hother] at hmem
        exact htodo.2.notMem hfree hmem
    have hfreed {other : ℕ} (hnone : heap₁.node other = none) : heap.node other = none := by
      by_contra hnode
      have hother : other = last := by
        by_contra hne
        exact hnode (hsame other (not_or.mpr ⟨hne, hnode⟩) ▸ hnone)
      have hmem : other ∈ addresses (init ++ [(last, lastVal)] ++ [(node, val)]) := by simp [hother]
      exact hcycle.segment.notMem hnone hmem
    obtain ⟨last', added, heap', hloop, hresult, hvals, hfresh, hsame'⟩ :=
      ih hcycle (List.append_ne_nil_of_right_ne_nil _ (List.cons_ne_nil _ _)) htodo'.2 hheadTodo
        hdisjoint' (Nat.lt_of_succ_lt_succ hfuel)
    refine ⟨last', (node, val) :: added, heap', ?_, ?_, ?_, ?_, (hsame.mono ?_).trans (hsame'.mono ?_)⟩
    · rw [copyLoop, headOf_cons, if_neg fun heq ↦ hcurHead (Option.some.inj heq).symm, Heap.load_some, hcur]
      simp only [Option.bind_eq_bind, Option.bind_some, happend, Heap.load_some, htodo'.1]
      exact hloop
    · rw [List.append_cons]
      exact hresult
    · exact congrArg (val :: ·) hvals
    · exact List.forall_mem_cons.mpr ⟨hfree, fun other hother ↦ hfreed (hfresh other hother)⟩
    · rintro other (rfl | hother)
      · exact Or.inl hmemLast
      · exact Or.inr hother
    · rintro other (hother | hother)
      · rw [addresses_append] at hother
        rcases List.mem_append.mp hother with hother | hother
        · exact Or.inl hother
        · exact Or.inr (List.mem_singleton.mp hother ▸ hfree)
      · exact Or.inr (hfreed hother)

/-- The first node is taken out of a cycle that has others. -/
theorem cut_spec {head last : ℕ} {val : α} {rest : Cells α}
    (h : Cycle heap (some last) ((head, val) :: rest)) (hrest : rest ≠ []) :
    ∃ heap₁ heap', head ≠ last ∧
      heap.modify (some last) (fun tail ↦ { tail with next := headOf rest none }) = some heap₁ ∧
      heap₁.delete (some head) = some heap' ∧ Cycle heap' (some last) rest ∧
      SameOff {other | other ∈ addresses ((head, val) :: rest)} heap heap' := by
  have hcut : rest = [] ∨ ∃ init last val, rest = init ++ [(last, val)] := by
    rcases List.eq_nil_or_concat' rest with hnil | ⟨init, ⟨last, val⟩, hconcat⟩
    · exact Or.inl hnil
    · exact Or.inr ⟨init, last, val, hconcat⟩
  obtain ⟨init, other, lastVal, rfl⟩ := hcut.resolve_left hrest
  have htail : other = last := by
    have heq := h.tail_eq
    rw [List.getLast?_cons, List.getLast?_append] at heq
    exact (Option.some.inj heq).symm
  subst htail
  obtain ⟨hnotRest, hnodup⟩ := List.nodup_cons.mp h.nodup
  have hmemLast : other ∈ addresses (init ++ [(other, lastVal)]) := by simp
  have hne : head ≠ other := fun heq ↦ hnotRest (heq ▸ hmemLast)
  have hnotInit : other ∉ addresses init := by
    have hsplit := hnodup
    rw [← addresses, addresses_append, List.nodup_append'] at hsplit
    exact fun hmem ↦ hsplit.2.2 hmem List.mem_cons_self
  have hlast := (segment_append.mp h.segment.2).2.1
  have hnext := h.segment.2.redirect hnotInit (headOf (init ++ [(other, lastVal)]) none)
  obtain ⟨heap', hdelete, -, hsame⟩ := Heap.delete_some
    ((Heap.set_node_of_ne hne).trans h.segment.1 : (heap.set other
      ⟨lastVal, headOf (init ++ [(other, lastVal)]) none⟩).node head = _)
  refine ⟨_, heap', hne, Heap.modify_some hlast _, hdelete, ⟨?_, hnext.frame hsame ?_, hnodup⟩,
    ((sameOff_set heap other _).mono ?_).trans (hsame.mono ?_)⟩
  · rw [List.getLast?_append]
    rfl
  · rintro address hmem rfl
    exact hnotRest hmem
  · rintro address rfl
    exact List.mem_cons_of_mem _ hmemLast
  · rintro address rfl
    exact List.mem_cons_self

/-- The loop of the destructor deletes all nodes up to the last one. -/
theorem destructLoop_spec {fuel last : ℕ} {lastVal : α} {todo : Cells α}
    (h : Cycle heap (some last) (todo ++ [(last, lastVal)])) (hfuel : todo.length < fuel) :
    ∃ heap' node, destructLoop (some last) fuel heap (headOf (todo ++ [(last, lastVal)]) none) =
        some heap' ∧ heap'.node last = some node ∧
      SameOff {other | other ∈ addresses (todo ++ [(last, lastVal)])} heap heap' := by
  induction todo generalizing heap fuel with
  | nil =>
    obtain ⟨fuel, rfl⟩ := Nat.exists_eq_succ_of_ne_zero (Nat.ne_of_gt hfuel)
    refine ⟨heap, _, ?_, h.segment.1, .refl _ heap⟩
    rw [destructLoop]
    exact if_pos rfl
  | cons cell todo ih =>
    obtain ⟨head, val⟩ := cell
    obtain ⟨fuel, rfl⟩ := Nat.exists_eq_succ_of_ne_zero (Nat.ne_of_gt (Nat.zero_lt_of_lt hfuel))
    have hrest : todo ++ [(last, lastVal)] ≠ [] :=
      List.append_ne_nil_of_right_ne_nil _ (List.cons_ne_nil _ _)
    obtain ⟨heap₁, heap₂, hne, hmodify, hdelete, hcycle, hsame⟩ :=
      @cut_spec α heap head last val (todo ++ [(last, lastVal)]) h hrest
    obtain ⟨heap', node, hloop, hlast, hsame'⟩ := ih hcycle (Nat.lt_of_succ_lt_succ hfuel)
    have hhead : heap.node head = some ⟨val, headOf (todo ++ [(last, lastVal)]) none⟩ := by
      rw [← headOf_of_ne_nil hrest (some head) none]
      exact h.segment.1
    have hnext : heap₂.node last = some ⟨lastVal, headOf (todo ++ [(last, lastVal)]) none⟩ :=
      (segment_append.mp hcycle.segment).2.1
    refine ⟨heap', node, ?_, hlast, hsame.trans (hsame'.mono ?_)⟩
    · rw [List.cons_append, headOf_cons, destructLoop, if_neg fun heq ↦ hne (Option.some.inj heq),
        Heap.load_some, hhead]
      simp only [Option.bind_eq_bind, Option.bind_some, hmodify, hdelete, Heap.load_some, hnext]
      exact hloop
    · exact fun other hmem ↦ List.mem_cons_of_mem _ hmem

/-! ### Lists of elements -/

/-- The object has a cycle of the elements, and owns its nodes. -/
def Stands (heap : Heap (ListNode α)) (queue : Queue) (owned : Set ℕ) (elems : List α) : Prop :=
  ∃ cells, Represents heap queue cells ∧ owned = {address | address ∈ addresses cells} ∧
    elems = vals cells

/-- What an object shows of its elements. -/
structure Shows (heap : Heap (ListNode α)) (queue : Queue) (elems : List α) : Prop where
  cycle : ∃ cells, Cycle heap queue.mTail cells ∧ vals cells = elems
  empty_eq : empty queue = elems.isEmpty
  front_eq : front heap queue = elems.head?
  back_eq : back heap queue = elems.getLast?
  size_eq : (size queue).toNat = elems.length

/-- What a change makes of a list, and the result of `pop`. -/
def changeList : Change α → List α → Option Bool × List α
  | .push elem, elems => (none, elems ++ [elem])
  | .pop, elems => (some (!elems.isEmpty), elems.tail)

/-- So many elements can be counted. -/
def Counted (elems : List α) : Prop := elems.length < 2 ^ 32

variable {owned : Set ℕ} {elems : List α}

theorem Cycle.empty_eq (h : Cycle heap queue.mTail cells) : empty queue = (vals cells).isEmpty := by
  rw [empty, decide_eq_decide.mpr h.tail_eq_none, Bool.eq_iff_iff, decide_eq_true_iff, vals,
    List.isEmpty_map, List.isEmpty_iff]

/-- A cycle that is not empty has a first node behind the last. -/
theorem Cycle.exists_head (h : Cycle heap mTail cells) (hcells : cells ≠ []) :
    ∃ head val rest tail, cells = (head, val) :: rest ∧ heap.load mTail = some tail ∧
      tail.next = some head ∧ heap.load (some head) = some ⟨val, headOf rest (some head)⟩ ∧
      (vals cells).getLast? = some tail.val := by
  obtain ⟨init, last, lastVal, hinit, rfl, hlast⟩ := h.exists_last hcells
  have hvals : (vals cells).getLast? = some lastVal := by
    rw [hinit, vals, List.map_append, List.getLast?_append]
    rfl
  cases cells with
  | nil => exact absurd rfl hcells
  | cons cell rest =>
    obtain ⟨head, val⟩ := cell
    exact ⟨head, val, rest, _, rfl, hlast, rfl, h.segment.1, hvals⟩

theorem Represents.shows (h : Represents heap queue cells) : Shows heap queue (vals cells) := by
  refine ⟨⟨cells, h.toCycle, rfl⟩, h.empty_eq, ?_, ?_, ?_⟩
  · by_cases hcells : cells = []
    · subst hcells
      rw [front, h.tail_eq_none.mpr rfl]
      rfl
    · obtain ⟨head, val, rest, tail, rfl, htail, hnext, hhead, -⟩ := h.exists_head hcells
      rw [front, htail]
      simp only [Option.bind_eq_bind, Option.bind_some, hnext, hhead]
      rfl
  · by_cases hcells : cells = []
    · subst hcells
      rw [back, h.tail_eq_none.mpr rfl]
      rfl
    · obtain ⟨head, val, rest, tail, -, htail, -, -, hlast⟩ := h.exists_head hcells
      rw [back, htail, hlast]
      rfl
  · rw [vals, List.length_map]
    exact h.size_eq

theorem Stands.shows (h : Stands heap queue owned elems) : Shows heap queue elems := by
  obtain ⟨cells, hrepresents, -, rfl⟩ := h
  exact hrepresents.shows

/-- From one last node on there is one cycle of a length. -/
theorem Cycle.unique (h : Cycle heap mTail cells) {cells' : Cells α} (h' : Cycle heap mTail cells')
    (hlength : cells.length = cells'.length) : cells = cells' := by
  by_cases hcells : cells = []
  · subst hcells
    exact (List.eq_nil_of_length_eq_zero hlength.symm).symm
  · have hcells' : cells' ≠ [] := fun hnil ↦ hcells (h.tail_eq_none.mp (h'.tail_eq_none.mpr hnil))
    obtain ⟨head, val, rest, tail, rfl, htail, hnext, -⟩ := h.exists_head hcells
    obtain ⟨head', val', rest', tail', rfl, htail', hnext', -⟩ := h'.exists_head hcells'
    have hsame : some head = some head' := by
      rw [← hnext, ← hnext', Option.some.inj (htail.symm.trans htail')]
    exact h.segment.unique_of_length h'.segment hsame hlength

theorem Shows.elems_eq {elems' : List α} (h : Shows heap queue elems) (h' : Shows heap queue elems') :
    elems = elems' := by
  obtain ⟨cells, hcycle, hvals⟩ := h.cycle
  obtain ⟨cells', hcycle', hvals'⟩ := h'.cycle
  have hlength : cells.length = cells'.length := by
    have hsame := h.size_eq.symm.trans h'.size_eq
    rwa [← hvals, ← hvals', vals, vals, List.length_map, List.length_map] at hsame
  rw [← hvals, ← hvals', hcycle.unique hcycle' hlength]

theorem Stands.live (h : Stands heap queue owned elems) :
    ∀ address ∈ owned, heap.node address ≠ none := by
  obtain ⟨cells, hrepresents, rfl, -⟩ := h
  exact fun address hmem ↦ hrepresents.segment.node_ne_none hmem

theorem Stands.frame {changed : Set ℕ} (h : Stands heap queue owned elems)
    (hsame : SameOff changed heap heap') (hdisjoint : Disjoint owned changed) :
    Stands heap' queue owned elems := by
  obtain ⟨cells, hrepresents, rfl, rfl⟩ := h
  refine ⟨cells, ⟨hrepresents.toCycle.frame hsame fun address hmem ↦ ?_, hrepresents.size_eq⟩, rfl, rfl⟩
  exact Set.disjoint_left.mp hdisjoint hmem

theorem stands_construct (heap : Heap (ListNode α)) : Stands heap construct ∅ [] :=
  ⟨[], ⟨cycle_nil heap, rfl⟩, by ext; simp, rfl⟩

theorem Stands.copyConstruct_replaces (h : Stands heap queue owned elems)
    (alloc : Allocator (ListNode α)) :
    ∃ queue' heap' owned', copyConstruct alloc heap queue = some (queue', heap') ∧
      Replaces Stands heap ∅ heap' queue' owned' elems := by
  obtain ⟨cells, hrepresents, rfl, rfl⟩ := h
  have hempty := hrepresents.empty_eq
  by_cases hcells : cells = []
  · subst hcells
    have hqueue : queue = construct := by
      obtain ⟨mTail, mSize⟩ := queue
      obtain rfl : mTail = none := hrepresents.tail_eq
      obtain rfl : mSize = 0 := BitVec.eq_of_toNat_eq hrepresents.size_eq
      rfl
    subst hqueue
    exact ⟨construct, heap, ∅, rfl, stands_construct heap, Set.empty_subset _, .refl _ heap⟩
  obtain ⟨head, val, rest, tail, rfl, htail, hnext, hhead, -⟩ := hrepresents.exists_head hcells
  have hfront : front heap queue = some val := hrepresents.shows.front_eq
  obtain ⟨node, heap₁, hfirst, hfree, hcycle, hextends⟩ := first_spec alloc heap val
  have hsegment := hrepresents.segment.extends hextends
  have hnotNode : node ∉ addresses ((head, val) :: rest) := hrepresents.segment.notMem hfree
  obtain ⟨hheadRest, hnodup⟩ := List.nodup_cons.mp hrepresents.nodup
  have hfuel : rest.length < heap₁.bound + 1 := by
    have hle := hsegment.length_le hrepresents.nodup
    rw [List.length_cons] at hle
    omega
  obtain ⟨last, added, heap', hloop, hcycle', hvals, hfresh, hsame⟩ := copyLoop_spec alloc hcycle
    (List.cons_ne_nil _ _) hsegment.2 hheadRest
    (List.singleton_disjoint.mpr fun hmem ↦ hnotNode (List.mem_cons_of_mem _ hmem)) hfuel
  have htail₁ : heap₁.load queue.mTail = some tail := by
    obtain ⟨init, other, otherVal, -, htailEq, -⟩ := hrepresents.exists_last hcells
    rw [htailEq] at htail ⊢
    exact hextends.node_eq htail
  have hhead₁ : heap₁.load (some head) = some ⟨val, headOf rest (some head)⟩ := hextends.node_eq hhead
  refine ⟨⟨some last, queue.mSize⟩, heap', {address | address ∈ addresses ((node, val) :: added)}, ?_,
    ⟨(node, val) :: added, ⟨hcycle', ?_⟩, rfl, ?_⟩, ?_, ?_⟩
  · rw [copyConstruct, hempty]
    simp only [vals, List.map_cons, List.isEmpty_cons, Bool.false_eq_true, if_false, hfront, hfirst,
      Option.bind_eq_bind, Option.bind_some, htail₁, hnext, hhead₁, hloop]
    rfl
  · have hcount := congrArg List.length hvals
    rw [vals, vals, List.length_map, List.length_map] at hcount
    rw [List.length_cons, hcount]
    exact hrepresents.size_eq
  · exact (congrArg (val :: ·) hvals).symm
  · rw [writable_empty]
    exact List.forall_mem_cons.mpr ⟨hfree, fun other hother ↦ hextends.free (hfresh other hother)⟩
  · rw [writable_empty]
    refine SameOff.trans hextends (hsame.mono ?_)
    rintro other (hother | hother)
    · rw [List.mem_singleton.mp hother]
      exact hfree
    · exact hextends.free hother

theorem Stands.destruct_sameOff (h : Stands heap queue owned elems) :
    ∃ heap', destruct heap queue = some heap' ∧ SameOff owned heap heap' := by
  obtain ⟨cells, hrepresents, rfl, -⟩ := h
  have hempty := hrepresents.empty_eq
  by_cases hcells : cells = []
  · subst hcells
    refine ⟨heap, ?_, .refl _ heap⟩
    rw [destruct, hempty]
    rfl
  obtain ⟨init, last, val, rfl, htail, hlast⟩ := hrepresents.exists_last hcells
  have hcycle := hrepresents.toCycle
  have hfuel : init.length < heap.bound + 1 := by
    have hle := hrepresents.segment.length_le hrepresents.nodup
    rw [List.length_append] at hle
    omega
  rw [htail] at hcycle
  obtain ⟨heap₁, node, hloop, hnode, hsame⟩ := destructLoop_spec hcycle hfuel
  obtain ⟨heap', hdelete, -, hsame'⟩ := Heap.delete_some hnode
  refine ⟨heap', ?_, hsame.trans (hsame'.mono ?_)⟩
  · have hfalse : (vals (init ++ [(last, val)])).isEmpty = false := by simp [vals]
    rw [destruct, hempty, hfalse, htail, Heap.load_some, hlast]
    simp only [Bool.false_eq_true, if_false, Option.bind_eq_bind, Option.bind_some, hloop, hdelete]
  · rintro other rfl
    simp

theorem Stands.assign_replaces {queue' : Queue} {owned' : Set ℕ} {elems' : List α}
    (h : Stands heap queue owned elems) (h' : Stands heap queue' owned' elems')
    (alloc : Allocator (ListNode α)) :
    ∃ queue'' heap' owned'', assign alloc heap queue queue' = some (queue'', heap') ∧
      Replaces Stands heap owned heap' queue'' owned'' elems' :=
  copyAndSwap_replaces Stands.live Stands.frame (fun hcopied ↦ hcopied.copyConstruct_replaces alloc)
    (fun _ _ ↦ rfl) Stands.destruct_sameOff h h'

theorem Stands.push_replaces (h : Stands heap queue owned elems) (alloc : Allocator (ListNode α))
    (elem : α) (hcounted : Counted (elems ++ [elem])) :
    ∃ queue' heap' owned', push alloc elem heap queue = some (queue', heap') ∧
      Replaces Stands heap owned heap' queue' owned' (elems ++ [elem]) := by
  obtain ⟨cells, hrepresents, rfl, rfl⟩ := h
  have hempty := hrepresents.empty_eq
  have hsize : (queue.mSize + 1).toNat = cells.length + 1 := by
    have hold := hrepresents.size_eq
    rw [Counted, List.length_append, List.length_singleton, vals, List.length_map] at hcounted
    bv_omega
  by_cases hcells : cells = []
  · subst hcells
    obtain ⟨node, heap', hfirst, hfree, hcycle, hextends⟩ := first_spec alloc heap elem
    refine ⟨⟨some node, queue.mSize + 1⟩, heap', {address | address ∈ addresses [(node, elem)]}, ?_,
      ⟨[(node, elem)], ⟨hcycle, hsize⟩, rfl, rfl⟩, ?_, hextends.mono Set.subset_union_right⟩
    · rw [push, hempty]
      simp only [vals, List.map_nil, List.isEmpty_nil, if_true, hfirst, Option.bind_eq_bind,
        Option.bind_some]
      rfl
    · intro other hother
      rw [List.mem_singleton.mp hother]
      exact Or.inr hfree
  · obtain ⟨init, last, val, rfl, htail, -⟩ := hrepresents.exists_last hcells
    have hcycle := hrepresents.toCycle
    rw [htail] at hcycle
    have hlast : last ∈ addresses (init ++ [(last, val)]) := by simp
    obtain ⟨node, heap', happend, hfree, hcycle', hsame⟩ := append_spec alloc hcycle elem
    refine ⟨⟨some node, queue.mSize + 1⟩, heap',
      {address | address ∈ addresses (init ++ [(last, val)] ++ [(node, elem)])}, ?_,
      ⟨_, ⟨hcycle', ?_⟩, rfl, ?_⟩, ?_, hsame.mono ?_⟩
    · have hfalse : (vals (init ++ [(last, val)])).isEmpty = false := by simp [vals]
      rw [push, hempty, hfalse, htail]
      simp only [Bool.false_eq_true, if_false, happend, Option.bind_eq_bind, Option.bind_some]
      rfl
    · rw [hsize, @List.length_append _ _ [(node, elem)]]
      rfl
    · rw [@vals_append _ _ [(node, elem)]]
      rfl
    · intro other hother
      change other ∈ addresses _ at hother
      rw [addresses_append] at hother
      rcases List.mem_append.mp hother with hother | hother
      · exact Or.inl hother
      · exact Or.inr (List.mem_singleton.mp hother ▸ hfree)
    · rintro other (rfl | hother)
      · exact Or.inl hlast
      · exact Or.inr hother

theorem Stands.pop_replaces (h : Stands heap queue owned elems) :
    ∃ queue' heap' owned', pop heap queue = some (!elems.isEmpty, queue', heap') ∧
      Replaces Stands heap owned heap' queue' owned' elems.tail := by
  obtain ⟨cells, hrepresents, rfl, rfl⟩ := h
  have hempty := hrepresents.empty_eq
  by_cases hcells : cells = []
  · subst hcells
    refine ⟨queue, heap, {address | address ∈ addresses ([] : Cells α)}, ?_,
      ⟨[], hrepresents, rfl, rfl⟩, Set.subset_union_left, .refl _ heap⟩
    rw [pop, hempty]
    rfl
  obtain ⟨head, val, rest, tail, rfl, htail, hnext, hhead, -⟩ := hrepresents.exists_head hcells
  obtain ⟨init, last, lastVal, hinit, htailEq, hlast⟩ := hrepresents.exists_last hcells
  have hfalse : (vals ((head, val) :: rest)).isEmpty = false := rfl
  have hsize : (queue.mSize - 1).toNat = rest.length := by
    have hold := hrepresents.size_eq
    rw [List.length_cons] at hold
    bv_omega
  rw [htailEq] at htail
  by_cases hrest : rest = []
  · subst hrest
    have heq : head = last := by
      have hsame := hrepresents.tail_eq.symm.trans htailEq
      exact Option.some.inj hsame
    subst heq
    obtain ⟨heap', hdelete, -, hsame⟩ := Heap.delete_some hlast
    refine ⟨⟨none, queue.mSize - 1⟩, heap', {address | address ∈ addresses ([] : Cells α)}, ?_,
      ⟨[], ⟨cycle_nil heap', hsize⟩, rfl, rfl⟩, nofun, hsame.mono ?_⟩
    · rw [pop, hempty, hfalse, htailEq, htail]
      simp only [Bool.false_eq_true, if_false, Option.bind_eq_bind, Option.bind_some, hnext, if_true,
        hdelete]
      rfl
    · rintro other rfl
      exact Or.inl List.mem_cons_self
  · have hcycle := hrepresents.toCycle
    rw [htailEq] at hcycle
    obtain ⟨heap₁, heap', hne, hmodify, hdelete, hcycle', hsame⟩ := cut_spec hcycle hrest
    have hhead' : heap.load (some head) = some ⟨val, headOf rest none⟩ := by
      rw [hhead, headOf_of_ne_nil hrest (some head) none]
    refine ⟨⟨some last, queue.mSize - 1⟩, heap', {address | address ∈ addresses rest}, ?_,
      ⟨rest, ⟨hcycle', hsize⟩, rfl, rfl⟩, fun other hother ↦ Or.inl (List.mem_cons_of_mem _ hother),
      hsame.mono Set.subset_union_left⟩
    rw [pop, hempty, hfalse, htailEq, htail]
    have hneSome : ¬ some head = some last := fun heq ↦ hne (Option.some.inj heq)
    simp only [Bool.false_eq_true, if_false, Option.bind_eq_bind, Option.bind_some, hnext, hneSome, hhead',
      hmodify, Option.pure_def, hdelete]
    rfl

/-- The class implements lists of elements. -/
theorem implements (alloc : Allocator (ListNode α)) :
    Implements (objects alloc) Stands Counted [] changeList where
  live := Stands.live
  frame := Stands.frame
  construct := stands_construct
  copyConstruct := fun h ↦ h.copyConstruct_replaces alloc
  assign := fun h h' ↦ h.assign_replaces h' alloc
  swap := fun _ _ ↦ rfl
  update := fun action heap queue owned elems h hcounted ↦ by
    cases action with
    | push elem =>
      obtain ⟨queue', heap', owned', hpush, hreplaces⟩ := h.push_replaces alloc elem hcounted
      have hchange : change alloc heap queue (.push elem) = some (none, queue', heap') := by
        rw [change, hpush]
        rfl
      exact ⟨queue', heap', owned', hchange, hreplaces⟩
    | pop =>
      obtain ⟨queue', heap', owned', hpop, hreplaces⟩ := h.pop_replaces
      have hchange : change alloc heap queue .pop = some (some (!elems.isEmpty), queue', heap') := by
        rw [change, hpop]
        rfl
      exact ⟨queue', heap', owned', hchange, hreplaces⟩

/-! ### Runs -/

/-- The program that pushes elements into one queue. -/
def pushes (elems : List α) : List (Action (Change α)) :=
  .construct :: elems.map fun elem ↦ .update 0 (.push elem)

theorem run_pushes (elems : List α) : ∃ results,
    run (values [] changeList) () (pushes elems) = some ⟨[elems], (), results⟩ := by
  induction elems using List.reverseRecOn with
  | nil => exact ⟨[], rfl⟩
  | append_singleton elems elem ih =>
    obtain ⟨results, hrun⟩ := ih
    have hsplit : pushes (elems ++ [elem]) = pushes elems ++ [.update 0 (.push elem)] := by
      rw [pushes, List.map_append]
      rfl
    refine ⟨results ++ [none], ?_⟩
    rw [hsplit, run_append, hrun]
    rfl

/-- What is shown can be counted. -/
theorem Shows.counted (h : Shows heap queue elems) : Counted elems := by
  rw [Counted, ← h.size_eq]
  exact BitVec.isLt _

/-- Queues behave as lists exactly as long as no list has more elements than can be counted. -/
theorem behavesAsLists_iff (alloc : Allocator (ListNode α)) (heap : Heap (ListNode α))
    (actions : List (Action (Change α))) :
    BehavesAsValues (objects alloc) Shows [] changeList heap actions ↔
      FitsThroughout Counted [] changeList actions :=
  ⟨fun hbehaves ↦ hbehaves.fits Shows.counted,
    behavesAsValues_of_fits (implements alloc) Stands.shows Shows.elems_eq⟩

/-- 2^32 zeros. -/
theorem not_behavesAsLists_replicate :
    ¬ BehavesAsValues (objects .next) Shows [] changeList Heap.empty
      (pushes (List.replicate (2 ^ 32) (0 : ℤ))) := by
  intro hbehaves
  obtain ⟨results, hrun⟩ := run_pushes (List.replicate (2 ^ 32) (0 : ℤ))
  have hcounted := hbehaves.fits Shows.counted _ (List.prefix_refl _) _ hrun _
    (List.mem_singleton_self _)
  rw [Counted, List.length_replicate] at hcounted
  exact lt_irrefl _ hcounted

end Queue

end CppLearn.DataStructure
