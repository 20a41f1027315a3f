import CppLearn.Foundation.HeapList

/-!
# Reversing a part of a list

`reverseBetween` takes the nodes of the part one after the other from behind its first one and puts
them behind the node before the part. `reverseBetweenII` turns their links round, and then links the
ends of the part to its neighbours. A guard is the node before a part at the begin of the list. Both
link the nodes in the same order.
-/

set_option autoImplicit false
set_option relaxedAutoImplicit false

namespace CppLearn.Leetcode.ReverseListII

open Foundation.HeapList Foundation.NodeHeap

/-! ### The program -/

/-- The second loop of `reverseBetween`, so many rounds of it. -/
def insertLoop (revGuard cur : Ptr) : ℕ → Heap (ListNode ℤ) → Ptr → Option (Heap (ListNode ℤ))
  | 0, heap, _ => some heap
  | count + 1, heap, post => do
    let heap ← moveNext heap cur post revGuard
    let post ← nextOf heap cur
    insertLoop revGuard cur count heap post

/-- The second loop of `reverseBetweenII`: `cur` and `rev_tail` after its rounds, and the heap. -/
def turnLoop : ℕ → Heap (ListNode ℤ) → Ptr → Ptr → Option (Ptr × Ptr × Heap (ListNode ℤ))
  | 0, heap, cur, revTail => some (cur, revTail, heap)
  | count + 1, heap, cur, revTail => do
    let (cur, revTail, heap) ← turn heap cur revTail
    turnLoop count heap cur revTail

variable (alloc : Allocator (ListNode ℤ))

/-- `reverseBetween`. The first loop counts from 1 to below `m`, the second from 1 to `n - m`. -/
def reverseBetween (heap : Heap (ListNode ℤ))
    (head : Ptr) (m n : ℤ) : Option (Ptr × Heap (ListNode ℤ)) := do
  let (guard, heap) := alloc.new heap ⟨0, head⟩
  let revGuard ← forward heap (m - 1).toNat (some guard)
  let next ← nextOf heap revGuard
  let post ← nextOf heap next
  let cur ← nextOf heap revGuard
  let heap ← insertLoop revGuard cur (n - m).toNat heap post
  release heap guard

def reverseBetweenII (heap : Heap (ListNode ℤ)) (head : Ptr) (m n : ℤ) :
    Option (Ptr × Heap (ListNode ℤ)) := do
  let (guard, heap) := alloc.new heap ⟨0, head⟩
  let revGuard ← forward heap (m - 1).toNat (some guard)
  let next ← nextOf heap revGuard
  let revTail ← nextOf heap next
  let cur ← nextOf heap revGuard
  let (cur, revTail, heap) ← turnLoop (n - m).toNat heap cur revTail
  let first ← nextOf heap revGuard
  let heap ← setNext heap first revTail
  let heap ← setNext heap revGuard cur
  release heap guard

/-! ### The loops -/

variable {alloc} {heap : Heap (ListNode ℤ)} {head stop : Ptr} {cells front done todo back : Cells ℤ}
  {guard first : ℕ} {elem val : ℤ}

theorem mem_addresses_reverse {address : ℕ} :
    address ∈ addresses todo.reverse ↔ address ∈ addresses todo :=
  (todo.reverse_perm.map Prod.fst).mem_iff

/-- The nodes behind the first one of the part go to before it, each in front of those that already
have. -/
theorem insertLoop_spec
    (h : Segment heap ((guard, elem) :: (front ++ (done ++ (first, val) :: (todo ++ back)))) none) :
    ∃ heap', insertLoop (some (lastOf guard front)) (some first) todo.length heap
        (headOf (todo ++ back) none) = some heap' ∧
      Segment heap' ((guard, elem) :: (front ++ (todo.reverse ++ done ++ (first, val) :: back)))
        none ∧
      SameOff
        {address | address ∈ guard :: addresses (front ++ (done ++ (first, val) :: (todo ++ back)))}
        heap heap' := by
  induction todo generalizing heap done with
  | nil => exact ⟨heap, rfl, h, .refl _ heap⟩
  | cons cell todo ih =>
    obtain ⟨address, other⟩ := cell
    obtain ⟨before, revVal, hguard⟩ := exists_eq_append_lastOf guard elem front
    have hsplit (tail : Cells ℤ) :
        (guard, elem) :: (front ++ tail) = before ++ (lastOf guard front, revVal) :: tail := by
      rw [← List.cons_append, hguard, List.append_assoc, List.singleton_append]
    rw [hsplit, List.cons_append] at h
    obtain ⟨heap1, hmove, hsegment, hsame⟩ := h.moveNext
    have hput : Segment heap1
        ((guard, elem) :: (front ++ (((address, other) :: done) ++ (first, val) :: (todo ++ back))))
        none := by
      rw [hsplit]
      exact hsegment
    obtain ⟨heap', hloop, hreversed, hsame'⟩ := ih hput
    have hfirst : nextOf heap1 (some first) = some (headOf (todo ++ back) none) := by
      have hwhole := hput
      rw [← List.append_assoc, ← List.cons_append] at hwhole
      exact nextOf_some (segment_append.mp hwhole).2.1
    refine ⟨heap', ?_, ?_, ?_⟩
    · rw [List.length_cons, insertLoop, List.cons_append, headOf_cons, hmove]
      simp only [Option.bind_eq_bind, Option.bind_some, hfirst, hloop]
    · rw [List.reverse_cons, List.append_assoc todo.reverse, List.singleton_append]
      exact hreversed
    · have hsame1 : SameOff {place | place ∈ guard :: addresses (front ++ (done ++ (first, val) ::
          ((address, other) :: todo ++ back)))} heap heap1 := by
        change SameOff {place | place ∈ addresses ((guard, elem) :: _)} heap heap1
        rw [hsplit]
        exact hsame
      refine hsame1.trans (hsame'.mono fun place hplace ↦ ?_)
      simp only [Set.mem_ofPred_eq, addresses_append, addresses_cons, List.mem_cons,
        List.mem_append] at hplace ⊢
      tauto

/-- The first nodes of a list go to the front of another one, each in front of those that already
have. -/
theorem turnLoop_spec (hdone : Segment heap done stop) (htodo : Segment heap (todo ++ back) none)
    (hdisjoint : (addresses todo).Disjoint (addresses done)) :
    ∃ heap', turnLoop todo.length heap (headOf done stop) (headOf (todo ++ back) none) =
        some (headOf (todo.reverse ++ done) stop, headOf back none, heap') ∧
      Segment heap' (todo.reverse ++ done) stop ∧ Segment heap' back none ∧
      SameOff {address | address ∈ addresses todo} heap heap' := by
  induction todo generalizing heap done with
  | nil => exact ⟨heap, rfl, hdone, htodo, .refl _ heap⟩
  | cons cell todo ih =>
    obtain ⟨address, other⟩ := cell
    rw [addresses_cons, List.disjoint_cons_left] at hdisjoint
    obtain ⟨heap1, hturn, hdone1, htodo1, hsame⟩ := hdone.turn htodo hdisjoint.1
    have hnot : address ∉ addresses todo := fun hmem ↦ by
      refine (List.nodup_cons.mp htodo.nodup).1 ?_
      change address ∈ addresses (todo ++ back)
      rw [addresses_append]
      exact List.mem_append_left _ hmem
    obtain ⟨heap', hloop, hdone', hback', hsame'⟩ :=
      ih hdone1 htodo1 (List.disjoint_cons_right.mpr ⟨hnot, hdisjoint.2⟩)
    rw [List.reverse_cons, List.append_assoc, List.singleton_append]
    refine ⟨heap', ?_, hdone', hback', ?_⟩
    · rw [List.length_cons, turnLoop, List.cons_append, headOf_cons, hturn]
      exact hloop
    · have hsame1 : SameOff {place | place ∈ addresses ((address, other) :: todo)} heap heap1 :=
        hsame.mono (Set.singleton_subset_iff.mpr List.mem_cons_self)
      exact hsame1.trans (hsame'.mono fun _ ↦ List.mem_cons_of_mem address)

/-! ### The part -/

/-- The positions from `m` to `n`, counted from 1, in reverse. -/
def reversed (m n : ℕ) (cells : Cells ℤ) : Cells ℤ :=
  cells.take (m - 1) ++ ((cells.drop (m - 1)).take (n - m + 1)).reverse ++ cells.drop n

/-- The part has a first node, behind which the others are. -/
theorem exists_part {m n : ℕ} (hm : 1 ≤ m) (hmn : m ≤ n) (hn : n ≤ cells.length) :
    ∃ front first val todo back, cells = front ++ (first, val) :: (todo ++ back) ∧
      front.length = m - 1 ∧ todo.length = n - m ∧
      reversed m n cells = front ++ (todo.reverse ++ (first, val) :: back) := by
  obtain ⟨front, ⟨first, val⟩, rest, rfl, hfront⟩ :=
    @exists_eq_append_cons _ cells (m - 1) (by omega)
  rw [List.length_append, List.length_cons] at hn
  refine ⟨front, first, val, rest.take (n - m), rest.drop (n - m), by rw [List.take_append_drop],
    hfront, ?_, ?_⟩
  · rw [List.length_take]
    omega
  · have hsum : front.length + (n - m + 1) = n := by
      omega
    have hdrop := @List.drop_length_add_append _ front ((first, val) :: rest) (n - m + 1)
    rw [hsum, List.drop_succ_cons] at hdrop
    rw [reversed, hdrop, ← hfront, List.take_left, List.drop_left, List.take_succ_cons,
      List.reverse_cons, List.append_assoc, List.append_assoc, List.singleton_append]

/-- What is read before the second loop. -/
theorem start_spec
    (h : Segment heap ((guard, elem) :: (front ++ (first, val) :: (todo ++ back))) none) :
    forward heap front.length (some guard) = some (some (lastOf guard front)) ∧
      nextOf heap (some (lastOf guard front)) = some (some first) ∧
      nextOf heap (some first) = some (headOf (todo ++ back) none) := by
  refine ⟨h.forward_lastOf, h.nextOf_lastOf, ?_⟩
  exact nextOf_some (segment_append.mp h.2).2.1

/-- The part is turned round and linked to its neighbours. -/
theorem turn_spec
    (h : Segment heap ((guard, elem) :: (front ++ (first, val) :: (todo ++ back))) none) :
    ∃ heap1 heap2 heap3, turnLoop todo.length heap (some first) (headOf (todo ++ back) none) =
      some (headOf todo.reverse (some first), headOf back none, heap1) ∧
      nextOf heap1 (some (lastOf guard front)) = some (some first) ∧
      setNext heap1 (some first) (headOf back none) = some heap2 ∧
      setNext heap2 (some (lastOf guard front)) (headOf todo.reverse (some first)) = some heap3 ∧
      Segment heap3 ((guard, elem) :: (front ++ (todo.reverse ++ (first, val) :: back))) none ∧
      SameOff {address | address ∈ guard :: addresses (front ++ (first, val) :: (todo ++ back))}
      heap heap3 := by
  have hnodup :
      ((guard :: addresses front) ++ (first :: (addresses todo ++ addresses back))).Nodup := by
    have hnodup := h.nodup
    rwa [← List.cons_append, addresses_append, addresses_cons, addresses_cons,
      addresses_append] at hnodup
  obtain ⟨hnodupFront, hnodupRest, hdisjoint⟩ := List.nodup_append'.mp hnodup
  obtain ⟨hfirst, hnodupRest⟩ := List.nodup_cons.mp hnodupRest
  obtain ⟨-, -, hapart⟩ := List.nodup_append'.mp hnodupRest
  rw [List.mem_append, not_or] at hfirst
  rw [← List.cons_append] at h
  obtain ⟨hfront, hfirstNode, hrest⟩ := segment_append.mp h
  obtain ⟨heap1, hloop, hturned, hback, hsame⟩ :=
    turnLoop_spec (segment_nil : Segment heap [] (some first)) hrest (List.disjoint_nil_right _)
  rw [List.append_nil] at hloop hturned
  -- The nodes before the part are neither turned nor its first one.
  have hfront1 := hfront.frame hsame fun address hmem hturned ↦
    hdisjoint hmem (List.mem_cons_of_mem _ (List.mem_append_left _ hturned))
  have hfirst1 := (hsame first hfirst.1).trans hfirstNode
  have hfront2 := @Segment.set _ _ _ _ first ⟨val, headOf back none⟩ hfront1
    fun hmem ↦ hdisjoint hmem List.mem_cons_self
  obtain ⟨heap3, hset, -, hfront3, hsame3⟩ :=
    hfront2.setLast hnodupFront (headOf todo.reverse (some first))
  have hlast {address : ℕ} (hmem : address ∈ first :: (addresses todo ++ addresses back)) :
      address ∉ ({lastOf guard front} : Set ℕ) := by
    intro heq
    obtain rfl : address = lastOf guard front := heq
    exact hdisjoint lastOf_mem hmem
  refine ⟨heap1, _, heap3, hloop, ?_, setNext_some hfirst1 _, hset, ?_, ?_⟩
  · exact hfront1.nextOf_last
  · rw [← List.cons_append]
    refine segment_append.mpr ⟨?_, segment_append.mpr ⟨?_, ?_, ?_⟩⟩
    · rw [headOf_append]
      exact hfront3
    · refine (hturned.set ?_).frame hsame3 fun address hmem ↦ hlast ?_
      · rw [mem_addresses_reverse]
        exact hfirst.1
      · exact List.mem_cons_of_mem _ (List.mem_append_left _ (mem_addresses_reverse.mp hmem))
    · exact (hsame3 first (hlast List.mem_cons_self)).trans Heap.set_node_self
    · exact (hback.set hfirst.2).frame hsame3 fun address hmem ↦
        hlast (List.mem_cons_of_mem _ (List.mem_append_right _ hmem))
  · change SameOff {address | address ∈
      addresses ((guard, elem) :: (front ++ (first, val) :: (todo ++ back)))} _ _
    rw [← List.cons_append, addresses_append, addresses_cons, addresses_cons, addresses_append]
    refine SameOff.trans (hsame.mono fun address hmem ↦ ?_) ((sameOff_set_of_mem ?_ heap1 _).trans
      (hsame3.mono (Set.singleton_subset_iff.mpr (List.mem_append_left _ lastOf_mem))))
    · exact List.mem_append_right _ (List.mem_cons_of_mem _ (List.mem_append_left _ hmem))
    · exact List.mem_append_right _ List.mem_cons_self

/-! ### The functions -/

theorem toNat_pred (m : ℕ) : ((m : ℤ) - 1).toNat = m - 1 := by
  omega

theorem reverseBetween_spec (alloc : Allocator (ListNode ℤ)) {m n : ℕ} (h : IsList heap head cells)
    (hm : 1 ≤ m) (hmn : m ≤ n) (hn : n ≤ cells.length) :
    ∃ head' heap', reverseBetween alloc heap head m n = some (head', heap') ∧
      IsList heap' head' (reversed m n cells) ∧
      SameOff {address | address ∈ addresses cells} heap heap' := by
  obtain ⟨front, first, val, todo, back, rfl, hfront, htodo, hreversed⟩ := exists_part hm hmn hn
  obtain ⟨guard, hnew, hfree, hguarded⟩ := h.guarded alloc 0
  obtain ⟨hforward, hfirst, hpost⟩ := start_spec hguarded
  obtain ⟨heap', hloop, hsegment, hsame⟩ :=
    @insertLoop_spec _ front [] todo back guard first 0 val hguarded
  rw [List.append_nil, ← hreversed] at hsegment
  obtain ⟨heap'', hrelease, hlist, hrest, -⟩ :=
    hsegment.release hfree ((sameOff_set_of_mem List.mem_cons_self heap _).trans hsame)
  refine ⟨_, heap'', ?_, hlist, hrest⟩
  rw [hfront] at hforward
  rw [htodo] at hloop
  rw [reverseBetween, hnew, toNat_pred, Int.toNat_sub]
  simp only [Option.bind_eq_bind, hforward, hfirst, hpost, Option.bind_some, hloop, hrelease]

theorem reverseBetweenII_spec (alloc : Allocator (ListNode ℤ))
    {m n : ℕ} (h : IsList heap head cells) (hm : 1 ≤ m) (hmn : m ≤ n) (hn : n ≤ cells.length) :
    ∃ head' heap', reverseBetweenII alloc heap head m n = some (head', heap') ∧
      IsList heap' head' (reversed m n cells) ∧
      SameOff {address | address ∈ addresses cells} heap heap' := by
  obtain ⟨front, first, val, todo, back, rfl, hfront, htodo, hreversed⟩ := exists_part hm hmn hn
  obtain ⟨guard, hnew, hfree, hguarded⟩ := h.guarded alloc 0
  obtain ⟨hforward, hfirst, hpost⟩ := start_spec hguarded
  obtain ⟨heap1, heap2, heap3, hloop, hnext, hset, hset', hsegment, hsame⟩ := turn_spec hguarded
  rw [← hreversed] at hsegment
  obtain ⟨heap4, hrelease, hlist, hrest, -⟩ :=
    hsegment.release hfree ((sameOff_set_of_mem List.mem_cons_self heap _).trans hsame)
  refine ⟨_, heap4, ?_, hlist, hrest⟩
  rw [hfront] at hforward
  rw [htodo] at hloop
  rw [reverseBetweenII, hnew, toNat_pred, Int.toNat_sub]
  simp only [Option.bind_eq_bind, hforward, hfirst, hpost, Option.bind_some, hloop, hnext,
    hset, hset', hrelease]

/-- Both return the list with the part in reverse, and change no other nodes. -/
theorem reverseBetween_reversed (alloc : Allocator (ListNode ℤ))
    {m n : ℕ} (h : IsList heap head cells) (hm : 1 ≤ m) (hmn : m ≤ n) (hn : n ≤ cells.length) :
    ∃ head1 heap1 head2 heap2, reverseBetween alloc heap head m n = some (head1, heap1) ∧
      reverseBetweenII alloc heap head m n = some (head2, heap2) ∧
      IsList heap1 head1 (reversed m n cells) ∧ IsList heap2 head2 (reversed m n cells) ∧
      SameOff {address | address ∈ addresses cells} heap heap1 ∧
      SameOff {address | address ∈ addresses cells} heap heap2 := by
  obtain ⟨head1, heap1, hrun1, hlist1, hsame1⟩ := reverseBetween_spec alloc h hm hmn hn
  obtain ⟨head2, heap2, hrun2, hlist2, hsame2⟩ := reverseBetweenII_spec alloc h hm hmn hn
  exact ⟨head1, heap1, head2, heap2, hrun1, hrun2, hlist1, hlist2, hsame1, hsame2⟩

/-- The part is all of a list of two nodes. -/
theorem reverseBetween_reversed_two :
    let heap := (Heap.empty.set 0 ⟨5, some 1⟩).set 1 ⟨6, none⟩
    ∃ head1 heap1 head2 heap2,
      reverseBetween .next heap (some 0) (1 : ℕ) (2 : ℕ) = some (head1, heap1) ∧
      reverseBetweenII .next heap (some 0) (1 : ℕ) (2 : ℕ) = some (head2, heap2) ∧
      IsList heap1 head1 (reversed 1 2 [(0, 5), (1, 6)]) ∧
      IsList heap2 head2 (reversed 1 2 [(0, 5), (1, 6)]) ∧
      SameOff {address | address ∈ addresses ([(0, 5), (1, 6)] : Cells ℤ)} heap heap1 ∧
      SameOff {address | address ∈ addresses ([(0, 5), (1, 6)] : Cells ℤ)} heap heap2 := by
  intro heap
  have h : IsList heap (some 0) [(0, 5), (1, 6)] := ⟨rfl, rfl, rfl, trivial⟩
  exact reverseBetween_reversed .next h le_rfl (Nat.le_succ 1) le_rfl

end CppLearn.Leetcode.ReverseListII
