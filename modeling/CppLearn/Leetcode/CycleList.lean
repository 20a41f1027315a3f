import CppLearn.Foundation.EventualCycle
import CppLearn.Foundation.NodeChain

/-!
# Cycles in lists

`hasCycle` and `detectCycle` follow a list with a slow and a fast pointer. The loop ends where the
fast one comes to the end of the list, or where the two meet; `detectCycle` then lets them go on in
step, the slow one from the head again. No counter in the code bounds the loops. They end because a
list has finitely many nodes, so that a walk in it comes to its end or comes round.
-/

set_option autoImplicit false
set_option relaxedAutoImplicit false

namespace CppLearn.Leetcode.CycleList

open Foundation.EventualCycle Foundation.NodeChain Foundation.NodeHeap

/-! ### The program -/

structure ListNode where
  val : ℤ
  next : Ptr
  deriving DecidableEq

instance : Linked ListNode := ⟨ListNode.next⟩

/-- The loop that both functions have, with a limit on its rounds: where the pointers meet, or
`none` where the list has ended. Undefined where it reads through a pointer without a node. -/
def chase (heap : Heap ListNode) : ℕ → Ptr → Ptr → Option (Option Ptr)
  | 0, _, _ => none
  | fuel + 1, slow, fast =>
    if fast = none then some none
    else do
      let fastNext ← next heap fast
      if fastNext = none then return none
      else
        let slow ← next heap slow
        let fast ← next heap fastNext
        if slow = fast then return some fast
        else chase heap fuel slow fast

/-- The inner loop of `detectCycle`. -/
def meet (heap : Heap ListNode) : ℕ → Ptr → Ptr → Option Ptr
  | 0, _, _ => none
  | fuel + 1, slow, fast =>
    if fast = slow then some slow
    else do
      let slow ← next heap slow
      let fast ← next heap fast
      meet heap fuel slow fast

def hasCycle (heap : Heap ListNode) (fuel : ℕ) (head : Ptr) : Option Bool :=
  (chase heap fuel head head).map Option.isSome

def detectCycle (heap : Heap ListNode) (fuel : ℕ) (head : Ptr) : Option Ptr :=
  (chase heap fuel head head).bind fun met ↦
    match met with
    | some fast => meet heap fuel head fast
    | none => some none

/-! ### Lists and their cycles -/

/-- A list: every pointer in it is null or points to a node. -/
structure LinkedStructure where
  heap : Heap ListNode
  head : Ptr
  linked : ∀ count address, (follow heap)^[count] head = some address → heap.node address ≠ none

namespace LinkedStructure

variable (list : LinkedStructure)

/-- The pointer so many nodes behind the head. -/
def walk (time : ℕ) : Ptr := (follow list.heap)^[time] list.head

/-- Some node is on a cycle. -/
def Cyclic : Prop :=
  ∃ time address, list.walk time = some address ∧ OnCycle (follow list.heap) (some address)

/-- The first node that is on a cycle. -/
def Entrance (address : ℕ) : Prop :=
  ∃ time, list.walk time = some address ∧ OnCycle (follow list.heap) (some address) ∧
    ∀ earlier < time, ¬ OnCycle (follow list.heap) (list.walk earlier)

/-- What `detectCycle` has to return. -/
def Detected (ptr : Ptr) : Prop :=
  (ptr = none ∧ ¬ list.Cyclic) ∨ ∃ address, ptr = some address ∧ list.Entrance address

variable {list : LinkedStructure}

theorem walk_succ (time : ℕ) : list.walk (time + 1) = follow list.heap (list.walk time) :=
  Function.iterate_succ_apply' ..

theorem walk_ne_none {time earlier : ℕ} (htime : list.walk time ≠ none) (hle : earlier ≤ time) :
    list.walk earlier ≠ none := fun hend ↦ htime (iterate_follow_of_le hend hle)

theorem next_walk {time : ℕ} (htime : list.walk time ≠ none) :
    next list.heap (list.walk time) = some (list.walk (time + 1)) := by
  obtain ⟨address, haddress⟩ := Option.ne_none_iff_exists'.mp htime
  have hnode := list.linked time address haddress
  rw [walk_succ]
  refine next_eq ?_
  rw [haddress, Heap.load_some]
  exact Option.isSome_iff_ne_none.mpr hnode

/-- A list that ends has no cycle. -/
theorem not_cyclic {time : ℕ} (hend : list.walk time = none) : ¬ list.Cyclic := by
  rintro ⟨start, address, hstart, length, hlength, hperiod⟩
  have hround : list.walk (length * time + start) = some address := by
    rw [walk, Function.iterate_add_apply]
    exact (congrArg _ hstart).trans (hperiod.mul_const time)
  have hpast : time ≤ length * time + start :=
    (Nat.le_mul_of_pos_left time hlength).trans (Nat.le_add_right ..)
  rw [walk, iterate_follow_of_le hend hpast] at hround
  cases hround

/-! ### The loop of both functions -/

/-- The round after so many does not end the loop. -/
structure Goes (list : LinkedStructure) (time : ℕ) : Prop where
  fast : list.walk (2 * time) ≠ none
  fastNext : list.walk (2 * time + 1) ≠ none
  apart : list.walk (time + 1) ≠ list.walk (2 * (time + 1))

theorem chase_succ {time : ℕ} (hgoes : Goes list time) (fuel : ℕ) :
    chase list.heap (fuel + 1) (list.walk time) (list.walk (2 * time)) =
      chase list.heap fuel (list.walk (time + 1)) (list.walk (2 * (time + 1))) := by
  have hslow : list.walk time ≠ none := walk_ne_none hgoes.fast (by omega)
  rw [chase, if_neg hgoes.fast, next_walk hgoes.fast]
  simp only [Option.bind_eq_bind, Option.bind_some, if_neg hgoes.fastNext, next_walk hslow,
    next_walk hgoes.fastNext]
  exact if_neg hgoes.apart

theorem chase_add {count : ℕ} (hgoes : ∀ time < count, Goes list time) (fuel : ℕ) :
    chase list.heap (fuel + count) list.head list.head =
      chase list.heap fuel (list.walk count) (list.walk (2 * count)) := by
  induction count generalizing fuel with
  | zero => rfl
  | succ count ih =>
    rw [← chase_succ (hgoes count (Nat.lt_succ_self count)), ← ih fun time htime ↦
      hgoes time (htime.trans (Nat.lt_succ_self count)), Nat.add_right_comm, Nat.add_assoc]

/-- The pointers meet, or the list ends, after no more rounds than the heap has addresses. -/
theorem exists_not_goes : ∃ time ≤ list.heap.bound, ¬ Goes list time := by
  by_cases hend : ∃ time ≤ list.heap.bound, list.walk time = none
  · obtain ⟨time, hle, hnone⟩ := hend
    exact ⟨time, hle, fun hgoes ↦ walk_ne_none hgoes.fast (by omega) hnone⟩
  · have hpoints : ∀ time ≤ list.heap.bound,
        list.walk time ∈ (Finset.range list.heap.bound).map .some := by
      intro time hle
      obtain ⟨address, haddress⟩ :=
        Option.ne_none_iff_exists'.mp fun hnone ↦ hend ⟨time, hle, hnone⟩
      rw [haddress]
      exact Finset.mem_map_of_mem _ (Finset.mem_range.mpr
        (Heap.lt_bound (list.linked time address haddress)))
    obtain ⟨first, second, hlt, hle, hreturn⟩ :=
      exists_iterate_eq (by rw [Finset.card_map, Finset.card_range]) hpoints
    obtain ⟨time, hpos, htime, hmeeting⟩ := exists_meeting hreturn hlt
    refine ⟨time - 1, by omega, fun hgoes ↦ hgoes.apart ?_⟩
    rw [Nat.sub_add_cancel hpos]
    exact hmeeting

/-- The loop ends with the list, or where the pointers meet. -/
theorem chase_spec {fuel : ℕ} (hfuel : list.heap.bound < fuel) :
    (chase list.heap fuel list.head list.head = some none ∧ ∃ time, list.walk time = none) ∨
      ∃ time, 0 < time ∧ time ≤ list.heap.bound + 1 ∧ list.walk time ≠ none ∧
        list.walk time = list.walk (2 * time) ∧
          chase list.heap fuel list.head list.head = some (some (list.walk (2 * time))) := by
  obtain ⟨last, hle, hends, hgoes⟩ := exists_first (@exists_not_goes list)
  obtain ⟨fuel, rfl⟩ : ∃ rest, fuel = rest + 1 + last := ⟨fuel - last - 1, by omega⟩
  rw [chase_add hgoes, chase]
  by_cases hfast : list.walk (2 * last) = none
  · exact Or.inl ⟨if_pos hfast, _, hfast⟩
  rw [if_neg hfast, next_walk hfast]
  by_cases hfastNext : list.walk (2 * last + 1) = none
  · refine Or.inl ⟨?_, _, hfastNext⟩
    simp only [Option.bind_eq_bind, Option.bind_some, if_pos hfastNext]
    rfl
  have hmeeting : list.walk (last + 1) = list.walk (2 * (last + 1)) :=
    not_not.mp fun hapart ↦ hends ⟨hfast, hfastNext, hapart⟩
  refine Or.inr ⟨last + 1, by omega, by omega, walk_ne_none hfastNext (by omega), hmeeting, ?_⟩
  have hslow : list.walk last ≠ none := walk_ne_none hfast (by omega)
  simp only [Option.bind_eq_bind, Option.bind_some, if_neg hfastNext, next_walk hslow,
    next_walk hfastNext]
  exact if_pos hmeeting

/-! ### The inner loop -/

theorem meet_add {meeting count : ℕ} (hmeeting : list.walk (meeting + count) ≠ none)
    (hapart : ∀ time < count, list.walk time ≠ list.walk (meeting + time)) (fuel : ℕ) :
    meet list.heap (fuel + count) list.head (list.walk meeting) =
      meet list.heap fuel (list.walk count) (list.walk (meeting + count)) := by
  induction count generalizing fuel with
  | zero => rfl
  | succ count ih =>
    have hfast : list.walk (meeting + count) ≠ none := walk_ne_none hmeeting (by omega)
    have hslow : list.walk count ≠ none := walk_ne_none hmeeting (by omega)
    have hrounds : fuel + (count + 1) = fuel + 1 + count := by omega
    rw [hrounds, ih hfast (fun time htime ↦ hapart time (htime.trans (Nat.lt_succ_self count))),
      meet, if_neg (hapart count (Nat.lt_succ_self count)).symm, next_walk hslow, next_walk hfast]
    rfl

/-- The pointers come together at the first node of the cycle. -/
theorem meet_spec {meeting fuel : ℕ} (hpos : 0 < meeting) (hfuel : meeting < fuel)
    (hnode : list.walk meeting ≠ none) (hmeeting : list.walk meeting = list.walk (2 * meeting)) :
    ∃ address, meet list.heap fuel list.head (list.walk (2 * meeting)) = some (some address) ∧
      list.Entrance address := by
  have htogether : ∃ time ≤ meeting, ¬ list.walk time ≠ list.walk (meeting + time) := by
    refine ⟨meeting, le_rfl, not_not.mpr ?_⟩
    rw [← two_mul]
    exact hmeeting
  obtain ⟨time, hle, hend, hapart⟩ := exists_first htogether
  have hfast : list.walk (meeting + time) ≠ none :=
    walk_ne_none (hmeeting ▸ hnode : list.walk (2 * meeting) ≠ none) (by omega)
  obtain ⟨address, haddress⟩ := Option.ne_none_iff_exists'.mp (walk_ne_none hnode hle)
  obtain ⟨fuel, rfl⟩ : ∃ rest, fuel = rest + 1 + time := ⟨fuel - time - 1, by omega⟩
  refine ⟨address, ?_, time, haddress, ?_, fun earlier hearlier hcycle ↦ hapart earlier hearlier ?_⟩
  · rw [← hmeeting, meet_add hfast hapart, meet, if_pos (not_not.mp hend).symm, haddress]
  · rw [← haddress]
    exact (onCycle_iff hpos hmeeting time).mpr (not_not.mp hend)
  · exact (onCycle_iff hpos hmeeting earlier).mp hcycle

end LinkedStructure

/-- Both functions return: `hasCycle` whether the list has a cycle, and `detectCycle` its first
node. The limit on the rounds is never reached. -/
theorem hasCycle_detectCycle (list : LinkedStructure)
    (fuel : ℕ) (hfuel : list.heap.bound + 1 < fuel) :
    (∃ found, hasCycle list.heap fuel list.head = some found ∧ (found = true ↔ list.Cyclic)) ∧
      ∃ ptr, detectCycle list.heap fuel list.head = some ptr ∧ list.Detected ptr := by
  rcases @LinkedStructure.chase_spec list fuel (by omega) with
    ⟨hchase, time, hend⟩ | ⟨meeting, hpos, hle, hnode, hmeeting, hchase⟩
  · have hcyclic := LinkedStructure.not_cyclic hend
    refine ⟨⟨false, ?_, by simp [hcyclic]⟩, none, ?_, Or.inl ⟨rfl, hcyclic⟩⟩
    · rw [hasCycle, hchase]
      rfl
    · rw [detectCycle, hchase]
      rfl
  · obtain ⟨address, hmeet, hentrance⟩ :=
      LinkedStructure.meet_spec hpos (by omega : meeting < fuel) hnode hmeeting
    obtain ⟨time, haddress, honCycle, -⟩ := id hentrance
    refine ⟨⟨true, ?_, ?_⟩, some address, ?_, Or.inr ⟨address, rfl, hentrance⟩⟩
    · rw [hasCycle, hchase]
      rfl
    · exact iff_of_true rfl ⟨time, address, haddress, honCycle⟩
    · rw [detectCycle, hchase]
      exact hmeet

/-- Three nodes, of which the last leads back to the second. -/
def threeNodes : Heap ListNode :=
  ((Heap.empty.set 0 ⟨3, some 1⟩).set 1 ⟨2, some 2⟩).set 2 ⟨0, some 1⟩

def backToSecond : LinkedStructure where
  heap := threeNodes
  head := some 0
  linked count address haddress := by
    have hmem : (follow threeNodes)^[count] (some 0) ∈ ({some 0, some 1, some 2} : Set Ptr) := by
      refine iterate_follow_mem (Set.mem_insert ..) (fun ptr hptr ↦ ?_) count
      rcases hptr with rfl | rfl | rfl
      · exact Or.inr (Or.inl rfl)
      · exact Or.inr (Or.inr rfl)
      · exact Or.inr (Or.inl rfl)
    rw [haddress] at hmem
    rcases hmem with hmem | hmem | hmem <;> cases hmem <;> decide

theorem hasCycle_detectCycle_backToSecond :
    (∃ found, hasCycle backToSecond.heap 5 backToSecond.head = some found ∧
      (found = true ↔ backToSecond.Cyclic)) ∧
        ∃ ptr, detectCycle backToSecond.heap 5 backToSecond.head = some ptr ∧
          backToSecond.Detected ptr :=
  hasCycle_detectCycle backToSecond 5 (by decide)

example : detectCycle backToSecond.heap 5 backToSecond.head = some (some 1) := by decide

end CppLearn.Leetcode.CycleList
