import CppLearn.Foundation.NodeHeap
import Mathlib.Data.List.Induction
import Mathlib.Data.Option.Basic
import Mathlib.Data.Set.Lattice
import Mathlib.Logic.Equiv.Basic
import Mathlib.Order.CompletePartialOrder

/-!
# Objects that are values

Several objects of a class have their nodes in one heap. The class behaves as a type of values where each
of the objects owns nodes of its own, and what is done to one of them leaves the others' alone. A program
runs over the objects, or over the values themselves, with the same steps; if the class implements the
operations on values (`Implements`), the two runs have the same results and stay related (`run_related`).
-/

set_option autoImplicit false
set_option relaxedAutoImplicit false

namespace CppLearn.Foundation.ValueObjects

open NodeHeap

variable {Node Store Object Update Result Value : Type}

/-! ### Programs over the objects of a class -/

/-- The operations of a class, whose objects have data in a store. -/
structure Class (Store Object Update Result : Type) where
  construct : Object
  copyConstruct : Store → Object → Option (Object × Store)
  assign : Store → Object → Object → Option (Object × Store)
  swap : Object → Object → Object × Object
  update : Update → Store → Object → Option (Result × Object × Store)

/-- Assignment with a copy of the right-hand side that is swapped in, and then destroyed. -/
def copyAndSwap (copyConstruct : Store → Object → Option (Object × Store))
    (swap : Object → Object → Object × Object) (destruct : Store → Object → Option Store) (store : Store)
    (object rightHandSide : Object) : Option (Object × Store) := do
  let (rhs, store) ← copyConstruct store rightHandSide
  let (object, rhs) := swap object rhs
  let store ← destruct store rhs
  return (object, store)

/-- What is done to the objects, by their numbers. -/
inductive Action (Update : Type)
  | construct
  | copyConstruct (source : ℕ)
  | assign (target source : ℕ)
  | swap (first second : ℕ)
  | update (target : ℕ) (change : Update)

/-- What is changed by an action. -/
def Action.Changes : Action Update → ℕ → Prop
  | .construct, _ => False
  | .copyConstruct _, _ => False
  | .assign target _, number => number = target
  | .swap first second, number => number = first ∨ number = second
  | .update target _, number => number = target

/-- The objects in the order of their construction, and the results of the updates so far. -/
structure State (Store Object Result : Type) where
  objects : List Object
  store : Store
  results : List Result

/-- One action, of which there is none where an object does not exist. -/
def step (cls : Class Store Object Update Result) (state : State Store Object Result) :
    Action Update → Option (State Store Object Result)
  | .construct => some { state with objects := state.objects ++ [cls.construct] }
  | .copyConstruct source => do
    let original ← state.objects[source]?
    let (object, store) ← cls.copyConstruct state.store original
    return ⟨state.objects ++ [object], store, state.results⟩
  | .assign target source => do
    let object ← state.objects[target]?
    let rightHandSide ← state.objects[source]?
    let (object, store) ← cls.assign state.store object rightHandSide
    return ⟨state.objects.set target object, store, state.results⟩
  | .swap first second => do
    let object ← state.objects[first]?
    let rightHandSide ← state.objects[second]?
    let (object, rightHandSide) := cls.swap object rightHandSide
    return { state with objects := (state.objects.set first object).set second rightHandSide }
  | .update target change => do
    let object ← state.objects[target]?
    let (result, object, store) ← cls.update change state.store object
    return ⟨state.objects.set target object, store, state.results ++ [result]⟩

/-- A run from no objects. -/
def run (cls : Class Store Object Update Result) (store : Store) (actions : List (Action Update)) :
    Option (State Store Object Result) := actions.foldlM (step cls) ⟨[], store, []⟩

theorem run_append (cls : Class Store Object Update Result) (store : Store)
    (actions : List (Action Update)) (action : Action Update) :
    run cls store (actions ++ [action]) = (run cls store actions).bind (step cls · action) := by
  rw [run, List.foldlM_append, run]
  simp only [List.foldlM_cons, List.foldlM_nil, bind_pure]
  rfl

/-- All other objects have the same members. -/
theorem getElem?_step {cls : Class Store Object Update Result} {state state' : State Store Object Result}
    {action : Action Update} (hstep : step cls state action = some state') {number : ℕ} {object : Object}
    (hobject : state.objects[number]? = some object) (hchanges : ¬ action.Changes number) :
    state'.objects[number]? = some object := by
  have happend (added : Object) : (state.objects ++ [added])[number]? = some object := by
    rw [List.getElem?_append_left (List.getElem?_eq_some_iff.mp hobject).1, hobject]
  cases action with
  | construct =>
    cases hstep
    exact happend cls.construct
  | copyConstruct source =>
    obtain ⟨original, -, hstep⟩ := Option.bind_eq_some_iff.mp hstep
    obtain ⟨⟨copied, store⟩, -, hstep⟩ := Option.bind_eq_some_iff.mp hstep
    cases hstep
    exact happend copied
  | assign target source =>
    obtain ⟨original, -, hstep⟩ := Option.bind_eq_some_iff.mp hstep
    obtain ⟨rightHandSide, -, hstep⟩ := Option.bind_eq_some_iff.mp hstep
    obtain ⟨⟨assigned, store⟩, -, hstep⟩ := Option.bind_eq_some_iff.mp hstep
    cases hstep
    exact (List.getElem?_set_ne (Ne.symm hchanges)).trans hobject
  | swap first second =>
    obtain ⟨hfirst, hsecond⟩ := not_or.mp hchanges
    obtain ⟨original, -, hstep⟩ := Option.bind_eq_some_iff.mp hstep
    obtain ⟨rightHandSide, -, hstep⟩ := Option.bind_eq_some_iff.mp hstep
    cases hstep
    exact (List.getElem?_set_ne (Ne.symm hsecond)).trans
      ((List.getElem?_set_ne (Ne.symm hfirst)).trans hobject)
  | update target change =>
    obtain ⟨original, -, hstep⟩ := Option.bind_eq_some_iff.mp hstep
    obtain ⟨⟨result, updated, store⟩, -, hstep⟩ := Option.bind_eq_some_iff.mp hstep
    cases hstep
    exact (List.getElem?_set_ne (Ne.symm hchanges)).trans hobject

/-- Values, which need no store: the one to begin with, and what an update makes of a value. -/
def values (initial : Value) (update : Update → Value → Result × Value) :
    Class Unit Value Update Result where
  construct := initial
  copyConstruct _ value := some (value, ())
  assign _ _ value := some (value, ())
  swap value value' := (value', value)
  update change _ value := some ((update change value).1, (update change value).2, ())

/-! ### Objects that stand for values -/

/-- An object owns these addresses and stands for this value. -/
abbrev Rep (Node Object Value : Type) := Heap Node → Object → Set ℕ → Value → Prop

/-- The addresses that an operation on an object may write: its own, and free ones. -/
def writable (heap : Heap Node) (owned : Set ℕ) : Set ℕ := owned ∪ {address | heap.node address = none}

/-- An operation gives an object the value, and writes no node that is not its own. -/
structure Replaces (rep : Rep Node Object Value) (heap : Heap Node) (owned : Set ℕ) (heap' : Heap Node)
    (object : Object) (owned' : Set ℕ) (value : Value) : Prop where
  rep : rep heap' object owned' value
  subset : owned' ⊆ writable heap owned
  same : SameOff (writable heap owned) heap heap'

/-- The operations of a class do to its objects what those on values do to what the objects stand for, at
least where an update keeps to the values that fit. -/
structure Implements (cls : Class (Heap Node) Object Update Result) (rep : Rep Node Object Value)
    (Fits : Value → Prop) (initial : Value) (update : Update → Value → Result × Value) : Prop where
  live {heap object owned value} : rep heap object owned value → ∀ address ∈ owned,
    heap.node address ≠ none
  frame {heap object owned value changed heap'} : rep heap object owned value →
    SameOff changed heap heap' → Disjoint owned changed → rep heap' object owned value
  construct (heap) : rep heap cls.construct ∅ initial
  copyConstruct {heap object owned value} : rep heap object owned value →
    ∃ object' heap' owned', cls.copyConstruct heap object = some (object', heap') ∧
      Replaces rep heap ∅ heap' object' owned' value
  assign {heap object owned value object' owned' value'} : rep heap object owned value →
    rep heap object' owned' value' → ∃ object'' heap' owned'',
      cls.assign heap object object' = some (object'', heap') ∧
        Replaces rep heap owned heap' object'' owned'' value'
  swap (object object') : cls.swap object object' = (object', object)
  update (change) {heap object owned value} : rep heap object owned value →
    Fits (update change value).2 → ∃ object' heap' owned',
      cls.update change heap object = some ((update change value).1, object', heap') ∧
        Replaces rep heap owned heap' object' owned' (update change value).2

section CopyAndSwap

variable {rep : Rep Node Object Value} {copyConstruct : Heap Node → Object → Option (Object × Heap Node)}
  {swap : Object → Object → Object × Object} {destruct : Heap Node → Object → Option (Heap Node)}
  {heap : Heap Node} {object object' : Object} {owned owned' : Set ℕ} {value value' : Value}

theorem writable_empty (heap : Heap Node) : writable heap ∅ = {address | heap.node address = none} :=
  Set.empty_union _

/-- What is live and not one's own is not written. -/
theorem disjoint_writable {other : Set ℕ} (hlive : ∀ address ∈ other, heap.node address ≠ none)
    (hdisjoint : Disjoint other owned) : Disjoint other (writable heap owned) := by
  refine Set.disjoint_union_right.mpr ⟨hdisjoint, Set.disjoint_left.mpr fun address hmem hfree ↦ ?_⟩
  exact hlive address hmem hfree

/-- A copy, the swap of members and the destructor make an assignment. -/
theorem copyAndSwap_replaces
    (hlive : ∀ {heap object owned value}, rep heap object owned value → ∀ address ∈ owned,
      heap.node address ≠ none)
    (hframe : ∀ {heap object owned value changed heap'}, rep heap object owned value →
      SameOff changed heap heap' → Disjoint owned changed → rep heap' object owned value)
    (hcopy : ∀ {heap object owned value}, rep heap object owned value →
      ∃ object' heap' owned', copyConstruct heap object = some (object', heap') ∧
        Replaces rep heap ∅ heap' object' owned' value)
    (hswap : ∀ object object', swap object object' = (object', object))
    (hdestruct : ∀ {heap object owned value}, rep heap object owned value →
      ∃ heap', destruct heap object = some heap' ∧ SameOff owned heap heap')
    (hobject : rep heap object owned value) (hrhs : rep heap object' owned' value') :
    ∃ object'' heap' owned'',
      copyAndSwap copyConstruct swap destruct heap object object' = some (object'', heap') ∧
        Replaces rep heap owned heap' object'' owned'' value' := by
  obtain ⟨rhs, copied, fresh, hcopied, hrep, hsubset, hsame⟩ := hcopy hrhs
  have holdDisjoint : Disjoint owned (writable heap ∅) :=
    disjoint_writable (hlive hobject) (Set.disjoint_empty _)
  obtain ⟨heap', hdestroyed, hsame'⟩ := hdestruct (hframe hobject hsame holdDisjoint)
  refine ⟨rhs, heap', fresh, ?_, hframe hrep hsame' (holdDisjoint.symm.mono_left hsubset),
    hsubset.trans ?_, (hsame.mono ?_).trans (hsame'.mono Set.subset_union_left)⟩
  · rw [copyAndSwap, hcopied]
    simp only [Option.bind_eq_bind, Option.bind_some, hswap, hdestroyed]
    rfl
  all_goals
    rw [writable_empty]
    exact Set.subset_union_right

end CopyAndSwap

/-! ### All objects of a program -/

section Owning

variable {rep : Rep Node Object Value} {heap heap' : Heap Node} {objects : ℕ → Option Object}
  {contents : ℕ → Option Value} {owned : ℕ → Set ℕ}

/-- The objects stand for the values of the same number, and own different nodes. -/
structure Owning (rep : Rep Node Object Value) (heap : Heap Node) (objects : ℕ → Option Object)
    (contents : ℕ → Option Value) (owned : ℕ → Set ℕ) : Prop where
  rep (number : ℕ) : Option.Rel (fun object value ↦ rep heap object (owned number) value)
    (objects number) (contents number)
  live (number : ℕ) : ∀ address ∈ owned number, heap.node address ≠ none
  disjoint : Pairwise fun number other ↦ Disjoint (owned number) (owned other)

theorem Owning.exists_object (h : Owning rep heap objects contents owned) {number : ℕ} {value : Value}
    (hvalue : contents number = some value) :
    ∃ object, objects number = some object ∧ rep heap object (owned number) value := by
  have hrel := h.rep number
  rw [hvalue] at hrel
  cases hobject : objects number with
  | none =>
    rw [hobject] at hrel
    cases hrel
  | some object =>
    rw [hobject] at hrel
    cases hrel with
    | some hrep => exact ⟨object, rfl, hrep⟩

/-- An object is replaced, or a new one takes a number that was free. -/
theorem Owning.replace (h : Owning rep heap objects contents owned)
    (hlive : ∀ {heap object owned value}, rep heap object owned value → ∀ address ∈ owned,
      heap.node address ≠ none)
    (hframe : ∀ {heap object owned value changed heap'}, rep heap object owned value →
      SameOff changed heap heap' → Disjoint owned changed → rep heap' object owned value)
    (number : ℕ) {object : Object} {owned' : Set ℕ} {value : Value}
    (hreplaces : Replaces rep heap (owned number) heap' object owned' value) :
    Owning rep heap' (Function.update objects number (some object))
      (Function.update contents number (some value)) (Function.update owned number owned') := by
  have hother {other : ℕ} (hne : other ≠ number) : Disjoint (owned other) (writable heap (owned number)) :=
    disjoint_writable (h.live other) (h.disjoint hne)
  refine ⟨fun other ↦ ?_, fun other ↦ ?_, fun first second hne ↦ ?_⟩
  · by_cases heq : other = number
    · subst heq
      rw [Function.update_self, Function.update_self, Function.update_self]
      exact Option.Rel.some hreplaces.rep
    · rw [Function.update_of_ne heq, Function.update_of_ne heq, Function.update_of_ne heq]
      have hrel := h.rep other
      generalize objects other = object?, contents other = value? at hrel ⊢
      cases hrel with
      | none => exact Option.Rel.none
      | some hrep => exact Option.Rel.some (hframe hrep hreplaces.same (hother heq))
  · by_cases heq : other = number
    · subst heq
      rw [Function.update_self]
      exact hlive hreplaces.rep
    · rw [Function.update_of_ne heq]
      intro address hmem
      rw [hreplaces.same address (Set.disjoint_left.mp (hother heq) hmem)]
      exact h.live other address hmem
  · change Disjoint (Function.update owned number owned' first)
      (Function.update owned number owned' second)
    by_cases hfirst : first = number
    · subst hfirst
      rw [Function.update_self, Function.update_of_ne hne.symm]
      exact (hother hne.symm).symm.mono_left hreplaces.subset
    · rw [Function.update_of_ne hfirst]
      by_cases hsecond : second = number
      · subst hsecond
        rw [Function.update_self]
        exact (hother hfirst).mono_right hreplaces.subset
      · rw [Function.update_of_ne hsecond]
        exact h.disjoint hne

/-- Objects that change numbers take along what they own. -/
theorem Owning.permute (h : Owning rep heap objects contents owned) (numbers : Equiv.Perm ℕ) :
    Owning rep heap (objects ∘ numbers) (contents ∘ numbers) (owned ∘ numbers) :=
  ⟨fun number ↦ h.rep (numbers number), fun number ↦ h.live (numbers number),
    fun _ _ hne ↦ h.disjoint (numbers.injective.ne hne)⟩

end Owning

/-! ### Lists as functions of numbers -/

theorem getElem?_set_eq {items : List Object} {number : ℕ} (hlt : number < items.length) (item : Object) :
    (fun other ↦ (items.set number item)[other]?) =
      Function.update (fun other ↦ items[other]?) number (some item) := by
  funext other
  by_cases heq : other = number
  · subst heq
    rw [Function.update_self, List.getElem?_set_self hlt]
  · rw [Function.update_of_ne heq, List.getElem?_set_ne (Ne.symm heq)]

theorem getElem?_append_eq (items : List Object) (item : Object) :
    (fun other ↦ (items ++ [item])[other]?) =
      Function.update (fun other ↦ items[other]?) items.length (some item) := by
  funext other
  rcases lt_trichotomy other items.length with hlt | rfl | hgt
  · rw [Function.update_of_ne hlt.ne, List.getElem?_append_left hlt]
  · rw [Function.update_self, List.getElem?_concat_length]
  · rw [Function.update_of_ne hgt.ne', List.getElem?_eq_none hgt.le, List.getElem?_eq_none]
    rw [List.length_append, List.length_singleton]
    exact hgt

theorem getElem?_swap_eq {items : List Object} {first second : ℕ} {item item' : Object}
    (hfirst : items[first]? = some item) (hsecond : items[second]? = some item') :
    (fun other ↦ ((items.set first item').set second item)[other]?) =
      (fun other ↦ items[other]?) ∘ Equiv.swap first second := by
  have hltFirst : first < items.length := (List.getElem?_eq_some_iff.mp hfirst).1
  have hltSecond : second < (items.set first item').length := by
    rw [List.length_set]
    exact (List.getElem?_eq_some_iff.mp hsecond).1
  rw [getElem?_set_eq hltSecond, getElem?_set_eq hltFirst]
  funext other
  by_cases heqSecond : other = second
  · subst heqSecond
    rw [Function.update_self, Function.comp_apply, Equiv.swap_apply_right, hfirst]
  rw [Function.update_of_ne heqSecond]
  by_cases heqFirst : other = first
  · subst heqFirst
    rw [Function.update_self, Function.comp_apply, Equiv.swap_apply_left, hsecond]
  · rw [Function.update_of_ne heqFirst, Function.comp_apply,
      Equiv.swap_apply_of_ne_of_ne heqFirst heqSecond]

/-! ### Runs -/

section Refinement

variable {cls : Class (Heap Node) Object Update Result} {rep : Rep Node Object Value}
  {Fits : Value → Prop} {initial : Value} {update : Update → Value → Result × Value}

/-- The objects are as many as the values and stand for them, and the results have been the same. -/
structure Related (rep : Rep Node Object Value) (state : State (Heap Node) Object Result)
    (abstract : State Unit Value Result) : Prop where
  length_eq : state.objects.length = abstract.objects.length
  results_eq : state.results = abstract.results
  owning : ∃ owned, Owning rep state.store (state.objects[·]?) (abstract.objects[·]?) owned

variable {state : State (Heap Node) Object Result} {abstract abstract' : State Unit Value Result}

theorem related_nil (rep : Rep Node Object Value) (heap : Heap Node) :
    Related rep ⟨[], heap, ([] : List Result)⟩ ⟨[], (), []⟩ :=
  ⟨rfl, rfl, fun _ ↦ ∅, fun _ ↦ Option.Rel.none, fun _ _ hmem ↦ absurd hmem (Set.notMem_empty _),
    fun _ _ _ ↦ Set.disjoint_empty _⟩

theorem Related.exists_object (h : Related rep state abstract) {number : ℕ} {value : Value}
    (hvalue : abstract.objects[number]? = some value) :
    ∃ object owned, state.objects[number]? = some object ∧ rep state.store object owned value := by
  obtain ⟨owned, howning⟩ := h.owning
  obtain ⟨object, hobject, hrep⟩ := howning.exists_object hvalue
  exact ⟨object, owned number, hobject, hrep⟩

/-- A new object. -/
theorem Related.append (h : Related rep state abstract)
    (himplements : Implements cls rep Fits initial update) {heap' : Heap Node} {object : Object}
    {owned' : Set ℕ} {value : Value} (hreplaces : Replaces rep state.store ∅ heap' object owned' value) :
    Related rep ⟨state.objects ++ [object], heap', state.results⟩
      ⟨abstract.objects ++ [value], (), abstract.results⟩ := by
  obtain ⟨owned, howning⟩ := h.owning
  refine ⟨by simp only [List.length_append, List.length_singleton, h.length_eq], h.results_eq,
    Function.update owned abstract.objects.length owned', ?_⟩
  have hreplaces' : Replaces rep state.store (owned abstract.objects.length) heap' object owned' value :=
    ⟨hreplaces.rep, hreplaces.subset.trans (Set.union_subset_union_left _ (Set.empty_subset _)),
      hreplaces.same.mono (Set.union_subset_union_left _ (Set.empty_subset _))⟩
  have hnext := howning.replace himplements.live himplements.frame abstract.objects.length hreplaces'
  rw [← getElem?_append_eq, ← h.length_eq, ← getElem?_append_eq, h.length_eq] at hnext
  exact hnext

/-- An object has another value. -/
theorem Related.set (h : Related rep state abstract)
    (himplements : Implements cls rep Fits initial update) {number : ℕ} {value : Value}
    (hvalue : abstract.objects[number]? = some value) :
    ∃ object owned, state.objects[number]? = some object ∧ rep state.store object owned value ∧
      ∀ {heap' : Heap Node} {object' : Object} {owned' : Set ℕ} {value' : Value} (results : List Result),
        Replaces rep state.store owned heap' object' owned' value' →
          Related rep ⟨state.objects.set number object', heap', state.results ++ results⟩
            ⟨abstract.objects.set number value', (), abstract.results ++ results⟩ := by
  obtain ⟨owned, howning⟩ := h.owning
  obtain ⟨object, hobject, hrep⟩ := howning.exists_object hvalue
  refine ⟨object, owned number, hobject, hrep, fun {heap' object' owned' value'} results hreplaces ↦ ?_⟩
  have hlt : number < abstract.objects.length := (List.getElem?_eq_some_iff.mp hvalue).1
  refine ⟨by rw [List.length_set, List.length_set, h.length_eq], by rw [h.results_eq],
    Function.update owned number owned', ?_⟩
  have hnext := howning.replace himplements.live himplements.frame number hreplaces
  rwa [← getElem?_set_eq hlt, ← getElem?_set_eq (h.length_eq ▸ hlt)] at hnext

/-- What can be done with the values can be done with the objects, with the same result. -/
theorem step_related (himplements : Implements cls rep Fits initial update)
    (h : Related rep state abstract) {action : Action Update}
    (hstep : step (values initial update) abstract action = some abstract')
    (hfits : ∀ value ∈ abstract'.objects, Fits value) :
    ∃ state', step cls state action = some state' ∧ Related rep state' abstract' := by
  cases action with
  | construct =>
    cases hstep
    refine ⟨_, rfl, h.append himplements ⟨himplements.construct _, Set.empty_subset _, .refl _ _⟩⟩
  | copyConstruct source =>
    obtain ⟨value, hvalue, hstep⟩ := Option.bind_eq_some_iff.mp hstep
    cases hstep
    obtain ⟨object, owned, hobject, hrep⟩ := h.exists_object hvalue
    obtain ⟨object', heap', owned', hcopy, hreplaces⟩ := himplements.copyConstruct hrep
    refine ⟨_, ?_, h.append himplements hreplaces⟩
    rw [step, hobject]
    simp only [Option.bind_eq_bind, Option.bind_some, hcopy]
    rfl
  | assign target source =>
    obtain ⟨value, hvalue, hstep⟩ := Option.bind_eq_some_iff.mp hstep
    obtain ⟨value', hvalue', hstep⟩ := Option.bind_eq_some_iff.mp hstep
    cases hstep
    obtain ⟨object, owned, hobject, hrep, hset⟩ := h.set himplements hvalue
    obtain ⟨object', owned', hobject', hrep'⟩ := h.exists_object hvalue'
    obtain ⟨object'', heap', owned'', hassign, hreplaces⟩ := himplements.assign hrep hrep'
    have hnext := hset [] hreplaces
    rw [List.append_nil, List.append_nil] at hnext
    refine ⟨_, ?_, hnext⟩
    rw [step, hobject, hobject']
    simp only [Option.bind_eq_bind, Option.bind_some, hassign]
    rfl
  | swap first second =>
    obtain ⟨value, hvalue, hstep⟩ := Option.bind_eq_some_iff.mp hstep
    obtain ⟨value', hvalue', hstep⟩ := Option.bind_eq_some_iff.mp hstep
    cases hstep
    obtain ⟨object, -, hobject, -⟩ := h.exists_object hvalue
    obtain ⟨object', -, hobject', -⟩ := h.exists_object hvalue'
    obtain ⟨owned, howning⟩ := h.owning
    refine ⟨{ state with objects := (state.objects.set first object').set second object }, ?_, ?_, h.2,
      owned ∘ Equiv.swap first second, ?_⟩
    · rw [step, hobject, hobject']
      simp only [Option.bind_eq_bind, Option.bind_some, himplements.swap]
      rfl
    · simp only [List.length_set, h.length_eq]
    · have hnext := howning.permute (Equiv.swap first second)
      rwa [← getElem?_swap_eq hobject hobject', ← getElem?_swap_eq hvalue hvalue'] at hnext
  | update target change =>
    obtain ⟨value, hvalue, hstep⟩ := Option.bind_eq_some_iff.mp hstep
    cases hstep
    obtain ⟨object, owned, hobject, hrep, hset⟩ := h.set himplements hvalue
    have hlt : target < abstract.objects.length := (List.getElem?_eq_some_iff.mp hvalue).1
    obtain ⟨object', heap', owned', hupdate, hreplaces⟩ :=
      himplements.update change hrep (hfits _ (List.mem_set hlt _))
    refine ⟨_, ?_, hset [(update change value).1] hreplaces⟩
    rw [step, hobject]
    simp only [Option.bind_eq_bind, Option.bind_some, hupdate]
    rfl

/-- The values fit after each action of a run. -/
def FitsThroughout (Fits : Value → Prop) (initial : Value) (update : Update → Value → Result × Value)
    (actions : List (Action Update)) : Prop :=
  ∀ done, done <+: actions → ∀ abstract, run (values initial update) () done = some abstract →
    ∀ value ∈ abstract.objects, Fits value

/-- What grows by one with an update at most is not more than the actions. -/
theorem size_le_length {size : Value → ℕ} (hinitial : size initial = 0)
    (hupdate : ∀ change value, size (update change value).2 ≤ size value + 1)
    {actions : List (Action Update)} (hrun : run (values initial update) () actions = some abstract) :
    ∀ value ∈ abstract.objects, size value ≤ actions.length := by
  induction actions using List.reverseRecOn generalizing abstract with
  | nil =>
    cases hrun
    nofun
  | append_singleton actions action ih =>
    rw [run_append] at hrun
    obtain ⟨before, hbefore, hstep⟩ := Option.bind_eq_some_iff.mp hrun
    have hold {value : Value} (hvalue : value ∈ before.objects) :
        size value ≤ (actions ++ [action]).length := by
      rw [List.length_append]
      exact (ih hbefore value hvalue).trans (Nat.le_add_right _ _)
    cases action with
    | construct =>
      cases hstep
      intro value hvalue
      rcases List.mem_append.mp hvalue with hvalue | hvalue
      · exact hold hvalue
      · rw [List.mem_singleton.mp hvalue]
        exact hinitial.le.trans (Nat.zero_le _)
    | copyConstruct source =>
      obtain ⟨original, horiginal, hstep⟩ := Option.bind_eq_some_iff.mp hstep
      cases hstep
      intro value hvalue
      rcases List.mem_append.mp hvalue with hvalue | hvalue
      · exact hold hvalue
      · rw [List.mem_singleton.mp hvalue]
        exact hold (List.mem_of_getElem? horiginal)
    | assign target source =>
      obtain ⟨original, -, hstep⟩ := Option.bind_eq_some_iff.mp hstep
      obtain ⟨assigned, hassigned, hstep⟩ := Option.bind_eq_some_iff.mp hstep
      cases hstep
      intro value hvalue
      rcases List.mem_or_eq_of_mem_set hvalue with hvalue | rfl
      · exact hold hvalue
      · exact hold (List.mem_of_getElem? hassigned)
    | swap first second =>
      obtain ⟨original, horiginal, hstep⟩ := Option.bind_eq_some_iff.mp hstep
      obtain ⟨exchanged, hexchanged, hstep⟩ := Option.bind_eq_some_iff.mp hstep
      cases hstep
      intro value hvalue
      rcases List.mem_or_eq_of_mem_set hvalue with hvalue | rfl
      · rcases List.mem_or_eq_of_mem_set hvalue with hvalue | rfl
        · exact hold hvalue
        · exact hold (List.mem_of_getElem? hexchanged)
      · exact hold (List.mem_of_getElem? horiginal)
    | update target change =>
      obtain ⟨original, horiginal, hstep⟩ := Option.bind_eq_some_iff.mp hstep
      cases hstep
      intro value hvalue
      rcases List.mem_or_eq_of_mem_set hvalue with hvalue | rfl
      · exact hold hvalue
      · refine (hupdate change original).trans ?_
        rw [List.length_append]
        exact Nat.succ_le_succ (ih hbefore original (List.mem_of_getElem? horiginal))

/-- A run with few actions keeps to the values that are no larger. -/
theorem fitsThroughout_of_length {size : Value → ℕ} {limit : ℕ} (hinitial : size initial = 0)
    (hupdate : ∀ change value, size (update change value).2 ≤ size value + 1)
    {actions : List (Action Update)} (hlength : actions.length < limit) :
    FitsThroughout (size · < limit) initial update actions :=
  fun _ hdone _ hrun value hvalue ↦
    ((size_le_length hinitial hupdate hrun value hvalue).trans hdone.length_le).trans_lt hlength

theorem run_related (himplements : Implements cls rep Fits initial update) (heap : Heap Node)
    {actions : List (Action Update)} (hfits : FitsThroughout Fits initial update actions)
    (hrun : run (values initial update) () actions = some abstract) :
    ∃ state, run cls heap actions = some state ∧ Related rep state abstract := by
  induction actions using List.reverseRecOn generalizing abstract with
  | nil =>
    cases hrun
    exact ⟨_, rfl, related_nil rep heap⟩
  | append_singleton actions action ih =>
    have hlast := hfits _ (List.prefix_refl _) abstract hrun
    rw [run_append] at hrun ⊢
    obtain ⟨before, hbefore, hstep⟩ := Option.bind_eq_some_iff.mp hrun
    obtain ⟨state, hstate, hrelated⟩ :=
      ih (fun done hdone ↦ hfits done (hdone.trans (List.prefix_append _ _))) hbefore
    obtain ⟨state', hstep', hrelated'⟩ := step_related himplements hrelated hstep hlast
    refine ⟨state', ?_, hrelated'⟩
    rw [hstate]
    exact hstep'

/-- A run shows what the run on values has: the same results, for each object its value, and with each
action a change in the objects alone that it is on. -/
structure BehavesAsValues (cls : Class (Heap Node) Object Update Result)
    (Shows : Heap Node → Object → Value → Prop) (initial : Value)
    (update : Update → Value → Result × Value) (heap : Heap Node) (actions : List (Action Update)) :
    Prop where
  shows : ∀ done, done <+: actions → ∀ abstract, run (values initial update) () done = some abstract →
    ∃ state, run cls heap done = some state ∧ state.results = abstract.results ∧
      state.objects.length = abstract.objects.length ∧
      ∀ (number : ℕ) (object : Object) (value : Value), state.objects[number]? = some object →
        abstract.objects[number]? = some value → Shows state.store object value
  others : ∀ done action, done ++ [action] <+: actions → ∀ abstract,
    run (values initial update) () (done ++ [action]) = some abstract →
    ∃ state state', run cls heap done = some state ∧ step cls state action = some state' ∧
      ∀ (number : ℕ) (object : Object), state.objects[number]? = some object →
        ¬ action.Changes number →
        state'.objects[number]? = some object ∧
          ∀ value, Shows state.store object value ↔ Shows state'.store object value

variable {Shows : Heap Node → Object → Value → Prop} {heap : Heap Node} {actions : List (Action Update)}

theorem Related.shows (h : Related rep state abstract)
    (hshows : ∀ {heap object owned value}, rep heap object owned value → Shows heap object value)
    {number : ℕ} {object : Object} {value : Value} (hobject : state.objects[number]? = some object)
    (hvalue : abstract.objects[number]? = some value) : Shows state.store object value := by
  obtain ⟨object', owned, hobject', hrep⟩ := h.exists_object hvalue
  obtain rfl : object = object' := Option.some.inj (hobject.symm.trans hobject')
  exact hshows hrep

/-- A class that implements the values behaves as them, as long as they fit. -/
theorem behavesAsValues_of_fits (himplements : Implements cls rep Fits initial update)
    (hshows : ∀ {heap object owned value}, rep heap object owned value → Shows heap object value)
    (hunique : ∀ {heap object value value'}, Shows heap object value → Shows heap object value' →
      value = value') (hfits : FitsThroughout Fits initial update actions) :
    BehavesAsValues cls Shows initial update heap actions := by
  have hrelated {done : List (Action Update)} (hdone : done <+: actions) {abstract : State Unit Value Result}
      (hrun : run (values initial update) () done = some abstract) :
      ∃ state, run cls heap done = some state ∧ Related rep state abstract :=
    run_related himplements heap (fun before hbefore ↦ hfits before (hbefore.trans hdone)) hrun
  constructor
  · intro done hdone abstract hrun
    obtain ⟨state, hstate, h⟩ := hrelated hdone hrun
    exact ⟨state, hstate, h.results_eq, h.length_eq, fun number object value ↦ h.shows hshows⟩
  · intro done action hdone abstract' hrun
    obtain ⟨state', hstate', h'⟩ := hrelated hdone hrun
    rw [run_append] at hrun hstate'
    obtain ⟨abstract, habstract, hstep⟩ := Option.bind_eq_some_iff.mp hrun
    obtain ⟨state, hstate, h⟩ := hrelated ((List.prefix_append _ _).trans hdone) habstract
    rw [hstate, Option.bind_some] at hstate'
    refine ⟨state, state', hstate, hstate', fun number object hobject hchanges ↦ ?_⟩
    have hobject' := getElem?_step hstate' hobject hchanges
    have hlt : number < abstract.objects.length :=
      h.length_eq ▸ (List.getElem?_eq_some_iff.mp hobject).1
    have hvalue : abstract.objects[number]? = some abstract.objects[number] := List.getElem?_eq_getElem hlt
    have hshown := h.shows hshows hobject hvalue
    have hshown' := h'.shows hshows hobject' (getElem?_step hstep hvalue hchanges)
    refine ⟨hobject', fun value ↦ ⟨fun hvalue' ↦ ?_, fun hvalue' ↦ ?_⟩⟩
    · exact hunique hshown hvalue' ▸ hshown'
    · exact hunique hshown' hvalue' ▸ hshown

/-- Where only what fits can be shown, no run behaves as one on other values. -/
theorem BehavesAsValues.fits (h : BehavesAsValues cls Shows initial update heap actions)
    (hfits : ∀ {heap object value}, Shows heap object value → Fits value) :
    FitsThroughout Fits initial update actions := by
  intro done hdone abstract hrun value hvalue
  obtain ⟨state, -, -, hlength, hshows⟩ := h.shows done hdone abstract hrun
  obtain ⟨number, hlt, rfl⟩ := List.mem_iff_getElem.mp hvalue
  obtain ⟨object, hobject⟩ : ∃ object, state.objects[number]? = some object :=
    ⟨_, List.getElem?_eq_getElem (hlength.symm ▸ hlt)⟩
  exact hfits (hshows number _ _ hobject (List.getElem?_eq_getElem hlt))

end Refinement

end CppLearn.Foundation.ValueObjects
