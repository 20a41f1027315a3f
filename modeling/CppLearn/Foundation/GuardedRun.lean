import Mathlib.Data.List.Induction
import Mathlib.Logic.Basic
import Mathlib.Tactic.Common

/-!
# Guarded runs of partial step functions

A concurrent program is modelled by one partial step function: an event names who moves and what
the environment answers, and the step is undefined where that move is not enabled. A run is a
chain of enabled steps whose events all meet a guard. The guard is how an assumption on the
environment, or a condition under which a program is correct, enters a statement: the trivial
guard gives the reachable states.

`Run.invariant` is the induction rule for a predicate preserved by every permitted step, and
`Run.invariant_of` the same rule with an invariant already established. `run_of_execute` turns the
evaluation of a list of events into a run, which is how a concrete run is exhibited. `run_iff` is the
rule for a guard that is exact: where a step keeps a property exactly if the guard permits it, the
states with the property are those reached under the guard; `along_iff` compares two conditions on
the events of one run, `along_keeps_iff` is the same rule for the states along it, and
`related_iff_along` the one for a preorder between the states of a run; and `iff_metAlong` is the rule
for a property that the steps which meet a condition bring about for good.
`exists_run_of_measure` is the progress rule: where every state that has not reached a goal has a
step that lowers a measure, the goal is reached. `length_le_of_measure` bounds the runs whose steps all
lower a measure.
-/

set_option autoImplicit false
set_option relaxedAutoImplicit false

namespace CppLearn.Foundation.GuardedRun

variable {State Event : Type*}

/-- The states reached from `start` by steps that are enabled and whose events meet the guard. -/
inductive Run (step : State → Event → Option State) (allowed : State → Event → Prop)
    (start : State) : State → Prop
  | refl : Run step allowed start start
  | tail {middle finish : State} (event : Event) (run : Run step allowed start middle)
      (permitted : allowed middle event) (taken : step middle event = some finish) :
      Run step allowed start finish

/-- The guard that permits every event. -/
def anyEvent (_ : State) (_ : Event) : Prop := True

instance (state : State) (event : Event) : Decidable (anyEvent state event) :=
  inferInstanceAs (Decidable True)

/-- The states reached from `start` by enabled steps. -/
abbrev Reachable (step : State → Event → Option State) (start : State) : State → Prop :=
  Run step anyEvent start

variable {step : State → Event → Option State} {allowed : State → Event → Prop}

/-- Assumes: a predicate that holds at the start and that every permitted step preserves. It holds
in every state of every run. -/
theorem Run.invariant {start finish : State} {property : State → Prop}
    (run : Run step allowed start finish) (hstart : property start)
    (hstep : ∀ state event next, property state → allowed state event →
      step state event = some next → property next) : property finish := by
  induction run with
  | refl => exact hstart
  | tail event _ permitted taken ih => exact hstep _ event _ ih permitted taken

/-- The invariant rule with an invariant already established: a permitted step only has to
preserve the predicate in states where that invariant holds. -/
theorem Run.invariant_of {start finish : State} {known property : State → Prop}
    (run : Run step allowed start finish)
    (hknown : ∀ state, Run step allowed start state → known state) (hstart : property start)
    (hstep : ∀ state event next, known state → property state → allowed state event →
      step state event = some next → property next) : property finish := by
  induction run with
  | refl => exact hstart
  | tail event run permitted taken ih => exact hstep _ event _ (hknown _ run) ih permitted taken

/-- Runs compose. -/
theorem Run.trans {start middle finish : State} (first : Run step allowed start middle)
    (second : Run step allowed middle finish) : Run step allowed start finish := by
  induction second with
  | refl => exact first
  | tail event _ permitted taken ih => exact .tail event ih permitted taken

/-- A run under a guard is a run under every weaker guard. -/
theorem Run.mono {weaker : State → Event → Prop} {start finish : State}
    (run : Run step allowed start finish)
    (hweaker : ∀ state event, allowed state event → weaker state event) :
    Run step weaker start finish := by
  induction run with
  | refl => exact .refl
  | tail event _ permitted taken ih => exact .tail event ih (hweaker _ _ permitted) taken

/-- Assumes: a property that a step keeps or brings about exactly if it held before and the guard
permits the event. A reachable state has it exactly if it is reached under the guard. -/
theorem run_iff {start finish : State} {known property : State → Prop}
    (hknown : ∀ state, Reachable step start state → known state) (hstart : property start)
    (hstep : ∀ state event next, known state → step state event = some next →
      (property next ↔ property state ∧ allowed state event))
    (run : Reachable step start finish) : property finish ↔ Run step allowed start finish := by
  induction run with
  | refl => exact ⟨fun _ ↦ .refl, fun _ ↦ hstart⟩
  | tail event run _ taken ih =>
    have hiff := hstep _ event _ (hknown _ run) taken
    constructor
    · intro hproperty
      obtain ⟨hbefore, hallowed⟩ := hiff.mp hproperty
      exact .tail event (ih.mp hbefore) hallowed taken
    · intro hguarded
      have hknown' : ∀ state, Run step allowed start state → known state :=
        fun state hrun ↦ hknown state (hrun.mono fun _ _ _ ↦ trivial)
      exact hguarded.invariant_of hknown' hstart
        fun state event next hstate hproperty hallowed htaken ↦
          (hstep state event next hstate htaken).mpr ⟨hproperty, hallowed⟩

/-- Takes the listed events in order, checking the guard before each. -/
def execute (step : State → Event → Option State) (allowed : State → Event → Prop)
    [∀ state event, Decidable (allowed state event)] : State → List Event → Option State
  | state, [] => some state
  | state, event :: events =>
    if allowed state event then
      match step state event with
      | some next => execute step allowed next events
      | none => none
    else none

/-- The first of the listed events, and the rest of them. -/
theorem execute_cons [∀ state event, Decidable (allowed state event)] {start finish : State}
    {event : Event} {events : List Event}
    (hexecute : execute step allowed start (event :: events) = some finish) :
    ∃ next, allowed start event ∧ step start event = some next ∧
      execute step allowed next events = some finish := by
  simp only [execute] at hexecute
  split_ifs at hexecute with hallowed
  split at hexecute
  · next next htaken => exact ⟨next, hallowed, htaken, hexecute⟩
  · cases hexecute

/-- A list of events that evaluates to a state is a run to that state. -/
theorem run_of_execute [∀ state event, Decidable (allowed state event)]
    {start finish : State} {events : List Event}
    (hexecute : execute step allowed start events = some finish) :
    Run step allowed start finish := by
  induction events generalizing start with
  | nil =>
    cases hexecute
    exact .refl
  | cons event events ih =>
    obtain ⟨next, hallowed, htaken, hrest⟩ := execute_cons hexecute
    exact (Run.tail event .refl hallowed htaken).trans (ih hrest)

/-- Assumes: a guard that every listed event meets in every state. -/
theorem run_of_execute_of_forall {start finish : State} {events : List Event}
    (hallowed : ∀ event ∈ events, ∀ state, allowed state event)
    (hexecute : execute step anyEvent start events = some finish) :
    Run step allowed start finish := by
  induction events generalizing start with
  | nil =>
    cases hexecute
    exact .refl
  | cons event events ih =>
    obtain ⟨next, -, htaken, hrest⟩ := execute_cons hexecute
    obtain ⟨hfirst, hlater⟩ := List.forall_mem_cons.mp hallowed
    exact (Run.tail event .refl (hfirst start) htaken).trans (ih hlater hrest)

/-- Every listed event meets a condition in the state in which it is taken. -/
def Along (step : State → Event → Option State) (holds : State → Event → Prop) :
    State → List Event → Prop
  | _, [] => True
  | state, event :: events =>
    holds state event ∧ ∀ next, step state event = some next → Along step holds next events

/-- The event leads to states with a property. -/
def Keeps (step : State → Event → Option State) (property : State → Prop) (state : State)
    (event : Event) : Prop :=
  ∀ next, step state event = some next → property next

/-- A step that is taken has one next state. -/
theorem keeps_iff {property : State → Prop} {state next : State} {event : Event}
    (htaken : step state event = some next) : Keeps step property state event ↔ property next := by
  refine ⟨fun hkeeps ↦ hkeeps next htaken, fun hnext other hother ↦ ?_⟩
  obtain rfl := Option.some.inj (htaken.symm.trans hother)
  exact hnext

theorem along_cons_iff {holds : State → Event → Prop} {state next : State} {event : Event}
    {events : List Event} (htaken : step state event = some next) :
    Along step holds state (event :: events) ↔ holds state event ∧ Along step holds next events :=
  and_congr_right fun _ ↦ keeps_iff htaken

/-- Assumes: two conditions that are the same where an invariant holds, and the second of which keeps
the invariant. Along a run that is executed whole one is met exactly if the other is, and then the
invariant holds at its end. -/
theorem along_iff {known : State → Prop} {first second : State → Event → Prop}
    (hiff : ∀ state event next, known state → step state event = some next →
      (first state event ↔ second state event))
    (hknown : ∀ state event next, known state → second state event →
      step state event = some next → known next)
    {start finish : State} (hstart : known start) {events : List Event}
    (hexecute : execute step anyEvent start events = some finish) :
    (Along step first start events ↔ Along step second start events) ∧
      (Along step second start events → known finish) := by
  induction events generalizing start with
  | nil =>
    cases hexecute
    exact ⟨Iff.rfl, fun _ ↦ hstart⟩
  | cons event events ih =>
    obtain ⟨next, -, htaken, hrest⟩ := execute_cons hexecute
    have hlater (hsecond : second start event) :=
      ih (hknown start event next hstart hsecond htaken) hrest
    rw [along_cons_iff htaken, along_cons_iff htaken, hiff start event next hstart htaken]
    constructor
    · exact and_congr_right fun hsecond ↦ (hlater hsecond).1
    · rintro ⟨hsecond, halong⟩
      exact (hlater hsecond).2 halong

/-- A run that is executed under a guard meets it along the way. -/
theorem along_of_execute [∀ state event, Decidable (allowed state event)] {start finish : State}
    {events : List Event} (hexecute : execute step allowed start events = some finish) :
    Along step allowed start events := by
  induction events generalizing start with
  | nil => trivial
  | cons event events ih =>
    obtain ⟨next, hallowed, htaken, hrest⟩ := execute_cons hexecute
    exact (along_cons_iff htaken).mpr ⟨hallowed, ih hrest⟩

/-- What holds between any two states that a run comes to, the later one after the first. -/
def RelatedAlong (step : State → Event → Option State) (related : State → State → Prop)
    (start : State) (events : List Event) : Prop :=
  ∀ front middle back first later, events = front ++ middle ++ back →
    execute step anyEvent start front = some first →
    execute step anyEvent first middle = some later → related first later

/-- Assumes: a preorder. It holds between any two states of a run that is executed whole exactly if it
holds over each of its steps. -/
theorem related_iff_along {related : State → State → Prop} (hrefl : ∀ state, related state state)
    (htrans : ∀ first second third, related first second → related second third →
      related first third)
    {start finish : State} {events : List Event}
    (hexecute : execute step anyEvent start events = some finish) :
    RelatedAlong step related start events ↔
      Along step (fun state ↦ Keeps step (related state) state) start events := by
  induction events generalizing start with
  | nil =>
    refine iff_of_true ?_ trivial
    intro front middle back first later hsplit hfirst hlater
    obtain ⟨hfront, -⟩ := List.append_eq_nil_iff.mp hsplit.symm
    obtain ⟨rfl, rfl⟩ := List.append_eq_nil_iff.mp hfront
    cases hfirst
    cases hlater
    exact hrefl _
  | cons event events ih =>
    obtain ⟨next, -, htaken, hrest⟩ := execute_cons hexecute
    have hstep : ∀ rest, execute step anyEvent start (event :: rest) =
        execute step anyEvent next rest := by
      intro rest
      simp only [execute, anyEvent, if_true, htaken]
    rw [along_cons_iff htaken, keeps_iff htaken, ← ih hrest]
    constructor
    · intro hrelated
      refine ⟨hrelated [] [event] events start next rfl rfl (hstep []), ?_⟩
      intro front middle back first later hsplit hfirst
      exact hrelated (event :: front) middle back first later (congrArg (event :: ·) hsplit)
        ((hstep front).trans hfirst)
    · rintro ⟨hfirstStep, hlaterSteps⟩ front middle back first later hsplit hfirst hlater
      cases front with
      | nil =>
        cases hfirst
        cases middle with
        | nil =>
          cases hlater
          exact hrefl _
        | cons taken middle =>
          obtain ⟨rfl, htail⟩ := List.cons_eq_cons.mp hsplit
          exact htrans start next later hfirstStep
            (hlaterSteps [] middle back next later htail rfl ((hstep middle).symm.trans hlater))
      | cons taken front =>
        obtain ⟨rfl, htail⟩ := List.cons_eq_cons.mp hsplit
        exact hlaterSteps front middle back first later htail ((hstep front).symm.trans hfirst)
          hlater

/-- One of the listed events meets a condition in the state in which it is taken. -/
def MetAlong (step : State → Event → Option State) (holds : State → Event → Prop) :
    State → List Event → Prop
  | _, [] => False
  | state, event :: events =>
    holds state event ∨ ∃ next, step state event = some next ∧ MetAlong step holds next events

/-- The last of the listed events, and those before it. -/
theorem execute_concat {start finish : State} {event : Event} {events : List Event}
    (hexecute : execute step anyEvent start (events ++ [event]) = some finish) :
    ∃ last, execute step anyEvent start events = some last ∧ step last event = some finish := by
  induction events generalizing start with
  | nil =>
    obtain ⟨next, -, htaken, hrest⟩ := execute_cons hexecute
    cases hrest
    exact ⟨start, rfl, htaken⟩
  | cons first events ih =>
    obtain ⟨next, -, htaken, hrest⟩ := execute_cons hexecute
    obtain ⟨last, hlast, hfinish⟩ := ih hrest
    refine ⟨last, ?_, hfinish⟩
    simp only [execute, anyEvent, if_true, htaken]
    exact hlast

theorem metAlong_concat_iff {holds : State → Event → Prop} {start last : State} {event : Event}
    {events : List Event} (hexecute : execute step anyEvent start events = some last) :
    MetAlong step holds start (events ++ [event]) ↔
      MetAlong step holds start events ∨ holds last event := by
  induction events generalizing start with
  | nil =>
    cases hexecute
    simp only [List.nil_append, MetAlong, and_false, exists_false, or_false, false_or]
  | cons first events ih =>
    obtain ⟨next, -, htaken, hrest⟩ := execute_cons hexecute
    simp only [List.cons_append, MetAlong, htaken, Option.some.injEq, exists_eq_left', ih hrest,
      or_assoc]

/-- Assumes: a property that a step keeps, and brings about exactly if its event meets a condition, as
long as what matters at the end of the step is so at its start. At the end of a run that is executed
whole the property holds exactly if one of the events has met the condition. -/
theorem iff_metAlong {start finish : State} {known matters property : State → Prop}
    {holds : State → Event → Prop}
    (hknown : ∀ state, Reachable step start state → known state) (hstart : ¬ property start)
    (hstep : ∀ state event next, known state → step state event = some next → matters next →
      matters state ∧ (property next ↔ property state ∨ holds state event))
    {events : List Event} (hexecute : execute step anyEvent start events = some finish)
    (hmatters : matters finish) : property finish ↔ MetAlong step holds start events := by
  induction events using List.reverseRecOn generalizing finish with
  | nil =>
    cases hexecute
    exact iff_of_false hstart id
  | append_singleton events event ih =>
    obtain ⟨last, hlast, htaken⟩ := execute_concat hexecute
    obtain ⟨hbefore, hiff⟩ :=
      hstep last event finish (hknown last (run_of_execute hlast)) htaken hmatters
    rw [hiff, ih hlast hbefore, metAlong_concat_iff hlast]

/-- A condition on the events alone, along a run that is executed whole. -/
theorem along_iff_forall {holds : Event → Prop} {start finish : State} {events : List Event}
    (hexecute : execute step anyEvent start events = some finish) :
    Along step (fun _ event ↦ holds event) start events ↔ ∀ event ∈ events, holds event := by
  induction events generalizing start with
  | nil => exact ⟨fun _ _ hevent ↦ (List.not_mem_nil hevent).elim, fun _ ↦ trivial⟩
  | cons event events ih =>
    obtain ⟨next, -, htaken, hrest⟩ := execute_cons hexecute
    rw [along_cons_iff htaken, List.forall_mem_cons, ih hrest]

/-- Assumes: a property that a step keeps exactly if its event meets a condition. It holds in all
states of a run exactly if all events meet the condition. -/
theorem along_keeps_iff {property : State → Prop} {holds : Event → Prop}
    (hstep : ∀ state event next, property state → step state event = some next →
      (property next ↔ holds event))
    {start finish : State} (hstart : property start) {events : List Event}
    (hexecute : execute step anyEvent start events = some finish) :
    Along step (Keeps step property) start events ↔ ∀ event ∈ events, holds event := by
  have hiff : ∀ state event next, property state → step state event = some next →
      (Keeps step property state event ↔ holds event) :=
    fun state event next hproperty htaken ↦
      (keeps_iff htaken).trans (hstep state event next hproperty htaken)
  rw [← along_iff_forall hexecute]
  exact (along_iff hiff (fun state event next hproperty hholds htaken ↦
    (hstep state event next hproperty htaken).mpr hholds) hstart hexecute).1

/-- Assumes: a predicate that every step preserves, and in every state with the predicate that has
not reached the goal a step lowering the measure. The goal is reached. -/
theorem exists_run_of_measure {known goal : State → Prop} (measure : State → ℕ)
    (hpreserved : ∀ state event next, known state → step state event = some next → known next)
    (hprogress : ∀ state, known state → ¬ goal state →
      ∃ event next, step state event = some next ∧ measure next < measure state)
    (start : State) (hstart : known start) :
    ∃ finish, Reachable step start finish ∧ goal finish := by
  induction hsize : measure start using Nat.strongRecOn generalizing start with
  | _ size ih =>
    by_cases hgoal : goal start
    · exact ⟨start, .refl, hgoal⟩
    · obtain ⟨event, next, htaken, hlower⟩ := hprogress start hstart hgoal
      obtain ⟨finish, hrun, hfinish⟩ := ih (measure next) (hsize ▸ hlower) next
        (hpreserved start event next hstart htaken) rfl
      exact ⟨finish, (Run.tail event .refl trivial htaken).trans hrun, hfinish⟩

/-- Assumes: a predicate that every step preserves, and in states with the predicate a measure that
every permitted step lowers. A run has no more steps than the measure at its start. -/
theorem length_le_of_measure [∀ state event, Decidable (allowed state event)] {known : State → Prop}
    (measure : State → ℕ)
    (hpreserved : ∀ state event next, known state → step state event = some next → known next)
    (hlower : ∀ state event next, known state → allowed state event →
      step state event = some next → measure next < measure state)
    {start finish : State} (hstart : known start) {events : List Event}
    (hexecute : execute step allowed start events = some finish) : events.length ≤ measure start := by
  induction events generalizing start with
  | nil => exact Nat.zero_le _
  | cons event events ih =>
    obtain ⟨next, hallowed, htaken, hrest⟩ := execute_cons hexecute
    have hnext := ih (hpreserved start event next hstart htaken) hrest
    have hlt := hlower start event next hstart hallowed htaken
    rw [List.length_cons]
    omega

end CppLearn.Foundation.GuardedRun
