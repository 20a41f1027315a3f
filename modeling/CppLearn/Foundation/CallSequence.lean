import Mathlib.Data.List.Basic

/-!
# Sequences of calls

An object that is used by one thread is known by its answers: to every sequence of calls it gives a
sequence of results. Two objects whose states stay related, with the same result to each call, give
the same answers (`answers_eq_of_related`). The bounded queue is the object that buffers between two
threads are to be compared with.
-/

set_option autoImplicit false
set_option relaxedAutoImplicit false

namespace CppLearn.Foundation.CallSequence

variable {State Spec Call Result Object : Type*}

/-- The results of some calls, one after the other. -/
def answers (call : State → Call → Result × State) : State → List Call → List Result
  | _, [] => []
  | state, first :: calls => (call state first).1 :: answers call (call state first).2 calls

/-- Assumes: a relation between the states of two objects that every call keeps, with the same result
from both. -/
theorem answers_eq_of_related {call : State → Call → Result × State}
    {specCall : Spec → Call → Result × Spec} {related : State → Spec → Prop}
    (hcall : ∀ state spec, related state spec → ∀ input,
      (call state input).1 = (specCall spec input).1 ∧
        related (call state input).2 (specCall spec input).2)
    {state : State} {spec : Spec} (hrelated : related state spec) (calls : List Call) :
    answers call state calls = answers specCall spec calls := by
  induction calls generalizing state spec with
  | nil => rfl
  | cons first calls ih =>
    obtain ⟨hresult, hnext⟩ := hcall state spec hrelated first
    rw [answers, answers, hresult, ih hnext]

/-! ### The bounded queue -/

/-- A call on a queue. -/
inductive QueueCall (Object : Type*)
  | enqueue (obj : Object)
  | dequeue

/-- Its result: whether the object has been taken in, or the object given out. -/
inductive QueueResult (Object : Type*)
  | enqueued (accepted : Bool)
  | dequeued (found : Option Object)
  deriving DecidableEq

/-- A queue of a fixed capacity, by the objects it holds, oldest first. -/
def queueCall (capacity : ℕ) (held : List Object) :
    QueueCall Object → QueueResult Object × List Object
  | .enqueue obj =>
    if held.length = capacity then (.enqueued false, held) else (.enqueued true, held ++ [obj])
  | .dequeue => (.dequeued held.head?, held.tail)

end CppLearn.Foundation.CallSequence
