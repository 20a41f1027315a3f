import Mathlib.Tactic.Common

/-!
# Descriptors that give their bytes in pieces

A descriptor has a stream of elements, and how much of it a call of `read` gives is not up to the
caller: the call may be interrupted, fail, or give any number of elements from one to the size asked
for. A list of choices says what the next calls do; after it every call gives what it can.
`reads_readAgain` is all that a caller can rely on.
-/

set_option autoImplicit false
set_option relaxedAutoImplicit false

namespace CppLearn.Foundation.ByteSource

/-- What a call of `read` does: it is interrupted, it fails, or it gives one element and up to so many
more. -/
inductive Choice
  | eintr
  | error
  | upTo (more : ℕ)
  deriving DecidableEq

/-- The elements still to come, and what the next calls do. -/
structure Source (α : Type*) where
  stream : List α
  choices : List Choice

variable {α : Type*}

/-- `read`, called again as long as it is interrupted: the elements it gives, or none for an error. -/
def readFrom (size : ℕ) : List Choice → List α → Option (List α) × Source α
  | [], stream => (some (stream.take size), ⟨stream.drop size, []⟩)
  | .eintr :: choices, stream => readFrom size choices stream
  | .error :: choices, stream => (none, ⟨stream, choices⟩)
  | .upTo more :: choices, stream =>
    (some (stream.take (min (more + 1) size)), ⟨stream.drop (min (more + 1) size), choices⟩)

@[inherit_doc readFrom] def Source.readAgain (s : Source α) (size : ℕ) :
    Option (List α) × Source α := readFrom size s.choices s.stream

/-- No call fails. -/
def Source.Sound (s : Source α) : Prop := Choice.error ∉ s.choices

/-- What a caller knows of a result: an error leaves the elements where they are, and elements are the
next ones, of which there are none only at the end. -/
inductive Reads (size : ℕ) (s : Source α) : Option (List α) × Source α → Prop
  | fails (rest : Source α) (hstream : rest.stream = s.stream) (hunsound : ¬ s.Sound) :
      Reads size s (none, rest)
  | gives (data : List α) (rest : Source α) (hstream : data ++ rest.stream = s.stream)
      (hend : data = [] → s.stream = []) (hle : data.length ≤ size) (hsound : s.Sound → rest.Sound) :
      Reads size s (some data, rest)

theorem eq_nil_of_take {count : ℕ} (hpos : 0 < count) {stream : List α}
    (htake : stream.take count = []) : stream = [] := by
  rcases List.take_eq_nil_iff.mp htake with hzero | hnil
  · omega
  · exact hnil

theorem reads_readFrom {size : ℕ} (hsize : 0 < size) (choices : List Choice) (stream : List α) :
    Reads size ⟨stream, choices⟩ (readFrom size choices stream) := by
  induction choices with
  | nil =>
    exact .gives _ _ (List.take_append_drop ..) (eq_nil_of_take hsize) (List.length_take_le ..)
      fun hsound ↦ hsound
  | cons choice choices ih =>
    have hsound : (⟨stream, choice :: choices⟩ : Source α).Sound → Choice.error ∉ choices :=
      fun hsound hmem ↦ hsound (List.mem_cons_of_mem _ hmem)
    cases choice with
    | eintr =>
      rw [readFrom]
      generalize readFrom size choices stream = result at ih ⊢
      cases ih with
      | fails rest hstream hunsound =>
        exact .fails rest hstream fun hall ↦ hunsound (hsound hall)
      | gives data rest hstream hend hle hrest =>
        exact .gives data rest hstream hend hle fun hall ↦ hrest (hsound hall)
    | error => exact .fails _ rfl fun hall ↦ hall (List.mem_cons_self ..)
    | upTo more =>
      refine .gives _ _ (List.take_append_drop ..) (eq_nil_of_take (by omega)) ?_ hsound
      exact Nat.le_trans (List.length_take_le ..) (Nat.min_le_right ..)

/-- All that a caller can rely on. -/
theorem reads_readAgain {size : ℕ} (hsize : 0 < size) (s : Source α) :
    Reads size s (s.readAgain size) :=
  reads_readFrom hsize s.choices s.stream

end CppLearn.Foundation.ByteSource
