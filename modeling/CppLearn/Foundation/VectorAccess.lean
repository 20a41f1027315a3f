import Mathlib.Algebra.Order.Ring.Nat
import Mathlib.Data.List.Basic
import Mathlib.Data.List.Perm.Basic
import Mathlib.Tactic.Common

/-!
# Access to the elements of a vector

Code reads and writes a vector at indices that it computes in unsigned words. What it computes
wraps, and an index past the last element stops the run with a fault. Loops and recursions whose end
the code does not show have a limit on their rounds, past which the run is stopped as well; a result
that is returned for every limit from some bound on is one that the code returns (`Returns`).

A range of a vector is a list between two others. The lemmas say what an access does there, so that
the loops over a range need no arithmetic on indices but that of lengths.
-/

set_option autoImplicit false
set_option relaxedAutoImplicit false

namespace CppLearn.Foundation.VectorAccess

universe u

variable {α β : Type u}

/-- What stops a run. -/
inductive Fault where
  | outOfRange (indx : ℕ)
  | outOfFuel
  deriving DecidableEq

/-- From some limit on, this is returned. -/
def Returns (run : ℕ → Except Fault β) (result : β) : Prop :=
  ∃ bound, ∀ fuel, bound ≤ fuel → run fuel = .ok result

/-- The elements of a vector, of which there are fewer than a signed word can count. -/
abbrev Elements (α : Type u) := {nums : List α // nums.length < 2 ^ 63}

@[simp] theorem ok_bind (value : α) (next : α → Except Fault β) :
    (Except.ok value >>= next) = next value := (rfl)

@[simp] theorem error_bind (fault : Fault) (next : α → Except Fault β) :
    (Except.error fault >>= next) = .error fault := (rfl)

theorem bind_eq_ok_iff {run : Except Fault α} {next : α → Except Fault β} {result : β} :
    (run >>= next) = .ok result ↔ ∃ value, run = .ok value ∧ next value = .ok result := by
  cases run with
  | error fault =>
    simp only [error_bind, reduceCtorEq, false_and, exists_false]
  | ok value =>
    simp only [ok_bind, Except.ok.injEq, exists_eq_left']

/-! ### Limits -/

/-- A run that this limit has not stopped is the same with one round more. -/
def SettlesAt (run : ℕ → Except Fault β) (fuel : ℕ) : Prop :=
  run fuel ≠ .error .outOfFuel → run (fuel + 1) = run fuel

theorem SettlesAt.bind {run : ℕ → Except Fault α} {next : α → ℕ → Except Fault β} {fuel : ℕ}
    (hrun : SettlesAt run fuel) (hnext : ∀ value, SettlesAt (next value) fuel) :
    SettlesAt (fun fuel ↦ run fuel >>= fun value ↦ next value fuel) fuel := by
  intro hfuel
  cases hvalue : run fuel with
  | error fault =>
    simp only [hvalue, error_bind] at hfuel
    have hmore := hrun <| by
      rw [hvalue]
      rintro ⟨⟩
      exact hfuel rfl
    simp only [hmore, hvalue, error_bind]
  | ok value =>
    simp only [hvalue, ok_bind] at hfuel
    have hmore := hrun (by rw [hvalue]; exact nofun)
    simp only [hmore, hvalue, ok_bind, hnext value hfuel]

theorem settlesAt_const (result : Except Fault β) (fuel : ℕ) : SettlesAt (fun _ ↦ result) fuel :=
  fun _ ↦ rfl

theorem eq_of_settles {run : ℕ → Except Fault β} (hsettles : ∀ fuel, SettlesAt run fuel)
    {fuel more : ℕ} (hfuel : run fuel ≠ .error .outOfFuel) (hle : fuel ≤ more) :
    run more = run fuel := by
  induction more, hle using Nat.le_induction with
  | base => rfl
  | succ more _ ih => rw [hsettles more (ih ▸ hfuel), ih]

/-- What is returned with one limit is returned with all larger ones. -/
theorem returns_of_settles {run : ℕ → Except Fault β} (hsettles : ∀ fuel, SettlesAt run fuel)
    {fuel : ℕ} {result : β} (hresult : run fuel = .ok result) : Returns run result := by
  refine ⟨fuel, fun more hle ↦ ?_⟩
  rw [eq_of_settles hsettles (by rw [hresult]; exact nofun) hle, hresult]

theorem Returns.unique {run : ℕ → Except Fault β} {result result' : β} (h : Returns run result)
    (h' : Returns run result') : result = result' := by
  obtain ⟨bound, hbound⟩ := h
  obtain ⟨bound', hbound'⟩ := h'
  exact Except.ok.inj ((hbound _ (le_max_left bound bound')).symm.trans
    (hbound' _ (le_max_right bound bound')))

/-- What returns has no fault with any limit. -/
theorem ne_outOfRange_of_returns {run : ℕ → Except Fault β} (hsettles : ∀ fuel, SettlesAt run fuel)
    {result : β} (hreturns : Returns run result) (fuel indx : ℕ) :
    run fuel ≠ .error (.outOfRange indx) := by
  intro hfault
  obtain ⟨bound, hbound⟩ := hreturns
  have hmore := eq_of_settles hsettles (by rw [hfault]; exact nofun) (le_max_left fuel bound)
  rw [hfault, hbound _ (le_max_right ..)] at hmore
  cases hmore

/-! ### Unsigned words -/

/-- A number in a word of 64 bits. -/
def wrap (number : ℕ) : ℕ := number % 2 ^ 64

/-- The difference of two words. -/
def wrapSub (first second : ℕ) : ℕ := wrap (first + 2 ^ 64 - second)

/-- A value of an `int`, whose overflow is undefined. -/
def toInt (number : ℕ) : Option ℕ := if number < 2 ^ 31 then some number else none

theorem toInt_of_lt {number : ℕ} (hlt : number < 2 ^ 31) : toInt number = some number := if_pos hlt

theorem toInt_of_le {number : ℕ} (hle : 2 ^ 31 ≤ number) : toInt number = none := if_neg hle.not_gt

theorem toInt_eq_some_iff {number value : ℕ} :
    toInt number = some value ↔ number = value ∧ number < 2 ^ 31 := by
  unfold toInt
  split
  next hlt => rw [Option.some_inj, and_iff_left hlt]
  next hge => exact iff_of_false nofun fun h ↦ hge h.2

theorem wrap_of_lt {number : ℕ} (hlt : number < 2 ^ 64) : wrap number = number :=
  Nat.mod_eq_of_lt hlt

theorem wrapSub_of_le {first second : ℕ} (hle : second ≤ first) (hlt : first < 2 ^ 64) :
    wrapSub first second = first - second := by
  have hsum : first + 2 ^ 64 - second = first - second + 2 ^ 64 := by omega
  rw [wrapSub, wrap, hsum, Nat.add_mod_right]
  exact Nat.mod_eq_of_lt (by omega)

/-- What is computed in an `int`, of either sign. -/
def intOf (number : ℤ) : Option ℤ :=
  if -2 ^ 31 ≤ number ∧ number < 2 ^ 31 then some number else none

theorem intOf_of_fits {number : ℤ} (hge : -2 ^ 31 ≤ number) (hlt : number < 2 ^ 31) :
    intOf number = some number := if_pos ⟨hge, hlt⟩

theorem intOf_eq_some_iff {number value : ℤ} :
    intOf number = some value ↔ number = value ∧ -2 ^ 31 ≤ number ∧ number < 2 ^ 31 := by
  unfold intOf
  split
  next hfits => rw [Option.some_inj, and_iff_left hfits]
  next hfits => exact iff_of_false nofun fun h ↦ hfits h.2

/-- An `int`, converted to an index. -/
def intToSize (number : ℤ) : ℕ := (number % 2 ^ 64).toNat

theorem intToSize_of_nonneg {number : ℤ} (hnonneg : 0 ≤ number) (hlt : number < 2 ^ 31) :
    intToSize number = number.toNat := by
  rw [intToSize, Int.emod_eq_of_lt hnonneg (by omega)]

theorem le_intToSize_of_neg {number : ℤ} (hge : -2 ^ 31 ≤ number) (hneg : number < 0) :
    2 ^ 63 ≤ intToSize number := by
  rw [intToSize, ← Int.add_emod_right, Int.emod_eq_of_lt (by omega) (by omega)]
  omega

/-- What is computed modulo `2 ^ 32` and converted to an `int`. -/
def wrapInt (number : ℤ) : ℤ := number.bmod (2 ^ 32)

theorem wrapInt_of_fits {number : ℤ} (hge : -2 ^ 31 ≤ number) (hlt : number < 2 ^ 31) :
    wrapInt number = number :=
  Int.bmod_eq_of_le (by omega) (by omega)

/-- A number of elements, converted to an `int`. -/
def sizeToInt (size : ℕ) : ℤ := wrapInt size

theorem sizeToInt_le (size : ℕ) : sizeToInt size ≤ size := by
  have hle (size : ℤ) (hnonneg : 0 ≤ size) : size.bmod (2 ^ 32) ≤ size := by
    rw [Int.bmod_def]
    split <;> omega
  exact hle size (Int.natCast_nonneg size)

theorem sizeToInt_of_lt {size : ℕ} (hlt : size < 2 ^ 31) : sizeToInt size = size :=
  wrapInt_of_fits (by omega) (by omega)

/-- The size of two to the power of 31 elements is taken for the least `int`. -/
theorem sizeToInt_two_pow : sizeToInt (2 ^ 31) = -2 ^ 31 := rfl

/-! ### Accesses -/

/-- `nums[indx]`, read. -/
def load (nums : List α) (indx : ℕ) : Except Fault α :=
  match nums[indx]? with
  | some num => .ok num
  | none => .error (.outOfRange indx)

/-- `nums[indx] = num`. -/
def store (nums : List α) (indx : ℕ) (num : α) : Except Fault (List α) :=
  if indx < nums.length then .ok (nums.set indx num) else .error (.outOfRange indx)

/-- `std::swap(nums[first], nums[second])`. -/
def swap (nums : List α) (first second : ℕ) : Except Fault (List α) := do
  let num ← load nums first
  let other ← load nums second
  return (nums.set first other).set second num

variable {nums : List α} {indx : ℕ}

theorem load_of_le (hle : nums.length ≤ indx) : load nums indx = .error (.outOfRange indx) := by
  rw [load, List.getElem?_eq_none hle]

theorem load_of_lt (hlt : indx < nums.length) : load nums indx = .ok nums[indx] := by
  rw [load, List.getElem?_eq_getElem hlt]

theorem load_append (before : List α) (num : α) (after : List α) :
    load (before ++ num :: after) before.length = .ok num := by
  rw [load, List.getElem?_append_right le_rfl, Nat.sub_self]
  rfl

theorem store_append (before : List α) (num : α) (after : List α) (other : α) :
    store (before ++ num :: after) before.length other = .ok (before ++ other :: after) := by
  have hlt : before.length < (before ++ num :: after).length := by
    rw [List.length_append, List.length_cons]
    omega
  rw [store, if_pos hlt, List.set_append_right _ _ le_rfl, Nat.sub_self]
  rfl

/-- An element of a range. -/
theorem load_range (before after : List α) {range : List α} (hlt : indx < range.length) :
    load (before ++ range ++ after) (before.length + indx) = .ok range[indx] := by
  rw [load, List.append_assoc, List.getElem?_append_right (Nat.le_add_right ..),
    Nat.add_sub_cancel_left, List.getElem?_append_left hlt, List.getElem?_eq_getElem hlt]

/-- An element of a range, replaced. -/
theorem set_range (before after : List α) {range : List α} (hlt : indx < range.length) (num : α) :
    (before ++ range ++ after).set (before.length + indx) num =
      before ++ range.set indx num ++ after := by
  rw [List.append_assoc, List.set_append_right _ _ (Nat.le_add_right ..), Nat.add_sub_cancel_left,
    List.set_append_left _ _ hlt, ← List.append_assoc]

theorem load_ok {num : α} (hload : load nums indx = .ok num) : nums[indx]? = some num := by
  unfold load at hload
  split at hload
  · next heq => rw [heq, Except.ok.inj hload]
  · cases hload

theorem swap_of_load {first second : ℕ} {num other : α} (hfirst : load nums first = .ok num)
    (hsecond : load nums second = .ok other) :
    swap nums first second = .ok ((nums.set first other).set second num) := by
  rw [swap, hfirst, ok_bind, hsecond]
  rfl

theorem swap_comm (nums : List α) {first second : ℕ} {num other : α}
    (hfirst : load nums first = .ok num) (hsecond : load nums second = .ok other) :
    swap nums first second = swap nums second first := by
  rw [swap_of_load hfirst hsecond, swap_of_load hsecond hfirst]
  by_cases heq : first = second
  · subst heq
    rw [hfirst] at hsecond
    rw [Except.ok.inj hsecond]
  · rw [List.set_comm _ _ heq]

/-- An element swapped with itself. -/
theorem swap_self (before : List α) (num : α) (after : List α) :
    swap (before ++ num :: after) before.length before.length = .ok (before ++ num :: after) := by
  have hload := load_append before num after
  rw [swap_of_load hload hload, List.set_set, List.set_append_right _ _ le_rfl, Nat.sub_self]
  rfl

/-- Two elements swapped, the one in front first. -/
theorem swap_append (before : List α) (num : α) (between : List α) (other : α) (after : List α) :
    swap (before ++ num :: between ++ other :: after) before.length
        (before ++ num :: between).length =
      .ok (before ++ other :: between ++ num :: after) := by
  have hlength : (before ++ num :: between).length = (before ++ other :: between).length := by
    simp only [List.length_append, List.length_cons]
  have hfirst : load (before ++ num :: between ++ other :: after) before.length = .ok num := by
    rw [List.append_assoc]
    exact load_append ..
  rw [swap_of_load hfirst (load_append ..), hlength, List.append_assoc,
    List.set_append_right _ _ le_rfl, Nat.sub_self, List.cons_append, List.set_cons_zero,
    ← List.cons_append, ← List.append_assoc, List.set_append_right _ _ le_rfl, Nat.sub_self,
    List.set_cons_zero]

/-- Two elements swapped, the one behind first. -/
theorem swap_append' (before : List α) (num : α) (between : List α) (other : α) (after : List α) :
    swap (before ++ num :: between ++ other :: after) (before ++ num :: between).length
        before.length =
      .ok (before ++ other :: between ++ num :: after) := by
  have hfirst : load (before ++ num :: between ++ other :: after) before.length = .ok num := by
    rw [List.append_assoc]
    exact load_append ..
  rw [← swap_append, swap_comm _ hfirst (load_append ..)]

/-! ### Accesses to a range only -/

/-- `nums[indx]`, read, where only the places from `first` to `last` may be. -/
def loadWithin (first last : ℕ) (nums : List α) (indx : ℕ) : Except Fault α :=
  if first ≤ indx ∧ indx ≤ last then load nums indx else .error (.outOfRange indx)

/-- `nums[indx] = num`, where only these places may be written. -/
def storeWithin (first last : ℕ) (nums : List α) (indx : ℕ) (num : α) : Except Fault (List α) :=
  if first ≤ indx ∧ indx ≤ last then store nums indx num else .error (.outOfRange indx)

theorem loadWithin_eq {first last : ℕ} (hfirst : first ≤ indx) (hlast : indx ≤ last) :
    loadWithin first last nums indx = load nums indx := if_pos ⟨hfirst, hlast⟩

theorem storeWithin_eq {first last : ℕ} (hfirst : first ≤ indx) (hlast : indx ≤ last) (num : α) :
    storeWithin first last nums indx num = store nums indx num := if_pos ⟨hfirst, hlast⟩

theorem load_of_within {first last : ℕ} {num : α}
    (hload : loadWithin first last nums indx = .ok num) : load nums indx = .ok num := by
  unfold loadWithin at hload
  split at hload
  · exact hload
  · cases hload

theorem store_of_within {first last : ℕ} {num : α} {nums' : List α}
    (hstore : storeWithin first last nums indx num = .ok nums') :
    store nums indx num = .ok nums' := by
  unfold storeWithin at hstore
  split at hstore
  · exact hstore
  · cases hstore

/-! ### Ranges -/

/-- Of a vector only a range has been permuted. -/
def Permutes (before range after nums : List α) : Prop :=
  ∃ range', nums = before ++ range' ++ after ∧ range'.Perm range

variable {before range after : List α}

theorem length_of_range {begin : ℕ} (hnums : nums = before ++ range ++ after)
    (hbegin : begin = before.length) : nums.length = begin + range.length + after.length := by
  rw [hnums, List.length_append, List.length_append, hbegin]

/-- The element behind the front of a range. -/
theorem load_behind {front back : List α} {num : α} {pos : ℕ}
    (hnums : nums = before ++ front ++ num :: back ++ after)
    (hpos : pos = before.length + front.length) : load nums pos = .ok num := by
  have hload := load_append (before ++ front) num (back ++ after)
  rwa [List.length_append, ← hpos, ← List.cons_append, ← List.append_assoc, ← hnums] at hload

theorem Permutes.refl (before range after : List α) :
    Permutes before range after (before ++ range ++ after) := ⟨range, rfl, .refl range⟩

theorem Permutes.length_eq (h : Permutes before range after nums) :
    nums.length = (before ++ range ++ after).length := by
  obtain ⟨range', rfl, hperm⟩ := h
  simp only [List.length_append, hperm.length_eq]

/-- What permutes a part of a range permutes the range. -/
theorem Permutes.part {front part back : List α}
    (h : Permutes (before ++ front) part (back ++ after) nums)
    (hrange : (front ++ part ++ back).Perm range) : Permutes before range after nums := by
  obtain ⟨part', rfl, hperm⟩ := h
  refine ⟨front ++ part' ++ back, ?_, ((hperm.append_left front).append_right back).trans hrange⟩
  simp only [List.append_assoc]

theorem Permutes.front {front back : List α} (h : Permutes before front (back ++ after) nums)
    (hrange : (front ++ back).Perm range) : Permutes before range after nums :=
  Permutes.part (by rwa [List.append_nil]) (by rwa [List.nil_append])

theorem Permutes.back {front back : List α} (h : Permutes (before ++ front) back after nums)
    (hrange : (front ++ back).Perm range) : Permutes before range after nums :=
  Permutes.part (by rwa [List.nil_append]) (by rwa [List.append_nil])

/-- Two elements of a range are swapped. -/
theorem swap_permutes {first second : ℕ} (hfirst : first < range.length)
    (hsecond : second < range.length) :
    ∃ nums', swap (before ++ range ++ after) (before.length + first) (before.length + second) =
      .ok nums' ∧ Permutes before range after nums' := by
  have hswap := swap_of_load (load_range before after hfirst) (load_range before after hsecond)
  rw [set_range before after hfirst, set_range before after (by rwa [List.length_set])] at hswap
  exact ⟨_, hswap, _, rfl, List.set_set_perm hfirst hsecond⟩

end CppLearn.Foundation.VectorAccess
