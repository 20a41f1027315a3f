import Mathlib.Tactic.Common

/-!
# The longest run in a list

A run is a stretch of consecutive places whose elements all have a property. One pass over a list finds
the longest: it keeps the best run so far and the one that is being read, and a run that has come to
its end replaces the best one if it is longer. `isRun_longestRun` says that what is found is a run, and
`longestRun_dominates` that no run is longer and none of the same length begins earlier.
-/

set_option autoImplicit false
set_option relaxedAutoImplicit false

namespace CppLearn.Foundation.LongestRun

/-- So many places from one on. -/
structure Span where
  base : ℕ
  len : ℕ
  deriving DecidableEq

/-- The best run so far, and the one that is being read. -/
structure Runs where
  best : Option Span
  cur : Option Span

/-- The best run, after the one that was read has come to its end. -/
def Runs.close (s : Runs) : Option Span :=
  match s.cur, s.best with
  | none, best => best
  | some cur, none => some cur
  | some cur, some best => if best.len < cur.len then some cur else some best

variable {α : Type*} (p : α → Bool)

/-- The element at a place is read. -/
def Runs.read (s : Runs) (i : ℕ) (a : α) : Runs :=
  if p a then
    match s.cur with
    | none => { s with cur := some ⟨i, 1⟩ }
    | some cur => { s with cur := some ⟨cur.base, cur.len + 1⟩ }
  else { best := s.close, cur := none }

/-- The elements from a place on are read. -/
def Runs.readFrom : ℕ → List α → Runs → Runs
  | _, [], s => s
  | i, a :: rest, s => readFrom (i + 1) rest (s.read p i a)

/-- The first of the longest runs. -/
def longestRun (l : List α) : Option Span := (Runs.readFrom p 0 l ⟨none, none⟩).close

/-- All elements of a stretch have the property, and there is one. -/
structure IsRun (l : List α) (span : Span) : Prop where
  pos : 0 < span.len
  le : span.base + span.len ≤ l.length
  holds : ∀ (i : ℕ) (a : α), span.base ≤ i → i < span.base + span.len → l[i]? = some a → p a = true

/-- The best run is longer than another, or as long and not later. -/
def Dominates (best : Option Span) (span : Span) : Prop :=
  ∃ b, best = some b ∧ (span.len < b.len ∨ span.len = b.len ∧ b.base ≤ span.base)

/-- What has been found in the front of a list. -/
structure Scanned (front : List α) (s : Runs) : Prop where
  best_run : ∀ b, s.best = some b → IsRun p front b
  cur_run : ∀ c, s.cur = some c → IsRun p front c ∧ c.base + c.len = front.length
  before : ∀ b c, s.best = some b → s.cur = some c → b.base ≤ c.base
  reading : ∀ span, IsRun p front span → span.base + span.len = front.length →
    ∃ c, s.cur = some c ∧ c.base ≤ span.base
  covered : ∀ span, IsRun p front span →
    Dominates s.best span ∨ ∃ c, s.cur = some c ∧ c.base ≤ span.base

variable {p} {front : List α} {a : α} {s : Runs} {span : Span}

/-- A run of a list is one of a longer list. -/
theorem IsRun.append (h : IsRun p front span) (rest : List α) : IsRun p (front ++ rest) span where
  pos := h.pos
  le := by
    rw [List.length_append]
    exact Nat.le_trans h.le (Nat.le_add_right _ _)
  holds i other hle hlt hget := by
    rw [List.getElem?_append_left (Nat.lt_of_lt_of_le hlt h.le)] at hget
    exact h.holds i other hle hlt hget

/-- A run that does not reach the last element. -/
theorem IsRun.of_append (h : IsRun p (front ++ [a]) span) (hle : span.base + span.len ≤ front.length) :
    IsRun p front span where
  pos := h.pos
  le := hle
  holds i other hbase hlt hget := by
    refine h.holds i other hbase hlt ?_
    rw [List.getElem?_append_left (Nat.lt_of_lt_of_le hlt hle)]
    exact hget

/-- The last element of a run has the property. -/
theorem IsRun.last (h : IsRun p (front ++ [a]) span) (hend : span.base + span.len = front.length + 1) :
    p a = true := by
  have hpos := h.pos
  refine h.holds front.length a (by omega) (by omega) ?_
  exact List.getElem?_concat_length

/-- What is closed is the best run or the one that was read. -/
theorem close_cases (s : Runs) {b : Span} (hclose : s.close = some b) :
    s.best = some b ∨ s.cur = some b := by
  unfold Runs.close at hclose
  split at hclose
  · exact .inl hclose
  · next hcur _ => exact .inr (hcur.trans hclose)
  · next cur best hcur hbest =>
    split_ifs at hclose
    · exact .inr (hcur.trans hclose)
    · exact .inl (hbest.trans hclose)

/-- The closed run dominates every run so far. -/
theorem Scanned.close_dominates (h : Scanned p front s) (hspan : IsRun p front span) :
    Dominates s.close span := by
  unfold Runs.close
  rcases h.covered span hspan with ⟨b, hbest, hbetter⟩ | ⟨c, hcur, hbase⟩
  · rw [hbest]
    cases hcur : s.cur with
    | none => exact ⟨b, rfl, hbetter⟩
    | some c =>
      simp only
      split_ifs with hlonger
      · exact ⟨c, rfl, .inl (by omega)⟩
      · exact ⟨b, rfl, hbetter⟩
  · have hend := (h.cur_run c hcur).2
    have hle := hspan.le
    rw [hcur]
    cases hbest : s.best with
    | none => exact ⟨c, rfl, by omega⟩
    | some b =>
      have hbefore := h.before b c hbest hcur
      simp only
      split_ifs with hlonger
      · exact ⟨c, rfl, by omega⟩
      · exact ⟨b, rfl, by omega⟩

theorem Scanned.close_run (h : Scanned p front s) {b : Span} (hclose : s.close = some b) :
    IsRun p front b := by
  rcases close_cases s hclose with hbest | hcur
  · exact h.best_run b hbest
  · exact (h.cur_run b hcur).1

/-- An element without the property ends the run. -/
theorem Scanned.read_end (h : Scanned p front s) (ha : p a = false) :
    Scanned p (front ++ [a]) ⟨s.close, none⟩ := by
  have hshort : ∀ span, IsRun p (front ++ [a]) span → span.base + span.len ≤ front.length := by
    intro span hspan
    have hle := hspan.le
    rw [List.length_append, List.length_singleton] at hle
    by_contra hend
    rw [hspan.last (by omega)] at ha
    cases ha
  refine ⟨fun b hb ↦ (h.close_run hb).append [a], (fun c hc ↦ ?_), (fun b c _ hc ↦ ?_),
    fun span hspan hend ↦ ?_, fun span hspan ↦ ?_⟩
  · cases hc
  · cases hc
  · have hle := hshort span hspan
    rw [List.length_append, List.length_singleton] at hend
    omega
  · exact .inl (h.close_dominates (hspan.of_append (hshort span hspan)))

/-- An element with the property is the next of the run, or the first of one. -/
theorem Scanned.read_next (h : Scanned p front s) (ha : p a = true) {c : Span}
    (hend : c.base + c.len = front.length + 1) (hpos : 0 < c.len)
    (hcur : ∀ old, s.cur = some old → c.base = old.base) (hnone : s.cur = none → c.len = 1) :
    Scanned p (front ++ [a]) ⟨s.best, some c⟩ := by
  have hbase : c.base ≤ front.length := by omega
  have hrun : IsRun p (front ++ [a]) c := by
    refine ⟨hpos, ?_, fun i other hle hlt hget ↦ ?_⟩
    · rw [List.length_append, List.length_singleton]
      omega
    · by_cases hi : i = front.length
      · subst hi
        rw [List.getElem?_concat_length] at hget
        cases hget
        exact ha
      · cases hold : s.cur with
        | none =>
          have := hnone hold
          omega
        | some old =>
          obtain ⟨hrun, hlength⟩ := h.cur_run old hold
          have := hcur old hold
          rw [List.getElem?_append_left (by omega)] at hget
          exact hrun.holds i other (by omega) (by omega) hget
  -- a run up to the last element begins no earlier than the one that is being read
  have hreading : ∀ span, IsRun p (front ++ [a]) span →
      span.base + span.len = front.length + 1 → c.base ≤ span.base := by
    intro span hspan hlast
    by_cases hone : span.len = 1
    · omega
    · have hpos := hspan.pos
      have hshorter : IsRun p front ⟨span.base, span.len - 1⟩ := by
        refine ⟨by simp only; omega, by simp only; omega, fun i other hle hlt hget ↦ ?_⟩
        simp only at hle hlt
        refine hspan.holds i other hle (by omega) ?_
        rw [List.getElem?_append_left (by omega)]
        exact hget
      obtain ⟨old, hold, hle⟩ := h.reading _ hshorter (by simp only; omega)
      rw [hcur old hold]
      exact hle
  refine ⟨fun b hb ↦ (h.best_run b hb).append [a], (fun other hother ↦ ?_), (fun b other hb hother ↦ ?_),
    fun span hspan hlast ↦ ?_, fun span hspan ↦ ?_⟩
  · cases hother
    rw [List.length_append, List.length_singleton]
    exact ⟨hrun, hend⟩
  · cases hother
    cases hold : s.cur with
    | none =>
      have hle := (h.best_run b hb).le
      have hone := hnone hold
      omega
    | some old =>
      rw [hcur old hold]
      exact h.before b old hb hold
  · rw [List.length_append, List.length_singleton] at hlast
    exact ⟨c, rfl, hreading span hspan hlast⟩
  · by_cases hlast : span.base + span.len = front.length + 1
    · exact .inr ⟨c, rfl, hreading span hspan hlast⟩
    · have hle := hspan.le
      rw [List.length_append, List.length_singleton] at hle
      rcases h.covered span (hspan.of_append (by omega)) with hbest | ⟨old, hold, hle⟩
      · exact .inl hbest
      · rw [← hcur old hold] at hle
        exact .inr ⟨c, rfl, hle⟩

theorem Scanned.read (h : Scanned p front s) (a : α) :
    Scanned p (front ++ [a]) (s.read p front.length a) := by
  unfold Runs.read
  cases ha : p a with
  | false => exact h.read_end ha
  | true =>
    simp only [if_true]
    cases hcur : s.cur with
    | none =>
      exact h.read_next ha rfl Nat.one_pos (fun old hold ↦ by rw [hcur] at hold; cases hold)
        fun _ ↦ rfl
    | some cur =>
      have hend := (h.cur_run cur hcur).2
      refine h.read_next ha (by simp only; omega) (Nat.succ_pos _) (fun old hold ↦ ?_) fun hnone ↦ ?_
      · rw [hcur] at hold
        cases hold
        rfl
      · rw [hcur] at hnone
        cases hnone

theorem Scanned.readFrom (h : Scanned p front s) (rest : List α) :
    Scanned p (front ++ rest) (Runs.readFrom p front.length rest s) := by
  induction rest generalizing front s with
  | nil =>
    rw [List.append_nil]
    exact h
  | cons a rest ih =>
    have hnext := ih (h.read a)
    rw [List.append_assoc, List.length_append, List.length_singleton] at hnext
    exact hnext

theorem scanned_start : Scanned p [] ⟨none, none⟩ := by
  refine ⟨fun _ hb ↦ ?_, (fun _ hc ↦ ?_), (fun _ _ hb _ ↦ ?_), fun span hspan _ ↦ ?_,
    fun span hspan ↦ ?_⟩
  · cases hb
  · cases hc
  · cases hb
  all_goals
    have hle := hspan.le
    have hpos := hspan.pos
    rw [List.length_nil] at hle
    omega

/-- What is found is a run. -/
theorem isRun_longestRun {l : List α} (hfound : longestRun p l = some span) : IsRun p l span :=
  (scanned_start.readFrom l).close_run hfound

/-- A run that is not found is shorter than the one that is, or later. -/
theorem longestRun_dominates {l : List α} (hspan : IsRun p l span) : Dominates (longestRun p l) span :=
  (scanned_start.readFrom l).close_dominates hspan

end CppLearn.Foundation.LongestRun
