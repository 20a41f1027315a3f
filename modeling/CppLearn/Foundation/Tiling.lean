import Mathlib.Order.Basic
import Mathlib.Tactic.Common
import Mathlib.Tactic.Linarith

/-!
# Spans that tile an interval

A stream that is handed over piece by piece is handed over whole if each piece begins where the one
before it ends. `Tiles` says so of a list of spans. A tiling covers every position of its interval
exactly once and no other (`Tiles.countP_covers`), and the slices of a list of bytes along a tiling
join to the slice along its interval (`Tiles.flatMap_slice`).
-/

set_option autoImplicit false
set_option relaxedAutoImplicit false

namespace CppLearn.Foundation.Tiling

/-- An interval by its beginning and its length. -/
structure Span where
  offset : ℤ
  length : ℤ
  deriving DecidableEq

/-- The spans follow one another from `start` to `stop`. -/
def Tiles : ℤ → List Span → ℤ → Prop
  | start, [], stop => start = stop
  | start, span :: spans, stop =>
    span.offset = start ∧ 0 ≤ span.length ∧ Tiles (start + span.length) spans stop

/-- A position in a span. -/
def Span.covers (pos : ℤ) (span : Span) : Bool :=
  decide (span.offset ≤ pos ∧ pos < span.offset + span.length)

/-- The bytes of a span. -/
def Span.slice {Byte : Type*} (bytes : List Byte) (span : Span) : List Byte :=
  (bytes.drop span.offset.toNat).take span.length.toNat

theorem Tiles.le {start stop : ℤ} {spans : List Span} (h : Tiles start spans stop) :
    start ≤ stop := by
  induction spans generalizing start with
  | nil => exact le_of_eq h
  | cons span spans ih =>
    obtain ⟨-, hlength, hrest⟩ := h
    have := ih hrest
    omega

/-- A tiling is continued by a span that begins where it ends. -/
theorem Tiles.concat {start stop : ℤ} {spans : List Span} (h : Tiles start spans stop)
    {length : ℤ} (hlength : 0 ≤ length) :
    Tiles start (spans ++ [⟨stop, length⟩]) (stop + length) := by
  induction spans generalizing start with
  | nil =>
    obtain rfl : start = stop := h
    exact ⟨rfl, hlength, rfl⟩
  | cons span spans ih =>
    obtain ⟨hoffset, hspan, hrest⟩ := h
    exact ⟨hoffset, hspan, ih hrest⟩

/-- A tiling covers every position of its interval once and no position outside. -/
theorem Tiles.countP_covers {start stop : ℤ} {spans : List Span} (h : Tiles start spans stop)
    (pos : ℤ) : spans.countP (Span.covers pos) = if start ≤ pos ∧ pos < stop then 1 else 0 := by
  induction spans generalizing start with
  | nil =>
    obtain rfl : start = stop := h
    rw [List.countP_nil, if_neg (by omega)]
  | cons span spans ih =>
    obtain ⟨hoffset, hlength, hrest⟩ := h
    have hstop := hrest.le
    rw [List.countP_cons, ih hrest]
    simp only [Span.covers, decide_eq_true_eq, hoffset]
    by_cases hfirst : start ≤ pos ∧ pos < start + span.length
    · rw [if_pos hfirst, if_neg (by omega), if_pos (by omega)]
    · rw [if_neg hfirst, Nat.add_zero]
      by_cases hlater : start + span.length ≤ pos ∧ pos < stop
      · rw [if_pos hlater, if_pos (by omega)]
      · rw [if_neg hlater, if_neg (by omega)]

/-- Assumes: a tiling that begins at a position of the list. Its slices, in order, join to the slice
of its interval. -/
theorem Tiles.flatMap_slice {Byte : Type*} (bytes : List Byte) {start stop : ℤ} {spans : List Span}
    (h : Tiles start spans stop) (hstart : 0 ≤ start) :
    spans.flatMap (Span.slice bytes) = Span.slice bytes ⟨start, stop - start⟩ := by
  induction spans generalizing start with
  | nil =>
    obtain rfl : start = stop := h
    rw [List.flatMap_nil, Span.slice, Int.sub_self, Int.toNat_zero, List.take_zero]
  | cons span spans ih =>
    obtain ⟨hoffset, hlength, hrest⟩ := h
    have hstop := hrest.le
    have hnext : (start + span.length).toNat = start.toNat + span.length.toNat := by omega
    have hwhole : (stop - start).toNat =
        span.length.toNat + (stop - (start + span.length)).toNat := by omega
    rw [List.flatMap_cons, ih hrest (by omega)]
    simp only [Span.slice, hoffset, hnext, hwhole]
    rw [List.take_add, List.drop_drop]

end CppLearn.Foundation.Tiling
