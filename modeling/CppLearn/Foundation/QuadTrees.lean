import Mathlib.Algebra.Group.Nat.Defs
import Mathlib.Logic.Basic
import Mathlib.Tactic.Common

/-!
# Quad trees

A quad tree of order `n` describes a square of `2 ^ n` by `2 ^ n` cells: all of them are equal, or
it is divided into four quadrants of the next lower order. It is minimal where no square is divided
whose quadrants are equal leaves.
-/

set_option autoImplicit false
set_option relaxedAutoImplicit false

namespace CppLearn.Foundation.QuadTrees

universe u

inductive Quadrant
  | topLeft
  | topRight
  | bottomLeft
  | bottomRight
  deriving DecidableEq

theorem Quadrant.forall_iff {p : Quadrant → Prop} : (∀ quadrant, p quadrant) ↔
    p .topLeft ∧ p .topRight ∧ p .bottomLeft ∧ p .bottomRight := by
  refine ⟨fun h ↦ ⟨h _, h _, h _, h _⟩, fun ⟨htl, htr, hbl, hbr⟩ quadrant ↦ ?_⟩
  cases quadrant with
  | topLeft => exact htl
  | topRight => exact htr
  | bottomLeft => exact hbl
  | bottomRight => exact hbr

instance {p : Quadrant → Prop} [DecidablePred p] : Decidable (∀ quadrant, p quadrant) :=
  decidable_of_iff _ Quadrant.forall_iff.symm

inductive QuadTree (α : Type u) : ℕ → Type u
  | leaf {n : ℕ} (val : α) : QuadTree α n
  | node {n : ℕ} (child : Quadrant → QuadTree α n) : QuadTree α (n + 1)

/-- The quadrant of a square of `2 ^ (n + 1)` by `2 ^ (n + 1)` cells in which a cell is. -/
def quadrantAt (n row col : ℕ) : Quadrant :=
  if row < 2 ^ n then
    if col < 2 ^ n then .topLeft else .topRight
  else
    if col < 2 ^ n then .bottomLeft else .bottomRight

namespace QuadTree

variable {α : Type u} {n : ℕ}

/-- The value of a cell. -/
def cell {n : ℕ} : QuadTree α n → ℕ → ℕ → α
  | .leaf val, _, _ => val
  | .node (n := n) child, row, col =>
    (child (quadrantAt n row col)).cell (row % 2 ^ n) (col % 2 ^ n)

theorem cell_leaf (val : α) (row col : ℕ) : (.leaf val : QuadTree α n).cell row col = val := rfl

/-- No square is divided whose quadrants are equal leaves. -/
def Minimal {n : ℕ} : QuadTree α n → Prop
  | .leaf _ => True
  | .node child => (¬ ∃ val, ∀ quadrant, child quadrant = .leaf val) ∧
      ∀ quadrant, (child quadrant).Minimal

/-- The value of a leaf. -/
def leafVal {n : ℕ} : QuadTree α n → Option α
  | .leaf val => some val
  | .node _ => none

theorem leafVal_eq_some_iff {tree : QuadTree α n} {val : α} :
    tree.leafVal = some val ↔ tree = .leaf val := by
  cases tree with
  | leaf other => rw [leafVal, Option.some_inj, leaf.injEq]
  | node child => exact iff_of_false nofun nofun

variable [DecidableEq α] {child : Quadrant → QuadTree α n}

/-- Four quadrants put together, to a leaf if they are equal leaves. -/
def join (child : Quadrant → QuadTree α n) : QuadTree α (n + 1) :=
  match (child .topLeft).leafVal with
  | some val => if ∀ quadrant, (child quadrant).leafVal = some val then .leaf val else .node child
  | none => .node child

theorem join_of_forall {val : α} (h : ∀ quadrant, child quadrant = .leaf val) :
    join child = .leaf val := by
  have hall : ∀ quadrant, (child quadrant).leafVal = some val :=
    fun quadrant ↦ leafVal_eq_some_iff.mpr (h quadrant)
  rw [join, hall .topLeft]
  exact if_pos hall

theorem join_of_not_exists (h : ¬ ∃ val, ∀ quadrant, child quadrant = .leaf val) :
    join child = .node child := by
  unfold join
  cases (child .topLeft).leafVal with
  | none => rfl
  | some val =>
    exact if_neg fun hall ↦ h ⟨val, fun quadrant ↦ leafVal_eq_some_iff.mp (hall quadrant)⟩

/-- The cells are those of the quadrants in any case. -/
theorem cell_join (child : Quadrant → QuadTree α n) (row col : ℕ) :
    (join child).cell row col = (QuadTree.node child).cell row col := by
  by_cases h : ∃ val, ∀ quadrant, child quadrant = .leaf val
  · obtain ⟨val, hall⟩ := h
    rw [join_of_forall hall, cell, cell, hall, cell]
  · rw [join_of_not_exists h]

theorem minimal_join (h : ∀ quadrant, (child quadrant).Minimal) : (join child).Minimal := by
  by_cases hall : ∃ val, ∀ quadrant, child quadrant = .leaf val
  · obtain ⟨val, hall⟩ := hall
    rw [join_of_forall hall]
    trivial
  · rw [join_of_not_exists hall]
    exact ⟨hall, h⟩

/-- The union of two squares: what is full on one side, or empty on the other one, decides for a
square as a whole. -/
def union {n : ℕ} : QuadTree Bool n → QuadTree Bool n → QuadTree Bool n
  | .leaf true, _ => .leaf true
  | _, .leaf true => .leaf true
  | .leaf false, second => second
  | first, .leaf false => first
  | .node child, .node child' => join fun quadrant ↦ union (child quadrant) (child' quadrant)

theorem union_full_left (second : QuadTree Bool n) : union (.leaf true) second = .leaf true := by
  cases second with
  | leaf val => rfl
  | node child => rfl

theorem union_full_right (first : QuadTree Bool n) : union first (.leaf true) = .leaf true := by
  cases first with
  | leaf val => cases val <;> rfl
  | node child => rfl

theorem union_empty_left (second : QuadTree Bool n) : union (.leaf false) second = second := by
  cases second with
  | leaf val => cases val <;> rfl
  | node child => rfl

theorem union_empty_right (first : QuadTree Bool n) : union first (.leaf false) = first := by
  cases first with
  | leaf val => cases val <;> rfl
  | node child => rfl

/-- A cell of the union is full where it is in either square. -/
theorem cell_union (first second : QuadTree Bool n) (row col : ℕ) :
    (union first second).cell row col = (first.cell row col || second.cell row col) := by
  induction first generalizing row col with
  | leaf val =>
    cases val with
    | true => rw [union_full_left, cell_leaf, Bool.true_or]
    | false => rw [union_empty_left, cell_leaf, Bool.false_or]
  | node child ih =>
    cases second with
    | leaf val =>
      cases val with
      | true => rw [union_full_right, cell_leaf, Bool.or_true]
      | false => rw [union_empty_right, cell_leaf, Bool.or_false]
    | node child' => rw [union, cell_join, cell, ih, cell, cell]

/-- The union of minimal trees is minimal. -/
theorem minimal_union {first second : QuadTree Bool n} (hfirst : first.Minimal)
    (hsecond : second.Minimal) : (union first second).Minimal := by
  induction first with
  | leaf val =>
    cases val with
    | true =>
      rw [union_full_left]
      trivial
    | false => rwa [union_empty_left]
  | node child ih =>
    cases second with
    | leaf val =>
      cases val with
      | true =>
        rw [union_full_right]
        trivial
      | false => rwa [union_empty_right]
    | node child' =>
      rw [union]
      exact minimal_join fun quadrant ↦ ih quadrant (hfirst.2 quadrant) (hsecond.2 quadrant)

end QuadTree

end CppLearn.Foundation.QuadTrees
