import Mathlib.Data.List.Nodup

/-!
# Enumerations

A list enumerates what satisfies a condition where it has each of it once and nothing else.
Enumerations of two conditions that exclude each other are put one behind the other; what is made of
the pairs of two enumerations is enumerated where it can be taken apart again.
-/

set_option autoImplicit false
set_option relaxedAutoImplicit false

namespace CppLearn.Foundation.Enumeration

variable {α β γ : Type*} {elems others : List α} {Wanted Other : α → Prop}

structure Enumerates (elems : List α) (Wanted : α → Prop) : Prop where
  nodup : elems.Nodup
  mem_iff : ∀ elem, elem ∈ elems ↔ Wanted elem

theorem enumerates_nil (hnone : ∀ elem, ¬ Wanted elem) : Enumerates [] Wanted :=
  ⟨List.nodup_nil, fun elem ↦ ⟨nofun, fun hwanted ↦ (hnone elem hwanted).elim⟩⟩

theorem enumerates_singleton {elem : α} (hone : ∀ other, Wanted other ↔ other = elem) :
    Enumerates [elem] Wanted :=
  ⟨List.nodup_singleton elem, fun other ↦ List.mem_singleton.trans (hone other).symm⟩

theorem Enumerates.congr (h : Enumerates elems Wanted) (hiff : ∀ elem, Wanted elem ↔ Other elem) :
    Enumerates elems Other := ⟨h.nodup, fun elem ↦ (h.mem_iff elem).trans (hiff elem)⟩

/-- Of two conditions that exclude each other. -/
theorem Enumerates.append (h : Enumerates elems Wanted) (hothers : Enumerates others Other)
    (hexclude : ∀ elem, Wanted elem → ¬ Other elem) :
    Enumerates (elems ++ others) fun elem ↦ Wanted elem ∨ Other elem := by
  refine ⟨List.nodup_append'.mpr ⟨h.nodup, hothers.nodup, fun elem hmem hmem' ↦ ?_⟩,
    fun elem ↦ ?_⟩
  · exact hexclude elem ((h.mem_iff elem).mp hmem) ((hothers.mem_iff elem).mp hmem')
  · rw [List.mem_append, h.mem_iff, hothers.mem_iff]

theorem Enumerates.map {f : α → β} (h : Enumerates elems Wanted) (hf : f.Injective) :
    Enumerates (elems.map f) fun made ↦ ∃ elem, Wanted elem ∧ f elem = made :=
  ⟨h.nodup.map hf, fun made ↦ by simp only [List.mem_map, h.mem_iff]⟩

/-- Of what is made of pairs. -/
theorem Enumerates.pairs {elems' : List β} {Wanted' : β → Prop} {make : α → β → γ}
    (h : Enumerates elems Wanted) (h' : Enumerates elems' Wanted')
    (hmake : ∀ first second other other', make first second = make other other' →
      first = other ∧ second = other') :
    Enumerates (elems.flatMap fun first ↦ elems'.map (make first)) fun made ↦
      ∃ first second, Wanted first ∧ Wanted' second ∧ make first second = made := by
  refine ⟨List.nodup_flatMap.mpr ⟨fun first _ ↦ ?_, ?_⟩, fun made ↦ ?_⟩
  · exact h'.nodup.map fun second other heq ↦ (hmake first second first other heq).2
  · refine h.nodup.imp fun {first other} hne made hfirst hother ↦ hne ?_
    obtain ⟨second, -, rfl⟩ := List.mem_map.mp hfirst
    obtain ⟨second', -, heq⟩ := List.mem_map.mp hother
    exact (hmake other second' first second heq).1.symm
  · simp only [List.mem_flatMap, List.mem_map, h.mem_iff, h'.mem_iff]
    constructor
    · rintro ⟨first, hfirst, second, hsecond, rfl⟩
      exact ⟨first, second, hfirst, hsecond, rfl⟩
    · rintro ⟨first, second, hfirst, hsecond, rfl⟩
      exact ⟨first, hfirst, second, hsecond, rfl⟩

end CppLearn.Foundation.Enumeration
