import CppLearn.Foundation.VectorAccess
import Mathlib.Data.List.Forall2
import Mathlib.Data.List.Induction

/-!
# Names with keys pressed long

`isLongPressedName` goes along what was typed, and along the name where it can. A character that is
not the next one of the name has to be the last one again. That it goes along the name where it can
loses nothing: which of two equal characters a key was pressed long for makes no difference.
-/

set_option autoImplicit false
set_option relaxedAutoImplicit false

namespace CppLearn.Leetcode.LongPressedName

open Foundation.VectorAccess (sizeToInt sizeToInt_of_lt)

/-! ### The program -/

/-- `index < lens && c == name[index]`. -/
def isNext (name : List UInt8) (lens : ℤ) (index : ℕ) (c : UInt8) : Option Bool :=
  if index < lens then name[index]?.map (c == ·) else some false

/-- `index > 0 && c == name[index-1]`. -/
def isLast (name : List UInt8) (index : ℕ) (c : UInt8) : Option Bool :=
  if index > 0 then name[index - 1]?.map (c == ·) else some false

/-- The loop over what was typed, and the test after it. -/
def typedLoop (name : List UInt8) (lens : ℤ) : List UInt8 → ℕ → Option Bool
  | [], index => some (index = lens)
  | c :: typed, index => do
    let next ← isNext name lens index c
    if next then typedLoop name lens typed (index + 1)
    else
      let last ← isLast name index c
      if last then typedLoop name lens typed index else return false

def isLongPressedName (name typed : List UInt8) : Option Bool :=
  typedLoop name (sizeToInt name.length) typed 0

/-! ### Copies of characters -/

/-- Each character has been replaced by one or more copies of itself. -/
def LongPressed (name typed : List UInt8) : Prop :=
  ∃ parts, List.Forall₂ (fun c part ↦ part ≠ [] ∧ ∀ d ∈ part, d = c) name parts ∧
    parts.flatten = typed

/-- What is left of a name may come after more copies of the last character. -/
def Pending (last : Option UInt8) (name typed : List UInt8) : Prop :=
  ∃ copies rest, (∀ d ∈ copies, some d = last) ∧ copies ++ rest = typed ∧ LongPressed name rest

variable {name front rest typed : List UInt8} {c : UInt8} {last : Option UInt8}

theorem longPressed_nil : LongPressed [] typed ↔ typed = [] := by
  constructor
  · rintro ⟨-, ⟨⟩, rfl⟩
    rfl
  · rintro rfl
    exact ⟨[], .nil, rfl⟩

theorem longPressed_cons :
    LongPressed (c :: name) typed ↔ ∃ rest, c :: rest = typed ∧ Pending (some c) name rest := by
  constructor
  · rintro ⟨_, _ | ⟨⟨hne, hall⟩, hparts⟩, rfl⟩
    rename_i part parts
    obtain ⟨d, copies, rfl⟩ := List.exists_cons_of_ne_nil hne
    obtain ⟨rfl, hcopies⟩ := List.forall_mem_cons.mp hall
    refine ⟨copies ++ parts.flatten, rfl, copies, parts.flatten, ?_, rfl, parts, hparts, rfl⟩
    exact fun d hd ↦ congrArg some (hcopies d hd)
  · rintro ⟨_, rfl, copies, _, hcopies, rfl, parts, hparts, rfl⟩
    refine ⟨(c :: copies) :: parts, .cons ⟨List.cons_ne_nil c copies, ?_⟩ hparts, rfl⟩
    exact List.forall_mem_cons.mpr ⟨rfl, fun d hd ↦ Option.some_inj.mp (hcopies d hd)⟩

theorem pending_none : Pending none name typed ↔ LongPressed name typed := by
  constructor
  · rintro ⟨copies, rest, hcopies, rfl, hrest⟩
    have hnil : copies = [] := List.eq_nil_iff_forall_not_mem.mpr fun d hd ↦ nomatch hcopies d hd
    rwa [hnil, List.nil_append]
  · exact fun h ↦ ⟨[], typed, fun _ ↦ nofun, rfl, h⟩

/-- After all that was typed nothing is left of the name. -/
theorem pending_nil : Pending last name [] ↔ name = [] := by
  constructor
  · rintro ⟨copies, rest, -, happend, hrest⟩
    obtain ⟨-, rfl⟩ := List.append_eq_nil_iff.mp happend
    cases name with
    | nil => rfl
    | cons c name =>
      obtain ⟨_, ⟨⟩, -⟩ := longPressed_cons.mp hrest
  · rintro rfl
    exact ⟨[], [], fun _ ↦ nofun, rfl, longPressed_nil.mpr rfl⟩

/-- A character is the last one again, or the next one. -/
theorem pending_cons :
    Pending last name (c :: typed) ↔
      (last = some c ∧ Pending last name typed) ∨
        ∃ rest, name = c :: rest ∧ Pending (some c) rest typed := by
  constructor
  · rintro ⟨copies, rest, hcopies, happend, hrest⟩
    cases copies with
    | nil =>
      rw [List.nil_append] at happend
      rw [happend] at hrest
      cases name with
      | nil => cases longPressed_nil.mp hrest
      | cons d name =>
        obtain ⟨_, ⟨⟩, h⟩ := longPressed_cons.mp hrest
        exact Or.inr ⟨name, rfl, h⟩
    | cons d copies =>
      obtain ⟨hd, hothers⟩ := List.forall_mem_cons.mp hcopies
      cases happend
      exact Or.inl ⟨hd.symm, copies, rest, hothers, rfl, hrest⟩
  · rintro (⟨rfl, copies, rest, hcopies, rfl, hrest⟩ | ⟨rest, rfl, h⟩)
    · exact ⟨c :: copies, rest, List.forall_mem_cons.mpr ⟨rfl, hcopies⟩, rfl, hrest⟩
    · exact ⟨[], c :: typed, fun _ ↦ nofun, rfl, longPressed_cons.mpr ⟨typed, rfl, h⟩⟩

/-- Of a character that is both, the next one may be taken. -/
theorem pending_cons_of_head (h : Pending (some c) (c :: name) typed) :
    Pending (some c) name typed := by
  obtain ⟨copies, _, hcopies, rfl, hrest⟩ := h
  obtain ⟨_, rfl, more, rest, hmore, rfl, hlast⟩ := longPressed_cons.mp hrest
  refine ⟨copies ++ c :: more, rest, fun d hd ↦ ?_, by rw [List.append_assoc]; rfl, hlast⟩
  rcases List.mem_append.mp hd with hd | hd
  · exact hcopies d hd
  · exact (List.forall_mem_cons.mpr ⟨rfl, hmore⟩ : ∀ d ∈ c :: more, some d = some c) d hd

/-! ### The loop -/

theorem isNext_eq (hname : name = front ++ rest) (c : UInt8) :
    isNext name name.length front.length c = some (decide (rest.head? = some c)) := by
  rw [isNext]
  cases rest with
  | nil =>
    rw [List.append_nil] at hname
    rw [hname, if_neg (lt_irrefl _)]
    rfl
  | cons d rest =>
    have hlt : (front.length : ℤ) < name.length := by
      rw [hname, List.length_append, List.length_cons]
      omega
    have hd : name[front.length]? = some d := by
      rw [hname, List.getElem?_append_right le_rfl, Nat.sub_self, List.getElem?_cons_zero]
    rw [if_pos hlt, hd, Option.map_some, List.head?_cons]
    refine congrArg some (Bool.eq_iff_iff.mpr ?_)
    rw [beq_iff_eq, decide_eq_true_iff, Option.some_inj, eq_comm]

theorem isLast_eq (hname : name = front ++ rest) (c : UInt8) :
    isLast name front.length c = some (decide (front.getLast? = some c)) := by
  rw [isLast]
  cases front using List.reverseRecOn with
  | nil => rfl
  | append_singleton before d =>
    have hd : name[(before ++ [d]).length - 1]? = some d := by
      rw [hname, List.length_append, List.length_singleton, Nat.add_sub_cancel, List.append_assoc,
        List.getElem?_append_right le_rfl, Nat.sub_self]
      rfl
    have hpos : (before ++ [d]).length > 0 := by
      rw [List.length_append, List.length_singleton]
      omega
    rw [if_pos hpos, hd, Option.map_some, List.getLast?_concat]
    refine congrArg some (Bool.eq_iff_iff.mpr ?_)
    rw [beq_iff_eq, decide_eq_true_iff, Option.some_inj, eq_comm]

/-- The loop has gone along `front`. -/
theorem typedLoop_eq (hname : name = front ++ rest) (typed : List UInt8) :
    ∃ result, typedLoop name name.length typed front.length = some result ∧
      (result = true ↔ Pending front.getLast? rest typed) := by
  induction typed generalizing front rest with
  | nil =>
    refine ⟨_, rfl, ?_⟩
    rw [pending_nil, decide_eq_true_iff, hname, List.length_append, ← List.length_eq_zero_iff]
    omega
  | cons c typed ih =>
    rw [typedLoop, isNext_eq hname, Option.bind_eq_bind, Option.bind_some, pending_cons]
    by_cases hnext : rest.head? = some c
    · obtain ⟨rest', rfl⟩ := List.head?_eq_some_iff.mp hnext
      have hname' : name = (front ++ [c]) ++ rest' := by
        rw [hname, List.append_assoc, List.singleton_append]
      obtain ⟨result, hloop, hresult⟩ := ih hname'
      rw [List.length_append, List.length_singleton] at hloop
      rw [List.getLast?_concat] at hresult
      refine ⟨result, ?_, hresult.trans ?_⟩
      · rw [if_pos (decide_eq_true hnext), hloop]
      · constructor
        · exact fun h ↦ Or.inr ⟨rest', rfl, h⟩
        · rintro (⟨hlast, h⟩ | ⟨_, ⟨⟩, h⟩)
          · rw [hlast] at h
            exact pending_cons_of_head h
          · exact h
    · have hne : ¬∃ rest', rest = c :: rest' ∧ Pending (some c) rest' typed := by
        rintro ⟨rest', rfl, -⟩
        exact hnext rfl
      rw [if_neg (mt of_decide_eq_true hnext), isLast_eq hname, Option.bind_some, or_iff_left hne]
      by_cases hlast : front.getLast? = some c
      · obtain ⟨result, hloop, hresult⟩ := ih hname
        refine ⟨result, ?_, hresult.trans (and_iff_right hlast).symm⟩
        rw [if_pos (decide_eq_true hlast), hloop]
      · refine ⟨false, ?_, iff_of_false Bool.false_ne_true fun h ↦ hlast h.1⟩
        rw [if_neg (mt of_decide_eq_true hlast)]
        rfl

/-- Whether what was typed is the name with keys pressed long. -/
theorem isLongPressedName_iff (hname : name.length < 2 ^ 31) (typed : List UInt8) :
    ∃ result, isLongPressedName name typed = some result ∧
      (result = true ↔ LongPressed name typed) := by
  obtain ⟨result, hloop, hresult⟩ := typedLoop_eq (List.nil_append name).symm typed
  refine ⟨result, ?_, hresult.trans pending_none⟩
  rw [isLongPressedName, sizeToInt_of_lt hname]
  exact hloop

theorem isLongPressedName_iff_two :
    ∃ result, isLongPressedName [97, 98] [97, 97, 98] = some result ∧
      (result = true ↔ LongPressed [97, 98] [97, 97, 98]) :=
  isLongPressedName_iff (by decide) [97, 97, 98]

theorem longPressed_self (name : List UInt8) : LongPressed name name := by
  induction name with
  | nil => exact longPressed_nil.mpr rfl
  | cons c name ih => exact longPressed_cons.mpr ⟨name, rfl, [], name, fun _ ↦ nofun, rfl, ih⟩

/-- A name with more characters than an `int` can count is not found in itself. -/
theorem isLongPressedName_overflow :
    ∃ name : List UInt8, name.length = 2 ^ 31 ∧ LongPressed name name ∧
      isLongPressedName name name = some false := by
  obtain ⟨size, hsize⟩ : ∃ size, size + 1 = 2 ^ 31 := ⟨2147483647, rfl⟩
  obtain ⟨name, hname⟩ : ∃ name : List UInt8, name = 97 :: List.replicate size 97 := ⟨_, rfl⟩
  have hlength : name.length = 2 ^ 31 := by
    rw [hname, List.length_cons, List.length_replicate, hsize]
  have hlens : sizeToInt (2 ^ 31) = -2 ^ 31 := by decide
  refine ⟨name, hlength, longPressed_self name, ?_⟩
  rw [isLongPressedName, hlength, hlens, hname, typedLoop]
  rfl

end CppLearn.Leetcode.LongPressedName
