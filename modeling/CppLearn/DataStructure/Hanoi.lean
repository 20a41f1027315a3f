import Mathlib.Algebra.Order.Group.Int
import Mathlib.Algebra.Order.Ring.Nat
import Mathlib.Data.List.Range
import Mathlib.Logic.Function.Basic
import Mathlib.Tactic.Ring

/-!
# The tower of Hanoi

`solv_hanoi` prints a line for every move, numbered by a counter that it counts up. The lines are played
on three pegs, each with its disks, the smallest on top (`play`).

The tower that is moved may stand on larger disks, and so may those it is put on: that is what the
recursion needs of its calls (`Plays`). A counter that has no room for the moves overflows, which
from zero is so for 64 disks and more.
-/

set_option autoImplicit false
set_option relaxedAutoImplicit false

namespace CppLearn.DataStructure.Hanoi

/-! ### The program -/

/-- A line that `solv_hanoi` prints. -/
structure Line where
  nMoves : ℤ
  source : Char
  destination : Char
  deriving DecidableEq

/-- `++n_moves` on a `long long`, undefined where it overflows. -/
def increment (nMoves : ℤ) : Option ℤ := if nMoves + 1 < 2 ^ 63 then some (nMoves + 1) else none

/-- The first branch of `solv_hanoi`, for one disk. -/
def moveTopDisk (nMoves : ℤ) (source destination : Char) : Option (List Line × ℤ) := do
  let nMoves ← increment nMoves
  return ([⟨nMoves, source, destination⟩], nMoves)

/-- `solv_hanoi`: the lines that it prints, and `n_moves` afterwards. For less than one disk it never
returns. The call in the middle is for one disk. -/
def solvHanoi : ℕ → ℤ → Char → Char → Char → Option (List Line × ℤ)
  | 0, _, _, _, _ => none
  | 1, nMoves, source, destination, _ => moveTopDisk nMoves source destination
  | nPieces + 2, nMoves, source, destination, spare => do
    let (before, nMoves) ← solvHanoi (nPieces + 1) nMoves source spare destination
    let (middle, nMoves) ← moveTopDisk nMoves source destination
    let (after, nMoves) ← solvHanoi (nPieces + 1) nMoves spare destination source
    return (before ++ middle ++ after, nMoves)

/-! ### The puzzle -/

/-- The disks on each peg by their sizes, top first. -/
abbrev Pegs := Char → List ℕ

/-- The top disk of one peg put on another, where it lands on no disk that is not larger. -/
def move (pegs : Pegs) (line : Line) : Option Pegs :=
  match pegs line.source with
  | [] => none
  | disk :: rest =>
    if ∀ other ∈ (pegs line.destination).head?, disk < other then
      some (Function.update (Function.update pegs line.source rest) line.destination
        (disk :: pegs line.destination))
    else none

/-- The moves of some lines, all of them legal. -/
def play (pegs : Pegs) (lines : List Line) : Option Pegs := lines.foldlM move pegs

/-- The disks from 1 up to a number. -/
def tower (nPieces : ℕ) : List ℕ := List.range' 1 nPieces

/-- All disks on one peg. -/
def towerOn (peg : Char) (nPieces : ℕ) : Pegs := Function.update (fun _ ↦ []) peg (tower nPieces)

/-- The numbers that follow on one. -/
def numbersAfter (nMoves : ℤ) (count : ℕ) : List ℤ :=
  (List.range count).map fun indx : ℕ ↦ nMoves + 1 + indx

/-- The lines solve the puzzle, and `n_moves` counts them. -/
structure Solution (nPieces : ℕ) (nMoves : ℤ) (source destination : Char) (lines : List Line)
    (last : ℤ) : Prop where
  legal : play (towerOn source nPieces) lines = some (towerOn destination nPieces)
  length_eq : lines.length = 2 ^ nPieces - 1
  numbers : lines.map Line.nMoves = numbersAfter nMoves (2 ^ nPieces - 1)
  last_eq : last = nMoves + (2 ^ nPieces - 1 : ℕ)

/-- `solv_hanoi` returns, with a solution. -/
def Solves (nPieces : ℕ) (nMoves : ℤ) (source destination spare : Char) : Prop :=
  ∃ lines last, solvHanoi nPieces nMoves source destination spare = some (lines, last) ∧
    Solution nPieces nMoves source destination lines last

/-! ### The counter -/

theorem numbersAfter_add (nMoves : ℤ) (count more : ℕ) :
    numbersAfter nMoves (count + more) =
      numbersAfter nMoves count ++ numbersAfter (nMoves + count) more := by
  rw [numbersAfter, List.range_add, List.map_append, List.map_map]
  congr 1
  refine List.map_congr_left fun indx _ ↦ ?_
  rw [Function.comp_apply, Nat.cast_add]
  ring

theorem moveTopDisk_eq {nMoves : ℤ} (hroom : nMoves + 1 < 2 ^ 63) (source destination : Char) :
    moveTopDisk nMoves source destination =
      some ([⟨nMoves + 1, source, destination⟩], nMoves + 1) := by
  rw [moveTopDisk, increment, if_pos hroom]
  rfl

/-- The moves for one disk more. -/
theorem two_pow_moves (nPieces : ℕ) :
    2 ^ (nPieces + 1) - 1 = 2 ^ nPieces - 1 + 1 + (2 ^ nPieces - 1) := by
  have hpos : 0 < 2 ^ nPieces := Nat.two_pow_pos nPieces
  rw [Nat.pow_succ]
  omega

/-! ### Legal moves -/

/-- The disks of a peg are larger than those of a tower. -/
def Above (nPieces : ℕ) (disks : List ℕ) : Prop := ∀ disk ∈ disks, nPieces < disk

/-- Played on pegs on which the lines may be played: a tower on larger disks, and larger disks on the
other pegs, they move the tower and leave all else. -/
def Plays (nPieces : ℕ) (source destination spare : Char) (lines : List Line) : Prop :=
  ∀ (pegs : Pegs) (rest : List ℕ), pegs source = tower nPieces ++ rest → Above nPieces rest →
    Above nPieces (pegs destination) → Above nPieces (pegs spare) →
      play pegs lines = some (Function.update (Function.update pegs source rest) destination
        (tower nPieces ++ pegs destination))

theorem tower_succ (nPieces : ℕ) : tower (nPieces + 1) = tower nPieces ++ [nPieces + 1] := by
  rw [tower, List.range'_concat, tower, Nat.one_mul, Nat.add_comm 1]

theorem Above.mono {nPieces : ℕ} {disks : List ℕ} (h : Above (nPieces + 1) disks) :
    Above nPieces disks := fun disk hdisk ↦ (Nat.lt_succ_self _).trans (h disk hdisk)

theorem Above.cons {nPieces : ℕ} {disks : List ℕ} (h : Above (nPieces + 1) disks) :
    Above nPieces ((nPieces + 1) :: disks) := by
  intro disk hdisk
  rcases List.mem_cons.mp hdisk with rfl | hdisk
  · exact Nat.lt_succ_self _
  · exact h.mono disk hdisk

theorem play_append (pegs : Pegs) (first second : List Line) :
    play pegs (first ++ second) = (play pegs first).bind fun next ↦ play next second :=
  List.foldlM_append

/-- The top disk on a peg of larger ones. -/
theorem move_eq {pegs : Pegs} {disk : ℕ} {rest : List ℕ} {line : Line}
    (hsource : pegs line.source = disk :: rest)
    (hlarger : ∀ other ∈ pegs line.destination, disk < other) :
    move pegs line = some (Function.update (Function.update pegs line.source rest) line.destination
      (disk :: pegs line.destination)) := by
  rw [move, hsource]
  exact if_pos fun other hother ↦ hlarger other (List.mem_of_mem_head? hother)

section Step

variable {nPieces : ℕ} {source destination spare : Char}

theorem plays_one (nMoves : ℤ) : Plays 1 source destination spare [⟨nMoves, source, destination⟩] := by
  intro pegs rest hsource _ hdestination _
  have hmove := @move_eq pegs 1 rest ⟨nMoves, source, destination⟩ hsource hdestination
  rw [play, List.foldlM_cons, hmove]
  rfl

/-- A tower is moved by moving the tower above its last disk aside and back on it. -/
theorem Plays.succ {before after : List Line} (hdistinct : source ≠ destination)
    (hsource : source ≠ spare) (hspare : destination ≠ spare)
    (hbefore : Plays nPieces source spare destination before)
    (hafter : Plays nPieces spare destination source after) (nMoves : ℤ) :
    Plays (nPieces + 1) source destination spare
      (before ++ [⟨nMoves, source, destination⟩] ++ after) := by
  intro pegs rest hpegs hrest hlower habove
  rw [tower_succ, List.append_assoc] at hpegs
  have hfirst := hbefore pegs ((nPieces + 1) :: rest) hpegs hrest.cons habove.mono hlower.mono
  set aside := Function.update (Function.update pegs source ((nPieces + 1) :: rest)) spare
    (tower nPieces ++ pegs spare) with haside
  have hsourceAside : aside source = (nPieces + 1) :: rest := by
    rw [haside, Function.update_of_ne hsource, Function.update_self]
  have hdestinationAside : aside destination = pegs destination := by
    rw [haside, Function.update_of_ne hspare, Function.update_of_ne hdistinct.symm]
  have hmove := @move_eq aside (nPieces + 1) rest ⟨nMoves, source, destination⟩ hsourceAside
    fun other hother ↦ hlower other (hdestinationAside ▸ hother)
  set moved := Function.update (Function.update aside source rest) destination
    ((nPieces + 1) :: aside destination) with hmoved
  have hspareMoved : moved spare = tower nPieces ++ pegs spare := by
    rw [hmoved, Function.update_of_ne hspare.symm, Function.update_of_ne hsource.symm, haside,
      Function.update_self]
  have hdestinationMoved : moved destination = (nPieces + 1) :: pegs destination := by
    rw [hmoved, Function.update_self, hdestinationAside]
  have hsourceMoved : moved source = rest := by
    rw [hmoved, Function.update_of_ne hdistinct, Function.update_self]
  have hlast := hafter moved (pegs spare) hspareMoved habove.mono
    (hdestinationMoved ▸ hlower.cons) (hsourceMoved ▸ hrest.mono)
  rw [play_append, play_append, hfirst, Option.bind_some, play, List.foldlM_cons, hmove]
  refine hlast.trans (congrArg some (funext fun peg ↦ ?_))
  rw [hdestinationMoved]
  by_cases hpeg : peg = destination
  · rw [hpeg, Function.update_self, Function.update_self, tower_succ, List.append_assoc]
    rfl
  · rw [Function.update_of_ne hpeg, Function.update_of_ne hpeg, hmoved]
    by_cases hspare' : peg = spare
    · rw [hspare', Function.update_self, Function.update_of_ne hsource.symm]
    · rw [Function.update_of_ne hspare', Function.update_of_ne hpeg]
      by_cases hsource' : peg = source
      · rw [hsource', Function.update_self, Function.update_self]
      · rw [Function.update_of_ne hsource', Function.update_of_ne hsource', haside,
          Function.update_of_ne hspare', Function.update_of_ne hsource']

end Step

/-! ### Solutions -/

/-- With room for the numbers the lines are numbered one after the other, and move the tower. -/
theorem solvHanoi_spec (nPieces : ℕ) {nMoves : ℤ} {source destination spare : Char}
    (hdistinct : source ≠ destination) (hsource : source ≠ spare) (hspare : destination ≠ spare)
    (hroom : nMoves + (2 ^ (nPieces + 1) - 1 : ℕ) < 2 ^ 63) :
    ∃ lines, solvHanoi (nPieces + 1) nMoves source destination spare =
        some (lines, nMoves + (2 ^ (nPieces + 1) - 1 : ℕ)) ∧
      lines.map Line.nMoves = numbersAfter nMoves (2 ^ (nPieces + 1) - 1) ∧
      Plays (nPieces + 1) source destination spare lines := by
  induction nPieces generalizing nMoves source destination spare with
  | zero =>
    refine ⟨_, moveTopDisk_eq hroom source destination, ?_, plays_one _⟩
    simp [numbersAfter]
  | succ nPieces ih =>
    rw [two_pow_moves] at hroom ⊢
    generalize hcount : 2 ^ (nPieces + 1) - 1 = count at ih hroom ⊢
    push_cast at hroom
    obtain ⟨before, hbefore, hbeforeNumbers, hbeforePlays⟩ :=
      @ih nMoves source spare destination hsource hdistinct hspare.symm (by omega)
    obtain ⟨after, hafter, hafterNumbers, hafterPlays⟩ :=
      @ih (nMoves + count + 1) spare destination source hspare.symm hsource.symm
        hdistinct.symm (by omega)
    have hmiddle := @moveTopDisk_eq (nMoves + count) (by omega) source destination
    refine ⟨before ++ [⟨nMoves + count + 1, source, destination⟩] ++ after, ?_, ?_,
      hbeforePlays.succ hdistinct hsource hspare hafterPlays _⟩
    · rw [solvHanoi, hbefore]
      simp only [Option.bind_eq_bind, Option.bind_some, hmiddle, hafter]
      push_cast
      rw [← add_assoc, ← add_assoc]
      rfl
    · rw [List.map_append, List.map_append, hbeforeNumbers, hafterNumbers, numbersAfter_add,
        numbersAfter_add]
      simp [numbersAfter, add_assoc]

/-- Where `solv_hanoi` returns the counter has had room for all moves. -/
theorem room_of_solvHanoi (nPieces : ℕ) {nMoves last : ℤ} {source destination spare : Char}
    {lines : List Line} (hsolv : solvHanoi (nPieces + 1) nMoves source destination spare =
      some (lines, last)) :
    last = nMoves + (2 ^ (nPieces + 1) - 1 : ℕ) ∧ last < 2 ^ 63 := by
  have hmiddle {nMoves last : ℤ} {source destination : Char} {lines : List Line}
      (hmove : moveTopDisk nMoves source destination = some (lines, last)) :
      last = nMoves + 1 ∧ last < 2 ^ 63 := by
    simp only [moveTopDisk, increment, Option.bind_eq_bind] at hmove
    split_ifs at hmove with hroom
    · cases hmove
      exact ⟨rfl, hroom⟩
    · cases hmove
  induction nPieces generalizing nMoves last source destination spare lines with
  | zero => exact hmiddle hsolv
  | succ nPieces ih =>
    simp only [solvHanoi, Option.bind_eq_bind, Option.bind_eq_some_iff] at hsolv
    obtain ⟨⟨before, first⟩, hbefore, ⟨middle, second⟩, hmove, ⟨after, third⟩, hafter, hreturn⟩ := hsolv
    cases hreturn
    have hfirst := (ih hbefore).1
    have hsecond := (hmiddle hmove).1
    obtain ⟨hlast, hlt⟩ := ih hafter
    rw [two_pow_moves]
    push_cast
    omega

/-- `solv_hanoi` prints a solution for every number of disks for whose moves the counter has room.
Assumes: three pegs, and at least one disk. -/
theorem solves_of_room {nPieces : ℕ} (hpieces : 1 ≤ nPieces) {nMoves : ℤ}
    {source destination spare : Char} (hdistinct : source ≠ destination)
    (hsource : source ≠ spare) (hspare : destination ≠ spare)
    (hroom : nMoves + (2 ^ nPieces - 1 : ℕ) < 2 ^ 63) :
    Solves nPieces nMoves source destination spare := by
  obtain ⟨nPieces, rfl⟩ := Nat.exists_eq_add_of_le' hpieces
  obtain ⟨lines, hsolv, hnumbers, hplays⟩ :=
    solvHanoi_spec nPieces hdistinct hsource hspare hroom
  have hlength := congrArg List.length hnumbers
  rw [List.length_map, numbersAfter, List.length_map, List.length_range] at hlength
  refine ⟨lines, _, hsolv, ⟨?_, hlength, hnumbers, rfl⟩⟩
  have hon : towerOn source (nPieces + 1) source = tower (nPieces + 1) ++ [] := by
    rw [towerOn, Function.update_self, List.append_nil]
  have hempty {peg : Char} (hpeg : peg ≠ source) : towerOn source (nPieces + 1) peg = [] :=
    Function.update_of_ne hpeg ..
  have habove : Above (nPieces + 1) [] := fun _ hdisk ↦ (List.not_mem_nil hdisk).elim
  rw [hplays _ [] hon habove (hempty hdistinct.symm ▸ habove) (hempty hsource.symm ▸ habove),
    hempty hdistinct.symm, List.append_nil, towerOn, towerOn, Function.update_idem]
  congr 2
  exact Function.update_eq_self_iff.mpr rfl

/-- The puzzle that the program solves for three disks. -/
theorem solves_threeDisks : Solves 3 0 'A' 'C' 'B' :=
  solves_of_room (by decide) (by decide) (by decide) (by decide) (by decide)

/-- With 64 disks the counter overflows. -/
theorem not_solves_sixtyFour : ¬ Solves 64 0 'A' 'C' 'B' := by
  rintro ⟨lines, last, hsolv, -⟩
  obtain ⟨hlast, hlt⟩ := room_of_solvHanoi 63 hsolv
  rw [hlast] at hlt
  exact absurd hlt (by decide)

end CppLearn.DataStructure.Hanoi
