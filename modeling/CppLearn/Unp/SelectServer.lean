import CppLearn.Foundation.GuardedRun
import CppLearn.Foundation.ReadySet
import Mathlib.Data.Finset.Union
import Mathlib.Logic.Function.Basic

/-!
# An echo server in one `select`

The server keeps its clients in the array `client` and waits for all of them in one call of `select`.
After it the array is searched up to `maxi`, and the search ends as soon as `nready` descriptors have
been served. `serverStep` takes the loop's statements one by one. An error of `select` itself, which ends
the process, is left out.

Each round serves each descriptor that `select` has reported exactly once, and the descriptors watched
are those of the listener and of all clients (`serves_ready`). The test for too many clients comes too
late: before `client` is full `FD_SET` has been called with a descriptor that `allset` has no bit for
(`in_range_iff`).
-/

set_option autoImplicit false
set_option relaxedAutoImplicit false

namespace CppLearn.Unp.SelectServer

open Foundation.GuardedRun Foundation.ReadySet

/-- `FD_SETSIZE`: the length of `client`, and the number of bits in an `fd_set`. -/
def fdSetsize : ℕ := 1024

/-- Where the server stands: at `select`, before the test of `listenfd`, before the test of `client[i]`;
past `err_quit("too many clients")`, past a call of `FD_SET` with a descriptor out of range, or past
another error. -/
inductive Place
  | selecting
  | listening
  | checking (i : ℕ)
  | tooMany
  | outOfRange
  | failed
  deriving DecidableEq

/-- The variables, where none in `client` is `-1`, the descriptors that are open, and those that have
been served in this round. -/
structure Server where
  place : Place
  client : ℕ → Option ℕ
  maxi : ℤ
  maxfd : ℕ
  allset : Finset ℕ
  rset : Finset ℕ
  nready : ℤ
  opened : Finset ℕ
  served : Finset ℕ

/-- The listening descriptor and those that the process has open besides, all in range. -/
structure Setup where
  listenfd : ℕ
  others : Finset ℕ
  listenfd_lt : listenfd < fdSetsize
  listenfd_notMem : listenfd ∉ others
  others_lt : ∀ fd ∈ others, fd < fdSetsize

/-- The server as it enters its loop. -/
def Server.start (setup : Setup) : Server :=
  { place := .selecting
    client := fun _ ↦ none
    maxi := -1
    maxfd := setup.listenfd
    allset := {setup.listenfd}
    rset := ∅
    nready := 0
    opened := insert setup.listenfd setup.others
    served := ∅ }

/-- `select` reports descriptors; `accept` succeeds or fails; a client has sent bytes, which are written
back, or closed its connection, or reading and writing fail; or a test fails. -/
inductive ServerEvent
  | select (ready : Finset ℕ)
  | accept
  | echo
  | eof
  | fail
  | pass

/-- The first entry of `client` that is available. -/
def firstFree (client : ℕ → Option ℕ) : Option ℕ :=
  firstWhere (fun i ↦ (client i).isNone) fdSetsize

/-- `if (--nready <= 0)` the round is over. -/
def Server.countDown (s : Server) (fd : ℕ) (next : Place) : Server :=
  { s with
    nready := s.nready - 1
    served := insert fd s.served
    place := if s.nready - 1 ≤ 0 then .selecting else next }

/-- A connection is put into the array and into `allset`. -/
def Server.add (s : Server) (i connfd : ℕ) : Server :=
  { s with
    opened := insert connfd s.opened
    client := Function.update s.client i (some connfd)
    allset := insert connfd s.allset
    maxfd := max s.maxfd connfd
    maxi := max s.maxi i }

/-- A connection is closed and taken out of both. -/
def Server.remove (s : Server) (i fd : ℕ) : Server :=
  { s with
    opened := s.opened.erase fd
    allset := s.allset.erase fd
    client := Function.update s.client i none }

/-- A connection is accepted. -/
def acceptStep (setup : Setup) (s : Server) : Server :=
  let connfd := lowest s.opened
  match firstFree s.client with
  | none => { s with opened := insert connfd s.opened, place := .tooMany }
  | some i =>
    if connfd < fdSetsize then (s.add i connfd).countDown setup.listenfd (.checking 0)
    else
      { s with
        opened := insert connfd s.opened
        client := Function.update s.client i (some connfd)
        place := .outOfRange }

/-- The statements of the second loop for a client that is ready. -/
def readStep (s : Server) (i fd : ℕ) : ServerEvent → Option Server
  | .echo => some (s.countDown fd (.checking (i + 1)))
  | .eof => some ((s.remove i fd).countDown fd (.checking (i + 1)))
  | .fail => some { s with place := .failed }
  | _ => none

/-- A test fails. -/
def passTo (s : Server) (place : Place) : ServerEvent → Option Server
  | .pass => some { s with place := place }
  | _ => none

/-- A round of the second loop. -/
def checkStep (s : Server) (i : ℕ) (event : ServerEvent) : Option Server :=
  if i ≤ s.maxi then
    match s.client i with
    | none => passTo s (.checking (i + 1)) event
    | some fd =>
      if fd ∈ s.rset then readStep s i fd event else passTo s (.checking (i + 1)) event
  else passTo s .selecting event

/-- One step of the server. -/
def serverStep (setup : Setup) (s : Server) (event : ServerEvent) : Option Server :=
  match s.place, event with
  | .selecting, .select ready =>
    if ready ⊆ s.allset ∧ (∀ fd ∈ ready, fd ≤ s.maxfd) ∧ ready.Nonempty then
      some { s with place := .listening, rset := ready, nready := ready.card, served := ∅ }
    else none
  | .listening, .accept => if setup.listenfd ∈ s.rset then some (acceptStep setup s) else none
  | .listening, .fail => if setup.listenfd ∈ s.rset then some { s with place := .failed } else none
  | .listening, .pass => if setup.listenfd ∈ s.rset then none else some { s with place := .checking 0 }
  | .checking i, event => checkStep s i event
  | _, _ => none

/-! ### The moves -/

/-- What a step can be. -/
inductive ServerMove (setup : Setup) (s : Server) : ServerEvent → Server → Prop
  | select (ready : Finset ℕ) (hplace : s.place = .selecting) (hsubset : ready ⊆ s.allset) :
      ServerMove setup s (.select ready)
        { s with place := .listening, rset := ready, nready := ready.card, served := ∅ }
  | accept (hplace : s.place = .listening) (hready : setup.listenfd ∈ s.rset) :
      ServerMove setup s .accept (acceptStep setup s)
  | notListening (hplace : s.place = .listening) (hready : setup.listenfd ∉ s.rset) :
      ServerMove setup s .pass { s with place := .checking 0 }
  | skip (i : ℕ) (hplace : s.place = .checking i) (hskip : ∀ fd ∈ s.client i, fd ∉ s.rset) :
      ServerMove setup s .pass { s with place := .checking (i + 1) }
  | finish (i : ℕ) (hplace : s.place = .checking i) (hlt : s.maxi < i) :
      ServerMove setup s .pass { s with place := .selecting }
  | echo (i fd : ℕ) (hplace : s.place = .checking i) (hclient : s.client i = some fd)
      (hready : fd ∈ s.rset) :
      ServerMove setup s .echo (s.countDown fd (.checking (i + 1)))
  | eof (i fd : ℕ) (hplace : s.place = .checking i) (hclient : s.client i = some fd)
      (hready : fd ∈ s.rset) :
      ServerMove setup s .eof ((s.remove i fd).countDown fd (.checking (i + 1)))
  | fail (hplace : s.place = .listening ∨ ∃ i, s.place = .checking i) :
      ServerMove setup s .fail { s with place := .failed }

variable {setup : Setup} {s next : Server} {event : ServerEvent}

theorem serverMove_of_checkStep {i : ℕ} (hplace : s.place = .checking i)
    (htaken : checkStep s i event = some next) : ServerMove setup s event next := by
  have hpass {place : Place} (hpassed : passTo s place event = some next) :
      event = .pass ∧ next = { s with place := place } := by
    cases event with
    | pass => exact ⟨rfl, (Option.some.inj hpassed).symm⟩
    | _ => cases hpassed
  simp only [checkStep] at htaken
  split_ifs at htaken with hle
  · split at htaken
    · next hclient =>
      obtain ⟨rfl, rfl⟩ := hpass htaken
      exact .skip i hplace fun fd hfd ↦ by simp only [hclient, Option.mem_def, reduceCtorEq] at hfd
    · next fd hclient =>
      split_ifs at htaken with hready
      · cases event with
        | echo =>
          obtain rfl := Option.some.inj htaken
          exact .echo i fd hplace hclient hready
        | eof =>
          obtain rfl := Option.some.inj htaken
          exact .eof i fd hplace hclient hready
        | fail =>
          obtain rfl := Option.some.inj htaken
          exact .fail (.inr ⟨i, hplace⟩)
        | _ => cases htaken
      · obtain ⟨rfl, rfl⟩ := hpass htaken
        refine .skip i hplace fun other hother ↦ ?_
        obtain rfl := Option.some.inj (hclient.symm.trans hother)
        exact hready
  · obtain ⟨rfl, rfl⟩ := hpass htaken
    exact .finish i hplace (Int.not_le.mp hle)

theorem serverMove_of_serverStep (htaken : serverStep setup s event = some next) :
    ServerMove setup s event next := by
  simp only [serverStep] at htaken
  split at htaken
  · next ready hplace =>
    split_ifs at htaken with hready
    cases htaken
    exact .select ready hplace hready.1
  · next hplace =>
    split_ifs at htaken with hready
    obtain rfl := Option.some.inj htaken
    exact .accept hplace hready
  · next hplace =>
    split_ifs at htaken
    cases htaken
    exact .fail (.inl hplace)
  · next hplace =>
    split_ifs at htaken with hready
    cases htaken
    exact .notListening hplace hready
  · next i hplace => exact serverMove_of_checkStep hplace htaken
  · cases htaken

/-! ### What every step preserves -/

/-- The clients in the array, the descriptors watched and those that are open. -/
structure Tabled (setup : Setup) (s : Server) : Prop where
  injective : ∀ i j fd, s.client i = some fd → s.client j = some fd → i = j
  index_le : ∀ i fd, s.client i = some fd → i ≤ s.maxi ∧ i < fdSetsize
  client_ne : ∀ i fd, s.client i = some fd → fd ≠ setup.listenfd ∧ fd ∉ setup.others
  allset_iff : ∀ fd, fd ∈ s.allset ↔ fd = setup.listenfd ∨ ∃ i, s.client i = some fd
  opened_iff : ∀ fd, fd ∈ s.opened ↔ fd ∈ setup.others ∨ fd ∈ s.allset
  le_maxfd : ∀ fd ∈ s.allset, fd ≤ s.maxfd
  opened_lt : ∀ fd ∈ s.opened, fd < fdSetsize

/-- What has been served, and what is still to be found in the array. -/
structure Round (s : Server) : Prop where
  selecting : s.place = .selecting → s.served = s.rset
  listening : s.place = .listening →
    s.served = ∅ ∧ s.nready = s.rset.card ∧ s.rset ⊆ s.allset
  checking : ∀ i, s.place = .checking i → Counted s.rset s.served s.nready ∧
    (∀ fd ∈ s.rset, fd ∉ s.served → ∃ j, i ≤ j ∧ s.client j = some fd) ∧
    ∀ j fd, i ≤ j → s.client j = some fd → fd ∉ s.served

theorem Round.of_selecting (hplace : s.place = .selecting) (hserved : s.served = s.rset) : Round s where
  selecting _ := hserved
  listening heq := by cases hplace.symm.trans heq
  checking i heq := by cases hplace.symm.trans heq

theorem Round.of_listening (hplace : s.place = .listening) (hserved : s.served = ∅)
    (hnready : s.nready = s.rset.card) (hsubset : s.rset ⊆ s.allset) : Round s where
  selecting heq := by cases hplace.symm.trans heq
  listening _ := ⟨hserved, hnready, hsubset⟩
  checking i heq := by cases hplace.symm.trans heq

theorem Round.of_checking {i : ℕ} (hplace : s.place = .checking i)
    (hcounted : Counted s.rset s.served s.nready)
    (hrest : ∀ fd ∈ s.rset, fd ∉ s.served → ∃ j, i ≤ j ∧ s.client j = some fd)
    (hlater : ∀ j fd, i ≤ j → s.client j = some fd → fd ∉ s.served) : Round s where
  selecting heq := by cases hplace.symm.trans heq
  listening heq := by cases hplace.symm.trans heq
  checking j heq := by
    cases hplace.symm.trans heq
    exact ⟨hcounted, hrest, hlater⟩

theorem Round.of_failed (hplace : s.place = .failed) : Round s where
  selecting heq := by cases hplace.symm.trans heq
  listening heq := by cases hplace.symm.trans heq
  checking i heq := by cases hplace.symm.trans heq

/-- The state of a server that has not written out of range. -/
structure Consistent (setup : Setup) (s : Server) : Prop where
  tabled : Tabled setup s
  round : Round s
  place_ne : s.place ≠ .tooMany ∧ s.place ≠ .outOfRange

theorem Consistent.start (setup : Setup) : Consistent setup (.start setup) where
  tabled :=
    { injective := fun i j fd hfd ↦ (by cases hfd)
      index_le := fun i fd hfd ↦ (by cases hfd)
      client_ne := fun i fd hfd ↦ (by cases hfd)
      allset_iff := fun fd ↦ (by
        simp only [Server.start, Finset.mem_singleton, reduceCtorEq, exists_const, or_false])
      opened_iff := fun fd ↦ (by
        simp only [Server.start, Finset.mem_insert, Finset.mem_singleton, or_comm])
      le_maxfd := fun fd hfd ↦ Nat.le_of_eq (Finset.mem_singleton.mp hfd)
      opened_lt := fun fd hfd ↦ (by
        rcases Finset.mem_insert.mp hfd with rfl | hother
        · exact setup.listenfd_lt
        · exact setup.others_lt fd hother) }
  round :=
    { selecting := fun _ ↦ rfl
      listening := fun hplace ↦ (by cases hplace)
      checking := fun i hplace ↦ (by cases hplace) }
  place_ne := ⟨(by intro hplace; cases hplace), (by intro hplace; cases hplace)⟩

/-- A descriptor is served, and the rest is in the array from `i` on. -/
theorem round_countDown {i fd : ℕ} (hcounted : Counted s.rset s.served s.nready) (hready : fd ∈ s.rset)
    (hserved : fd ∉ s.served)
    (hrest : ∀ other ∈ s.rset, other ∉ insert fd s.served → ∃ j, i ≤ j ∧ s.client j = some other)
    (hlater : ∀ j other, i ≤ j → s.client j = some other → other ∉ insert fd s.served) :
    Round (s.countDown fd (.checking i)) := by
  have hcounted' := hcounted.serve hready hserved
  by_cases hle : s.nready - 1 ≤ 0
  · exact .of_selecting (if_pos hle) (hcounted'.served_eq hle)
  · exact .of_checking (if_neg hle) hcounted' hrest hlater

theorem countDown_place_ne {fd i : ℕ} : (s.countDown fd (.checking i)).place ≠ .tooMany ∧
    (s.countDown fd (.checking i)).place ≠ .outOfRange := by
  simp only [Server.countDown]
  split_ifs <;> exact ⟨(by intro hplace; cases hplace), (by intro hplace; cases hplace)⟩

/-- The first free entry is free, and not beyond the array. -/
theorem firstFree_spec {client : ℕ → Option ℕ} {i : ℕ} (hfree : firstFree client = some i) :
    client i = none ∧ i < fdSetsize := by
  obtain ⟨hnone, hlt⟩ := firstWhere_eq_some hfree
  exact ⟨Option.isNone_iff_eq_none.mp hnone, hlt⟩

/-- The entries of the array that are in use. -/
def used (s : Server) : Finset ℕ := (Finset.range fdSetsize).filter fun i ↦ (s.client i).isSome

theorem mem_used {i : ℕ} : i ∈ used s ↔ i < fdSetsize ∧ ∃ fd, s.client i = some fd := by
  rw [used, Finset.mem_filter, Finset.mem_range, Option.isSome_iff_exists]

/-- The open descriptors are the listener, one for each entry that is in use, and the others. -/
theorem Tabled.card_opened (tabled : Tabled setup s) :
    s.opened.card = (used s).card + 1 + setup.others.card := by
  have hset : s.allset = insert setup.listenfd ((used s).image fun i ↦ (s.client i).getD 0) := by
    ext fd
    rw [tabled.allset_iff, Finset.mem_insert, Finset.mem_image]
    refine or_congr_right ⟨?_, ?_⟩
    · rintro ⟨i, hclient⟩
      exact ⟨i, mem_used.mpr ⟨(tabled.index_le i fd hclient).2, fd, hclient⟩, by rw [hclient]; rfl⟩
    · rintro ⟨i, hi, hfd⟩
      obtain ⟨-, other, hother⟩ := mem_used.mp hi
      rw [hother] at hfd
      exact ⟨i, hfd ▸ hother⟩
  have hinjective : Set.InjOn (fun i ↦ (s.client i).getD 0) (used s) := by
    intro i hi j hj heq
    obtain ⟨-, fd, hfd⟩ := mem_used.mp hi
    obtain ⟨-, other, hother⟩ := mem_used.mp hj
    simp only [hfd, hother, Option.getD_some] at heq
    exact tabled.injective i j fd hfd (heq ▸ hother)
  have hlisten : setup.listenfd ∉ (used s).image fun i ↦ (s.client i).getD 0 := by
    intro hmem
    obtain ⟨i, hi, hfd⟩ := Finset.mem_image.mp hmem
    obtain ⟨-, other, hother⟩ := mem_used.mp hi
    rw [hother] at hfd
    exact (tabled.client_ne i other hother).1 hfd
  have hdisjoint : Disjoint s.allset setup.others := by
    refine Finset.disjoint_left.mpr fun fd hfd hother ↦ ?_
    rcases (tabled.allset_iff fd).mp hfd with rfl | ⟨i, hclient⟩
    · exact setup.listenfd_notMem hother
    · exact (tabled.client_ne i fd hclient).2 hother
  have hopened : s.opened = s.allset ∪ setup.others := by
    ext fd
    rw [tabled.opened_iff, Finset.mem_union, or_comm]
  rw [hopened, Finset.card_union_of_disjoint hdisjoint, hset, Finset.card_insert_of_notMem hlisten,
    Finset.card_image_of_injOn hinjective]

/-- As long as all descriptors are in range there is a free entry. -/
theorem Tabled.exists_firstFree (tabled : Tabled setup s) : ∃ i, firstFree s.client = some i := by
  cases hfree : firstFree s.client with
  | some i => exact ⟨i, rfl⟩
  | none =>
    have hall : Finset.range fdSetsize ⊆ used s := by
      intro i hi
      have hlt := Finset.mem_range.mp hi
      have hsome := Option.isNone_eq_false_iff.mp (firstWhere_eq_none hfree hlt)
      exact mem_used.mpr ⟨hlt, Option.isSome_iff_exists.mp hsome⟩
    have hopened : s.opened ⊆ Finset.range fdSetsize :=
      fun fd hfd ↦ Finset.mem_range.mpr (tabled.opened_lt fd hfd)
    have hge := Finset.card_le_card hall
    have hle := Finset.card_le_card hopened
    have hcard := tabled.card_opened
    omega

theorem update_some_iff {client : ℕ → Option ℕ} {i j fd connfd : ℕ} :
    Function.update client i (some connfd) j = some fd ↔
      j = i ∧ connfd = fd ∨ j ≠ i ∧ client j = some fd := by
  by_cases hj : j = i
  · subst hj
    simp only [Function.update_self, Option.some.injEq, true_and, ne_eq, not_true_eq_false, false_and,
      or_false]
  · simp only [Function.update_of_ne hj, hj, false_and, ne_eq, not_false_eq_true, true_and, false_or]

theorem update_none_iff {client : ℕ → Option ℕ} {i j fd : ℕ} :
    Function.update client i none j = some fd ↔ j ≠ i ∧ client j = some fd := by
  by_cases hj : j = i
  · subst hj
    simp only [Function.update_self, reduceCtorEq, ne_eq, not_true_eq_false, false_and]
  · simp only [Function.update_of_ne hj, ne_eq, hj, not_false_eq_true, true_and]

/-- A connection is put into the array. -/
theorem Tabled.add {i : ℕ} (tabled : Tabled setup s) (hfree : firstFree s.client = some i)
    (hlt : lowest s.opened < fdSetsize) : Tabled setup (s.add i (lowest s.opened)) := by
  obtain ⟨hnone, hi⟩ := firstFree_spec hfree
  have hnew : lowest s.opened ∉ s.opened := lowest_notMem s.opened
  generalize lowest s.opened = connfd at hnew hlt ⊢
  have hfresh : ∀ j fd, s.client j = some fd → fd ≠ connfd := fun j fd hclient heq ↦
    hnew (heq ▸ (tabled.opened_iff fd).mpr (.inr ((tabled.allset_iff fd).mpr (.inr ⟨j, hclient⟩))))
  refine ⟨fun j k fd hj hk ↦ ?_, fun j fd hj ↦ ?_, fun j fd hj ↦ ?_, fun fd ↦ ?_, fun fd ↦ ?_,
    fun fd hfd ↦ ?_, fun fd hfd ↦ ?_⟩
  · rcases update_some_iff.mp hj with ⟨hji, hjfd⟩ | ⟨-, hjold⟩ <;>
      rcases update_some_iff.mp hk with ⟨hki, hkfd⟩ | ⟨-, hkold⟩
    · exact hji.trans hki.symm
    · exact (hfresh k fd hkold hjfd.symm).elim
    · exact (hfresh j fd hjold hkfd.symm).elim
    · exact tabled.injective j k fd hjold hkold
  · rcases update_some_iff.mp hj with ⟨rfl, rfl⟩ | ⟨-, hj⟩
    · exact ⟨le_max_right .., hi⟩
    · exact ⟨(tabled.index_le j fd hj).1.trans (le_max_left ..), (tabled.index_le j fd hj).2⟩
  · rcases update_some_iff.mp hj with ⟨rfl, rfl⟩ | ⟨-, hj⟩
    · refine ⟨fun heq ↦ hnew ?_, fun hmem ↦ hnew ((tabled.opened_iff _).mpr (.inl hmem))⟩
      exact (tabled.opened_iff _).mpr (.inr ((tabled.allset_iff _).mpr (.inl heq)))
    · exact tabled.client_ne j fd hj
  · rw [Server.add, Finset.mem_insert, tabled.allset_iff]
    constructor
    · rintro (rfl | hlisten | ⟨j, hj⟩)
      · exact .inr ⟨i, update_some_iff.mpr (.inl ⟨rfl, rfl⟩)⟩
      · exact .inl hlisten
      · refine .inr ⟨j, update_some_iff.mpr (.inr ⟨fun heq ↦ ?_, hj⟩)⟩
        rw [heq, hnone] at hj
        cases hj
    · rintro (hlisten | ⟨j, hj⟩)
      · exact .inr (.inl hlisten)
      · rcases update_some_iff.mp hj with ⟨-, rfl⟩ | ⟨-, hj⟩
        · exact .inl rfl
        · exact .inr (.inr ⟨j, hj⟩)
  · rw [Server.add, Finset.mem_insert, Finset.mem_insert, tabled.opened_iff, or_left_comm]
  · rcases Finset.mem_insert.mp hfd with rfl | hfd
    · exact le_max_right ..
    · exact (tabled.le_maxfd fd hfd).trans (le_max_left ..)
  · rcases Finset.mem_insert.mp hfd with rfl | hfd
    · exact hlt
    · exact tabled.opened_lt fd hfd

/-- A connection is taken out of the array. -/
theorem Tabled.remove {i fd : ℕ} (tabled : Tabled setup s) (hclient : s.client i = some fd) :
    Tabled setup (s.remove i fd) := by
  obtain ⟨hlisten, hothers⟩ := tabled.client_ne i fd hclient
  refine ⟨fun j k other hj hk ↦ ?_, fun j other hj ↦ ?_, fun j other hj ↦ ?_, fun other ↦ ?_,
    fun other ↦ ?_, fun other hother ↦ ?_, fun other hother ↦ ?_⟩
  · exact tabled.injective j k other (update_none_iff.mp hj).2 (update_none_iff.mp hk).2
  · exact tabled.index_le j other (update_none_iff.mp hj).2
  · exact tabled.client_ne j other (update_none_iff.mp hj).2
  · rw [Server.remove, Finset.mem_erase, tabled.allset_iff]
    constructor
    · rintro ⟨hne, hother | ⟨j, hj⟩⟩
      · exact .inl hother
      · refine .inr ⟨j, update_none_iff.mpr ⟨fun heq ↦ hne ?_, hj⟩⟩
        exact Option.some.inj ((heq ▸ hj).symm.trans hclient)
    · rintro (rfl | ⟨j, hj⟩)
      · exact ⟨hlisten.symm, .inl rfl⟩
      · obtain ⟨hne, hj⟩ := update_none_iff.mp hj
        exact ⟨fun heq ↦ hne (tabled.injective j i fd (heq ▸ hj) hclient), .inr ⟨j, hj⟩⟩
  · rw [Server.remove, Finset.mem_erase, Finset.mem_erase, tabled.opened_iff]
    constructor
    · rintro ⟨hne, hother | hmem⟩
      · exact .inl hother
      · exact .inr ⟨hne, hmem⟩
    · rintro (hother | ⟨hne, hmem⟩)
      · exact ⟨fun heq ↦ hothers (heq ▸ hother), .inl hother⟩
      · exact ⟨hne, .inr hmem⟩
  · exact tabled.le_maxfd other (Finset.mem_of_mem_erase hother)
  · exact tabled.opened_lt other (Finset.mem_of_mem_erase hother)

theorem Tabled.countDown {fd : ℕ} {place : Place} (tabled : Tabled setup s) :
    Tabled setup (s.countDown fd place) :=
  ⟨tabled.injective, tabled.index_le, tabled.client_ne, tabled.allset_iff, tabled.opened_iff,
    tabled.le_maxfd, tabled.opened_lt⟩

theorem Tabled.at {place : Place} (tabled : Tabled setup s) : Tabled setup { s with place := place } :=
  ⟨tabled.injective, tabled.index_le, tabled.client_ne, tabled.allset_iff, tabled.opened_iff,
    tabled.le_maxfd, tabled.opened_lt⟩

/-- A new descriptor that is in range is put into the array and watched. -/
theorem consistent_acceptStep (consistent : Consistent setup s) (hplace : s.place = .listening)
    (hready : setup.listenfd ∈ s.rset) (hlt : lowest s.opened < fdSetsize) :
    Consistent setup (acceptStep setup s) := by
  have tabled := consistent.tabled
  obtain ⟨i, hfree⟩ := tabled.exists_firstFree
  have hnone := (firstFree_spec hfree).1
  obtain ⟨hserved, hnready, hsubset⟩ := consistent.round.listening hplace
  have hstep : acceptStep setup s =
      (s.add i (lowest s.opened)).countDown setup.listenfd (.checking 0) := by
    unfold acceptStep
    rw [hfree]
    exact if_pos hlt
  rw [hstep]
  refine ⟨(tabled.add hfree hlt).countDown, ?_, countDown_place_ne⟩
  have hcounted : Counted s.rset s.served s.nready := by
    rw [hserved, hnready]
    exact .start s.rset
  refine round_countDown hcounted hready (hserved ▸ Finset.notMem_empty _) ?_ ?_
  · intro other hother hnot
    have hne : other ≠ setup.listenfd := fun heq ↦ hnot (heq ▸ Finset.mem_insert_self ..)
    rcases (tabled.allset_iff other).mp (hsubset hother) with heq | ⟨j, hj⟩
    · exact (hne heq).elim
    · refine ⟨j, Nat.zero_le _, update_some_iff.mpr (.inr ⟨fun heq ↦ ?_, hj⟩)⟩
      rw [heq, hnone] at hj
      cases hj
  · intro j other _ hj hmem
    have hother := ((tabled.add hfree hlt).client_ne j other hj).1
    rcases Finset.mem_insert.mp hmem with heq | hmem
    · exact hother heq
    · rw [Server.add, hserved] at hmem
      exact Finset.notMem_empty _ hmem

/-- One that is not is the end. -/
theorem place_acceptStep (tabled : Tabled setup s) (hge : fdSetsize ≤ lowest s.opened) :
    (acceptStep setup s).place = .outOfRange := by
  obtain ⟨i, hfree⟩ := tabled.exists_firstFree
  unfold acceptStep
  rw [hfree]
  exact congrArg Server.place (if_neg (Nat.not_lt.mpr hge))

/-- The number of clients leaves a descriptor in range for one more. -/
def roomy (setup : Setup) (s : Server) : ServerEvent → Prop
  | .accept => (used s).card + 1 + setup.others.card < fdSetsize
  | _ => True

/-- After a client that is ready has been served, the others that are ready are behind it. -/
theorem Round.behind {i fd : ℕ} (tabled : Tabled setup s) (round : Round s)
    (hplace : s.place = .checking i) (hclient : s.client i = some fd) :
    (∀ other ∈ s.rset, other ∉ insert fd s.served →
        ∃ j, i + 1 ≤ j ∧ j ≠ i ∧ s.client j = some other) ∧
      ∀ j other, i + 1 ≤ j → s.client j = some other → other ∉ insert fd s.served := by
  obtain ⟨-, hrest, hlater⟩ := round.checking i hplace
  constructor
  · intro other hother hnot
    obtain ⟨hne, hserved⟩ := not_or.mp (Finset.mem_insert.not.mp hnot)
    obtain ⟨j, hle, hj⟩ := hrest other hother hserved
    have hji : j ≠ i := fun heq ↦ hne (Option.some.inj ((heq ▸ hj).symm.trans hclient))
    exact ⟨j, by omega, hji, hj⟩
  · intro j other hle hj hmem
    rcases Finset.mem_insert.mp hmem with rfl | hmem
    · have hji := tabled.injective j i other hj hclient
      omega
    · exact hlater j other (by omega) hj hmem

theorem consistent_serverMove (consistent : Consistent setup s) (hmove : ServerMove setup s event next) :
    (next.place ≠ .outOfRange ↔ roomy setup s event) ∧
      (roomy setup s event → Consistent setup next) := by
  obtain ⟨tabled, round, hplaces⟩ := consistent
  have hkeeps (hroomy : roomy setup s event = True) (hnext : Consistent setup next) :
      (next.place ≠ .outOfRange ↔ roomy setup s event) ∧
        (roomy setup s event → Consistent setup next) := by
    rw [hroomy]
    exact ⟨⟨fun _ ↦ trivial, fun _ ↦ hnext.place_ne.2⟩, fun _ ↦ hnext⟩
  cases hmove with
  | select ready hplace hsubset =>
    refine hkeeps rfl ⟨⟨tabled.injective, tabled.index_le, tabled.client_ne, tabled.allset_iff,
      tabled.opened_iff, tabled.le_maxfd, tabled.opened_lt⟩, ?_, ?_⟩
    · exact .of_listening rfl rfl rfl hsubset
    · exact ⟨fun heq ↦ (by cases heq), fun heq ↦ (by cases heq)⟩
  | accept hplace hready =>
    have hroomy : roomy setup s .accept ↔ lowest s.opened < fdSetsize := by
      rw [lowest_lt_iff tabled.opened_lt, tabled.card_opened, roomy]
    have hconsistent := consistent_acceptStep ⟨tabled, round, hplaces⟩ hplace hready
    rw [hroomy]
    refine ⟨⟨fun hne ↦ ?_, fun hlt ↦ (hconsistent hlt).place_ne.2⟩, hconsistent⟩
    exact Nat.not_le.mp fun hge ↦ hne (place_acceptStep tabled hge)
  | notListening hplace hready =>
    obtain ⟨hserved, hnready, hsubset⟩ := round.listening hplace
    refine hkeeps rfl ⟨tabled.at, ?_, ?_⟩
    · refine .of_checking rfl ?_ (fun fd hfd _ ↦ ?_) fun j fd _ _ hmem ↦ ?_
      · rw [hserved, hnready]
        exact .start s.rset
      · rcases (tabled.allset_iff fd).mp (hsubset hfd) with rfl | ⟨j, hj⟩
        · exact (hready hfd).elim
        · exact ⟨j, Nat.zero_le j, hj⟩
      · rw [hserved] at hmem
        exact Finset.notMem_empty _ hmem
    · exact ⟨fun heq ↦ (by cases heq), fun heq ↦ (by cases heq)⟩
  | skip i hplace hskip =>
    obtain ⟨hcounted, hrest, hlater⟩ := round.checking i hplace
    refine hkeeps rfl ⟨tabled.at, ?_, ?_⟩
    · refine .of_checking rfl hcounted (fun fd hfd hserved ↦ ?_)
        fun j fd hle hj ↦ hlater j fd (by omega) hj
      obtain ⟨j, hle, hj⟩ := hrest fd hfd hserved
      have hji : j ≠ i := fun heq ↦ hskip fd (heq ▸ hj) hfd
      exact ⟨j, by omega, hj⟩
    · exact ⟨fun heq ↦ (by cases heq), fun heq ↦ (by cases heq)⟩
  | finish i hplace hlt =>
    obtain ⟨hcounted, hrest, -⟩ := round.checking i hplace
    refine hkeeps rfl ⟨tabled.at, ?_, ?_⟩
    · refine .of_selecting rfl (hcounted.served_eq_of_forall fun fd hfd ↦ ?_)
      by_contra hserved
      obtain ⟨j, hle, hj⟩ := hrest fd hfd hserved
      have hindex := (tabled.index_le j fd hj).1
      omega
    · exact ⟨fun heq ↦ (by cases heq), fun heq ↦ (by cases heq)⟩
  | echo i fd hplace hclient hready =>
    obtain ⟨hcounted, -, hlater⟩ := round.checking i hplace
    obtain ⟨hrest, hbehind⟩ := round.behind tabled hplace hclient
    refine hkeeps rfl ⟨tabled.countDown, ?_, countDown_place_ne⟩
    refine round_countDown hcounted hready (hlater i fd (Nat.le_refl i) hclient)
      (fun other hother hnot ↦ ?_) hbehind
    obtain ⟨j, hle, -, hj⟩ := hrest other hother hnot
    exact ⟨j, hle, hj⟩
  | eof i fd hplace hclient hready =>
    obtain ⟨hcounted, -, hlater⟩ := round.checking i hplace
    obtain ⟨hrest, hbehind⟩ := round.behind tabled hplace hclient
    refine hkeeps rfl ⟨(tabled.remove hclient).countDown, ?_, countDown_place_ne⟩
    have hremoved : Counted (s.remove i fd).rset (s.remove i fd).served (s.remove i fd).nready := hcounted
    refine round_countDown hremoved hready (hlater i fd (Nat.le_refl i) hclient)
      (fun other hother hnot ↦ ?_) fun j other hle hj ↦ hbehind j other hle (update_none_iff.mp hj).2
    obtain ⟨j, hle, hne, hj⟩ := hrest other hother hnot
    exact ⟨j, hle, update_none_iff.mpr ⟨hne, hj⟩⟩
  | fail hplace =>
    exact hkeeps rfl ⟨tabled.at, .of_failed rfl, fun heq ↦ (by cases heq), fun heq ↦ (by cases heq)⟩

/-- A descriptor out of range is the end. -/
theorem not_serverMove (hplace : s.place = .outOfRange) : ¬ ServerMove setup s event next := by
  intro hmove
  cases hmove with
  | select _ hat | accept hat | notListening hat | skip _ hat | finish _ hat | echo _ _ hat
  | eof _ _ hat => cases hplace.symm.trans hat
  | fail hat =>
    rcases hat with hat | ⟨i, hat⟩
    · cases hplace.symm.trans hat
    · cases hplace.symm.trans hat

/-- No descriptor has been out of range. -/
def InRange (s : Server) : Prop := s.place ≠ .outOfRange

instance (s : Server) : Decidable (InRange s) := inferInstanceAs (Decidable (_ ≠ _))

theorem consistent_of_run (hrun : Reachable (serverStep setup) (.start setup) s) (hrange : InRange s) :
    Consistent setup s := by
  induction hrun with
  | refl => exact .start setup
  | @tail state next event _ _ htaken ih =>
    have hmove := serverMove_of_serverStep htaken
    have hbefore : InRange state := fun hplace ↦ not_serverMove hplace hmove
    obtain ⟨hiff, hnext⟩ := consistent_serverMove (ih hbefore) hmove
    exact hnext (hiff.mp hrange)

/-! ### Results -/

/-- Assumes: no descriptor has been out of range. At `select` exactly those that it has reported before
have been served; while the array is searched, those at `i` and behind it have not been, so that each is
served once. The descriptors watched are the listener and the clients, none of them is above `maxfd`, no
entry of the array that is in use is behind `maxi`, and no others are open but those open at first. -/
theorem serves_ready (hrun : Reachable (serverStep setup) (.start setup) s)
    (hrange : InRange s) :
    (s.place = .selecting → s.served = s.rset) ∧
      (∀ i j fd, s.place = .checking i → i ≤ j → s.client j = some fd → fd ∉ s.served) ∧
      (∀ fd, fd ∈ s.allset ↔ fd = setup.listenfd ∨ ∃ i : ℕ, i ≤ s.maxi ∧ s.client i = some fd) ∧
      (∀ (i : ℕ) fd, s.client i = some fd → (i : ℤ) ≤ s.maxi) ∧
      (∀ fd ∈ s.allset, fd ≤ s.maxfd) ∧ ∀ fd, fd ∈ s.opened ↔ fd ∈ setup.others ∨ fd ∈ s.allset := by
  obtain ⟨tabled, round, -⟩ := consistent_of_run hrun hrange
  refine ⟨round.selecting, fun i j fd hplace ↦ (round.checking i hplace).2.2 j fd, fun fd ↦ ?_,
    fun i fd hi ↦ (tabled.index_le i fd hi).1, tabled.le_maxfd, tabled.opened_iff⟩
  rw [tabled.allset_iff]
  refine or_congr_right ⟨?_, ?_⟩
  · rintro ⟨i, hi⟩
    exact ⟨i, (tabled.index_le i fd hi).1, hi⟩
  · rintro ⟨i, -, hi⟩
    exact ⟨i, hi⟩

/-- The listener is 3, and the first three descriptors are open. -/
def standardSetup : Setup where
  listenfd := 3
  others := {0, 1, 2}
  listenfd_lt := by decide
  listenfd_notMem := by decide
  others_lt := by decide

/-- A client connects and sends a line. -/
def oneLine : List ServerEvent := [.select {3}, .accept, .select {4}, .pass, .echo]

/-- The server after these events. -/
def after (events : List ServerEvent) : Server :=
  (execute (serverStep standardSetup) anyEvent (.start standardSetup) events).getD
    (.start standardSetup)

theorem run_after {events : List ServerEvent}
    (hsome : (execute (serverStep standardSetup) anyEvent (.start standardSetup) events).isSome = true) :
    Reachable (serverStep standardSetup) (.start standardSetup) (after events) := by
  obtain ⟨s, hs⟩ := Option.isSome_iff_exists.mp hsome
  rw [after, hs]
  exact run_of_execute hs

theorem serves_ready_oneLine :
    (after oneLine).served = (after oneLine).rset ∧ (after oneLine).rset = {4} :=
  ⟨(serves_ready (run_after (by decide)) (by decide)).1 (by decide), by decide⟩

/-- The test for too many clients never succeeds. The server stays clear of `FD_SET` with a descriptor
out of range exactly in the runs in which each connection is accepted while the clients and the other
open descriptors are fewer than `FD_SETSIZE`. -/
theorem in_range_iff (hrun : Reachable (serverStep setup) (.start setup) s) :
    s.place ≠ .tooMany ∧ (InRange s ↔ Run (serverStep setup) (roomy setup) (.start setup) s) := by
  constructor
  · intro htooMany
    have hrange : InRange s := fun hplace ↦ (by cases htooMany.symm.trans hplace)
    exact (consistent_of_run hrun hrange).place_ne.1 htooMany
  · have hstart : InRange (.start setup) := fun heq ↦ (by cases heq)
    refine run_iff (fun state hreach ↦ consistent_of_run hreach) hstart
      (fun state event next hstate htaken ↦ ?_) hrun
    have hmove := serverMove_of_serverStep htaken
    have hbefore : InRange state := fun hplace ↦ not_serverMove hplace hmove
    rw [InRange, (consistent_serverMove (hstate hbefore) hmove).1]
    exact (and_iff_right hbefore).symm

theorem in_range_iff_oneLine :
    (after oneLine).place ≠ .tooMany ∧
      Run (serverStep standardSetup) (roomy standardSetup) (.start standardSetup) (after oneLine) := by
  have hrun := run_after (by decide : (execute _ _ _ oneLine).isSome = true)
  obtain ⟨htooMany, hiff⟩ := in_range_iff hrun
  exact ⟨htooMany, hiff.mp (by decide)⟩

end CppLearn.Unp.SelectServer
