import Gemmini.Lib.Machine
import Mathlib.Tactic

/-!
# The command tracker

`DMACommandTracker.scala`: a command takes the first free entry, counts down the bytes that are reported
for it, and leaves when its completion is taken.  Over a run an entry sees a sequence of complete
sessions, the last of which may still be open.
-/

namespace Gemmini.CommandTracker

structure Entry (Tag : Type) where
  valid : Bool
  tag : Tag
  bytesLeft : ℕ

structure Input (n : ℕ) (Tag : Type) where
  alloc : Option (Tag × ℕ)
  /-- `io.request_returned`: an entry and the bytes read for it. -/
  returned : Option (Fin n × ℕ)
  completedReady : Bool

variable {n : ℕ} {Tag : Type} (cmds : Fin n → Entry Tag) (inp : Input n Tag)

/-- `next_empty_alloc`; none means that `io.alloc.ready` is low. -/
def nextEmptyAlloc : Option (Fin n) := (List.finRange n).find? fun i => !(cmds i).valid

/-- `cmd_completed_id`; none means that `io.cmd_completed` is not valid. -/
def cmdCompletedId : Option (Fin n) :=
  (List.finRange n).find? fun i => (cmds i).valid && (cmds i).bytesLeft == 0

/-- What is allocated into entry `i` in this cycle. -/
def allocFire (i : Fin n) : Option (Tag × ℕ) :=
  if nextEmptyAlloc cmds = some i then inp.alloc else none

/-- The bytes reported for entry `i` in this cycle. -/
def readFor (i : Fin n) : Option ℕ := (inp.returned.filter fun r => r.1 = i).map Prod.snd

def completedFire (i : Fin n) : Bool := inp.completedReady && cmdCompletedId cmds = some i

/-- An entry after the clock edge, the three connections in source order. -/
def nextEntry (i : Fin n) : Entry Tag :=
  let e := match allocFire cmds inp i with
    | some (tag, bytes) => ⟨true, tag, bytes⟩
    | none => cmds i
  let e := match readFor inp i with
    | some read => { e with bytesLeft := (cmds i).bytesLeft - read }
    | none => e
  if completedFire cmds inp i then { e with valid := false } else e

/-! ### The history of an entry -/

inductive Event (Tag : Type)
  | alloc (tag : Tag) (bytes : ℕ)
  | report (bytes : ℕ)
  | complete (tag : Tag)

/-- The table and, for each entry, what has happened to it. -/
structure Tracked (n : ℕ) (Tag : Type) where
  cmds : Fin n → Entry Tag
  events : Fin n → List (Event Tag)

def Tracked.next (t : Tracked n Tag) (inp : Input n Tag) : Tracked n Tag where
  cmds := nextEntry t.cmds inp
  events i := t.events i ++ ((allocFire t.cmds inp i).map fun c => .alloc c.1 c.2).toList ++
    ((readFor inp i).map .report).toList ++
    if completedFire t.cmds inp i then [.complete (t.cmds i).tag] else []

/-- Reports name a live command and do not exceed what is left. -/
def machine (n : ℕ) (Tag : Type) : Machine (Tracked n Tag) (Input n Tag) where
  init t := ∀ i, (t.cmds i).valid = false ∧ t.events i = []
  legal t inp := ∀ r ∈ inp.returned, (t.cmds r.1).valid = true ∧ r.2 ≤ (t.cmds r.1).bytesLeft
  step := Tracked.next

/-- A command in flight: its tag, its bytes, and the reports for it. -/
structure Session (Tag : Type) where
  tag : Tag
  bytes : ℕ
  reports : List ℕ

/-- A proper history, and the command in flight after it: a command completes once, with its tag, when
its reports sum to its bytes. -/
inductive Proper : List (Event Tag) → Option (Session Tag) → Prop
  | start : Proper [] none
  | alloc {h tag bytes} : Proper h none → Proper (h ++ [.alloc tag bytes]) (some ⟨tag, bytes, []⟩)
  | report {h tag bytes reports read} : Proper h (some ⟨tag, bytes, reports⟩) →
      Proper (h ++ [.report read]) (some ⟨tag, bytes, reports ++ [read]⟩)
  | complete {h tag bytes reports} : Proper h (some ⟨tag, bytes, reports⟩) →
      reports.sum = bytes → Proper (h ++ [.complete tag]) none

/-- The entry of a command in flight, and a free entry. -/
def Entry.Holds (e : Entry Tag) : Option (Session Tag) → Prop
  | none => e.valid = false
  | some c => e.valid = true ∧ e.tag = c.tag ∧ e.bytesLeft + c.reports.sum = c.bytes

variable {cmds inp} {t : Tracked n Tag} {i : Fin n}

theorem valid_of_completedFire (done : completedFire cmds inp i = true) :
    (cmds i).valid = true ∧ (cmds i).bytesLeft = 0 := by
  simp only [completedFire, Bool.and_eq_true, decide_eq_true_eq] at done
  simpa using List.find?_some done.2

theorem free_of_allocFire {c : Tag × ℕ} (fire : allocFire cmds inp i = some c) :
    (cmds i).valid = false := by
  unfold allocFire at fire
  split_ifs at fire with first
  simpa using List.find?_some first

theorem mem_returned {read : ℕ} (h : readFor inp i = some read) : (i, read) ∈ inp.returned := by
  obtain ⟨⟨j, b⟩, found, rfl⟩ := Option.map_eq_some_iff.mp h
  obtain ⟨back, here⟩ := Option.filter_eq_some_iff.mp found
  rwa [← of_decide_eq_true here]

theorem Proper.next_free (free : (t.cmds i).valid = false) (legal : (machine n Tag).legal t inp)
    (proper : Proper (t.events i) none) :
    ∃ o, Proper ((t.next inp).events i) o ∧ ((t.next inp).cmds i).Holds o := by
  have unread : readFor inp i = none := by
    by_contra some
    obtain ⟨read, h⟩ := Option.ne_none_iff_exists'.mp some
    rw [(legal _ (mem_returned h)).1] at free
    cases free
  have stays : completedFire t.cmds inp i = false := by
    by_contra done
    rw [(valid_of_completedFire (Bool.eq_true_of_not_eq_false done)).1] at free
    cases free
  simp only [Tracked.next, nextEntry, unread, stays]
  cases fire : allocFire t.cmds inp i with
  | none => exact ⟨none, by simpa using proper, free⟩
  | some c => exact ⟨some ⟨c.1, c.2, []⟩, by simpa using proper.alloc, rfl, rfl, rfl⟩

theorem Proper.next_live {c : Session Tag} (holds : (t.cmds i).Holds (some c))
    (legal : (machine n Tag).legal t inp) (proper : Proper (t.events i) (some c)) :
    ∃ o, Proper ((t.next inp).events i) o ∧ ((t.next inp).cmds i).Holds o := by
  obtain ⟨valid, tag, left⟩ := holds
  have quiet : allocFire t.cmds inp i = none := by
    by_contra some
    obtain ⟨c, h⟩ := Option.ne_none_iff_exists'.mp some
    rw [free_of_allocFire h] at valid
    cases valid
  -- a report of the bytes that are left at most, then the completion
  have moved : ∃ left' c', Proper (t.events i ++ ((readFor inp i).map .report).toList) (some c') ∧
      c'.tag = c.tag ∧ left' + c'.reports.sum = c'.bytes ∧ left' ≤ (t.cmds i).bytesLeft ∧
      nextEntry t.cmds inp i = ⟨!completedFire t.cmds inp i, c.tag, left'⟩ := by
    cases back : readFor inp i with
    | none =>
      refine ⟨_, c, by simpa using proper, rfl, left, le_rfl, ?_⟩
      cases done : completedFire t.cmds inp i <;> simp [nextEntry, quiet, back, done, ← tag, ← valid]
    | some read =>
      have le := (legal _ (mem_returned back)).2
      refine ⟨(t.cmds i).bytesLeft - read, _, proper.report, rfl, ?_, by omega, ?_⟩
      · simp only [List.sum_append, List.sum_singleton]
        dsimp only at le
        omega
      · cases done : completedFire t.cmds inp i <;> simp [nextEntry, quiet, back, done, tag, valid]
  obtain ⟨left', c', proper', tag', sum, le, entry⟩ := moved
  simp only [Tracked.next, entry, quiet, Option.map_none, Option.toList_none, List.append_nil]
  cases done : completedFire t.cmds inp i with
  | false => exact ⟨some c', by simpa using proper', rfl, tag'.symm, sum⟩
  | true =>
    rw [(valid_of_completedFire done).2, Nat.le_zero] at le
    rw [le, Nat.zero_add] at sum
    rw [tag, ← tag']
    exact ⟨none, proper'.complete sum, rfl⟩

/-- In every run: the history of each entry is proper, the entry holds its open command, and a command
whose bytes have all been reported is not kept from completing by anything but other completions. -/
theorem histories_proper (reach : (machine n Tag).Reachable t) (i : Fin n) :
    ∃ o, Proper (t.events i) o ∧ (t.cmds i).Holds o ∧
      (∀ c ∈ o, c.reports.sum = c.bytes → cmdCompletedId t.cmds ≠ none) := by
  have sound : ∀ i, ∃ o, Proper (t.events i) o ∧ (t.cmds i).Holds o := by
    apply reach.invariant
    · intro t init i
      rw [(init i).2]
      exact ⟨none, .start, (init i).1⟩
    · intro t inp _ sound legal i
      obtain ⟨o, proper, holds⟩ := sound i
      cases o with
      | none => exact proper.next_free holds legal
      | some c => exact proper.next_live holds legal
  obtain ⟨o, proper, holds⟩ := sound i
  refine ⟨o, proper, holds, ?_⟩
  rintro c rfl all
  obtain ⟨valid, _, left⟩ := holds
  have done : (t.cmds i).bytesLeft = 0 := by omega
  apply Option.isSome_iff_ne_none.mp
  exact List.find?_isSome.mpr ⟨i, List.mem_finRange i, by simp [valid, done]⟩

/-- Two commands at once, the second done first, and a third in its entry. -/
def threeCommands : List (Input 2 ℕ) :=
  [⟨some (7, 4), none, true⟩, ⟨some (8, 2), some (0, 3), true⟩, ⟨none, some (1, 2), true⟩,
    ⟨none, some (0, 1), true⟩, ⟨some (9, 5), none, true⟩]

theorem threeCommands_proper : (∃ o, Proper [.alloc 7 4, .report 3, .report 1, .complete 7] o) ∧
    ∃ o, Proper [.alloc 8 2, .report 2, .complete 8, .alloc 9 5] o := by
  have start : (machine 2 ℕ).Reachable ⟨fun _ => ⟨false, 0, 0⟩, fun _ => []⟩ :=
    .init fun _ => ⟨rfl, rfl⟩
  have legal : (machine 2 ℕ).LegalRun ⟨fun _ => ⟨false, 0, 0⟩, fun _ => []⟩ threeCommands :=
    ⟨by rintro _ ⟨⟩, by rintro _ ⟨⟩; decide, by rintro _ ⟨⟩; decide, by rintro _ ⟨⟩; decide,
      by rintro _ ⟨⟩, trivial⟩
  have proper := histories_proper (start.run threeCommands legal)
  obtain ⟨first, proper0, _⟩ := proper 0
  obtain ⟨second, proper1, _⟩ := proper 1
  exact ⟨⟨first, proper0⟩, second, proper1⟩

end Gemmini.CommandTracker
