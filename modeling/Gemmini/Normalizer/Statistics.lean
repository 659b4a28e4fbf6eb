import Gemmini.Normalizer.Maxima
import Gemmini.Normalizer.Sums

/-!
# The statistics of a row

What the divider gets for a row and what its exponentials subtract, in every run under the command sequences
of `LoopMatmulStC`.
-/

namespace Gemmini.Normalizer

variable {w m : ℕ} {P : Params}

structure Tracks (s : Tracked w m) : Prop where
  consistent : ∀ i, Consistent s i
  sums : ∀ i, Sums s i
  dividing : Dividing s
  averaged : ∀ i, Averaged s i
  draining : ∀ i, Draining s i
  maxima : w ≤ 32 → ∀ i, Maxima s i
  divisions : ∀ d ∈ s.divisions, d.Right
  subtractions : w ≤ 32 → ∀ x ∈ s.subtractions, x.Right

theorem Tracks.next {s : Tracked w m} {inp : Input w m} (tracks : Tracks s)
    (legal : (tracked w m P).legal s inp) : Tracks (s.next P inp) where
  consistent i := (tracks.consistent i).next inp
  sums i := (tracks.sums i).next (tracks.consistent i) legal
  dividing := tracks.dividing.next legal
  averaged i := (tracks.averaged i).next (tracks.consistent i) tracks.dividing legal
  draining i := (tracks.draining i).next (tracks.consistent i) legal
  maxima width i :=
    (tracks.maxima width i).next width (tracks.consistent i) (tracks.draining i) legal
  divisions := by
    simp only [Tracked.next]
    split_ifs with fires
    · rw [List.forall_mem_append]
      refine ⟨tracks.divisions, ?_⟩
      simp only [List.mem_singleton, forall_eq]
      exact right_division (tracks.consistent _) (tracks.sums _) (tracks.averaged _) fires
    · exact tracks.divisions
  subtractions width := by
    simp only [Tracked.next]
    split_ifs with enters
    · rw [List.forall_mem_append]
      refine ⟨tracks.subtractions width, ?_⟩
      simp only [List.mem_singleton, forall_eq]
      exact right_subtraction width (tracks.consistent _) (tracks.maxima width _) enters.1 enters.2
    · exact tracks.subtractions width

theorem tracks_of_init {s : Tracked w m} (init : (tracked w m P).init s) : Tracks s := by
  obtain ⟨⟨reset, lanes, maxLanes⟩, last, dividing, divisions, subtractions⟩ := init
  have idle : ∀ i, (s.regs.stats i).state = .idle := fun i => (reset i).1
  have absent : ∀ i, Absent i s.regs.lanes := by
    intro i y mem
    simp [lanes] at mem
  have absentMax : ∀ i, Absent i s.regs.maxLanes := by
    intro i y mem
    simp [maxLanes] at mem
  refine ⟨fun i => ⟨?_, fun busy => absurd (idle i) busy⟩, fun i => ?_, fun i => ?_, fun i => ?_,
    fun i => ?_, fun _ i => ?_, ?_, fun _ => ?_⟩
  · simp [last, idle, NormCmd.visits]
  · refine ⟨fun live => ?_, fun _ => ⟨(reset i).2.1, (reset i).2.2.2.2.1⟩, fun _ => absent i⟩
    simp [mode, last, idle] at live
  · simp [idle, Phase.awaits, dividing]
  · intro later
    simp [last] at later
  · intro exp
    simp [last] at exp
  · refine ⟨fun live => ?_, fun _ => (reset i).2.2.2.1, fun _ => absentMax i⟩
    simp [maxMode, last, idle] at live
  · simp [divisions]
  · simp [subtractions]

/-- In every run the divider gets the sum of the elements of a row and their number, and then the sum of the
squares of their differences to the mean and their number, just if the row has fewer than `2 ^ 16`
elements; and the exponentials of a row subtract its maximum, in a type of up to 32 bits. -/
theorem statistics_of_rows {s : Tracked w m} (reach : (tracked w m P).Reachable s) :
    (∀ d ∈ s.divisions, d.Right) ∧ (w ≤ 32 → ∀ x ∈ s.subtractions, x.Right) := by
  have tracks : Tracks s := by
    apply reach.invariant
    · exact fun s init => tracks_of_init init
    · exact fun s inp _ tracks legal => tracks.next legal
  exact ⟨tracks.divisions, tracks.subtractions⟩

instance (P : Params) (s : Tracked 32 1) (inp : Input 32 1) :
    Decidable ((tracked 32 1 P).legal s inp) :=
  inferInstanceAs (Decidable ((_ → _) ∧ (_ → _ ∧ (_ → _)) ∧ (_ → _ ∨ _)))

def trackedReset (regs : State 32 1) : Tracked 32 1 :=
  ⟨regs, fun _ => .reset, fun _ => [], fun _ => 0, none, [], []⟩

def divides : Input 32 1 := { noRequest true with unitReady := fun u => u = .divider }

/-- A row of two blocks, with a block of another row between them. -/
def shortRun : List (Input 32 1) :=
  [request (plainRow .sum ⟨0, Nat.two_pos⟩ 7) true, request (plainRow .sum ⟨1, Nat.one_lt_two⟩ 3) true] ++
    List.replicate 3 (noRequest true) ++ [request (plainRow .mean ⟨0, Nat.two_pos⟩ 5) true] ++
    List.replicate 3 (noRequest true) ++ [divides]

/-- The divider gets 48 and 8. -/
theorem statistics_of_short_row :
    let s := (tracked 32 1 fourLanes).run (trackedReset resetState) shortRun
    s.divisions.map (fun d => (d.sum, d.count)) = [(48, 8)] ∧ ∀ d ∈ s.divisions, d.Right := by
  intro s
  refine ⟨by decide, ?_⟩
  have reach : (tracked 32 1 fourLanes).Reachable s := by
    apply Machine.Reachable.run
    · exact .init ⟨resetState_init, fun _ => rfl, rfl, rfl, rfl⟩
    · decide
  exact (statistics_of_rows reach).1

/-- A vector of `2 ^ 16` elements that go through the lanes at once. -/
def wideLanes : Params := ⟨2 ^ 16, by decide, 2 ^ 16, 0⟩

def wideRow : Request 32 1 := ⟨fun _ => 1, ⟨0, 0, 0, 0⟩, 0, 2 ^ 16, ⟨0, Nat.two_pos⟩, .mean⟩

def wideReset : Tracked 32 1 := trackedReset ⟨fun _ => resetStats, [], []⟩

def wideSummed : Tracked 32 1 :=
  (tracked 32 1 wideLanes).run wideReset [request wideRow true, noRequest true]

section

variable {s : Tracked w m} {inp : Input w m}

theorem Tracked.row_of_isInput {i : Fin (m + 1)} (input : s.regs.isInput P inp i = true) :
    (s.next P inp).row i = pass (s.last i) inp.bits.cmd (s.row i) inp.bits.block := if_pos input

theorem Tracked.row_of_not_isInput {i : Fin (m + 1)} (input : s.regs.isInput P inp i = false) :
    (s.next P inp).row i = s.row i :=
  if_neg (Bool.eq_false_iff.1 input)

theorem Tracked.division_mem (fires : s.regs.unitInFire P inp .divider = true) :
    s.division ∈ (s.next P inp).divisions := by
  simp [Tracked.next, fires]

end

theorem wideSummed_row : wideSummed.row 0 = wideRow.block := by
  have first : wideReset.regs.isInput wideLanes (request wideRow true) 0 = true := by
    decide
  have second : (wideReset.next wideLanes (request wideRow true)).regs.isInput wideLanes
      (noRequest true) 0 = false := by
    decide
  have last := Tracked.row_of_not_isInput second
  rw [Tracked.row_of_isInput first] at last
  exact last

/-- The divider gets the count 0 for a row of `2 ^ 16` elements. -/
theorem count_of_wide_row :
    let s := wideSummed.next wideLanes divides
    (tracked 32 1 wideLanes).Reachable s ∧
      ∃ d ∈ s.divisions, d.ofVariance = false ∧ d.count = 0 ∧ d.row.length = 2 ^ 16 := by
  intro s
  have reach : (tracked 32 1 wideLanes).Reachable wideSummed := by
    apply Machine.Reachable.run
    · exact .init ⟨⟨fun _ => ⟨rfl, rfl, rfl, rfl, rfl, rfl⟩, rfl, rfl⟩, fun _ => rfl, rfl, rfl, rfl⟩
    · decide
  have legal : (tracked 32 1 wideLanes).legal wideSummed divides := by decide
  have fires : wideSummed.regs.unitInFire wideLanes divides .divider = true := by decide
  have id : wideSummed.regs.askId .divider = 0 := by decide
  refine ⟨reach.step legal, wideSummed.division, Tracked.division_mem fires, by decide,
    by decide, ?_⟩
  rw [Tracked.division, id, wideSummed_row, Request.block, List.length_map, List.length_range,
    wideRow]

end Gemmini.Normalizer
