import Gemmini.Normalizer.Model

/-!
# The order of the rows that leave the normalizer

The scratchpad pairs a row that leaves with the oldest entry of `write_scale_q`, so rows have to leave
in the order in which their `RESET` commands were accepted.  The normalizer gives the waiting row with
the lowest id.
-/

namespace Gemmini.Normalizer

variable {w m : ℕ} {P : Params}

theorem pick_eq {p : Fin (m + 1) → Bool} {i : Fin (m + 1)} (meets : p i = true)
    (least : ∀ j < i, p j = false) : pick p = i := by
  have found : Fin.find? p = some i := Fin.find?_eq_some_iff.2 ⟨meets, least⟩
  rw [pick, found]
  rfl

theorem successor_ne_output (cmd : NormCmd) (ph : Phase) : ph.successor cmd ≠ .output := by
  cases ph <;> cases cmd <;> simp [Phase.successor, Phase.next]

section Output

variable {s : State w m} {inp : Input w m} {i : Fin (m + 1)}

theorem advance_eq_output_iff :
    s.advance P inp i = .output ↔
      (s.stats i).state = .output ∧ ¬ (s.outFire inp = true ∧ s.outId = i) := by
  unfold State.advance
  by_cases waits : (s.stats i).state = .output
  · have leaves : s.leaves P inp i = true ↔ s.outFire inp = true ∧ s.outId = i := by
      simp [State.leaves, waits]
    rw [waits, ← leaves]
    by_cases h : s.leaves P inp i = true <;> simp [h, Phase.successor]
  · have other : (s.stats i).state.successor (s.stats i).req.cmd ≠ .output := by
      apply successor_ne_output
    split_ifs <;> simp [waits, other]

theorem leaves_of_isInput (input : s.isInput P inp i = true)
    (waits : (s.stats i).state = .output) : s.outFire inp = true ∧ s.outId = i := by
  simpa [State.done, waits] using State.free_of_isInput input

theorem nextState_eq_output_iff :
    s.nextState P inp i = .output ↔
      (s.isInput P inp i = true ∧ inp.bits.cmd = .reset) ∨
        (s.isInput P inp i = false ∧ (s.stats i).state = .output ∧
          ¬ (s.outFire inp = true ∧ s.outId = i)) := by
  unfold State.nextState
  by_cases input : s.isInput P inp i = true
  · rw [if_pos input]
    cases cmd : inp.bits.cmd <;> simp [State.entry, input]
  · rw [if_neg input, advance_eq_output_iff]
    simp [input]

end Output

/-- The normalizer with the rows whose `RESET` it has accepted and those that have left. -/
structure Ordered (w m : ℕ) where
  regs : State w m
  accepted : List (Request w m)
  left : List (Request w m)

def Ordered.next (P : Params) (s : Ordered w m) (inp : Input w m) : Ordered w m where
  regs := s.regs.next P inp
  accepted := if s.regs.inFire P inp = true ∧ inp.bits.cmd = .reset then s.accepted ++ [inp.bits]
    else s.accepted
  left := if s.regs.outFire inp = true then s.left ++ [(s.regs.stats s.regs.outId).req] else s.left

def ordered (w m : ℕ) (P : Params) : Machine (Ordered w m) (Input w m) where
  init s := (normalizer w m P).init s.regs ∧ s.accepted = [] ∧ s.left = []
  legal s inp := (normalizer w m P).legal s.regs inp
  step := Ordered.next P

/-- A `RESET` is accepted only while every row that waits on has a lower id. -/
def ResetsInOrder (P : Params) (s : Ordered w m) (inp : Input w m) : Prop :=
  s.regs.inFire P inp = true → inp.bits.cmd = .reset →
    ∀ j, (s.regs.stats j).state = .output →
      j < inp.bits.statsId ∨ (s.regs.outFire inp = true ∧ s.regs.outId = j)

/-- The rows that wait stand in the order of their ids, which is the order they came in. -/
structure Waiting (s : Ordered w m) (pending : List (Request w m)) : Prop where
  split : s.accepted = s.left ++ pending
  ascending : pending.Pairwise fun r r' => r.statsId < r'.statsId
  output : ∀ i, (s.regs.stats i).state = .output ↔ ∃ r ∈ pending, r.statsId = i
  held : ∀ r ∈ pending, (s.regs.stats r.statsId).req = r

theorem Waiting.outId {s : Ordered w m} {r : Request w m} {rest : List (Request w m)}
    (waiting : Waiting s (r :: rest)) : s.regs.outId = r.statsId := by
  apply pick_eq
  · have head := (waiting.output r.statsId).2 ⟨r, by simp, rfl⟩
    simpa using head
  · intro j below
    have first := (List.pairwise_cons.1 waiting.ascending).1
    simp only [decide_eq_false_iff_not]
    intro waits
    obtain ⟨r', mem, rfl⟩ := (waiting.output j).1 waits
    rcases List.mem_cons.1 mem with rfl | later
    · exact lt_irrefl _ below
    · exact lt_asymm below (first r' later)

theorem Waiting.not_outFire {s : Ordered w m} (waiting : Waiting s []) (inp : Input w m) :
    s.regs.outFire inp = false := by
  have none := waiting.output s.regs.outId
  simp only [List.not_mem_nil, false_and, exists_false, iff_false] at none
  simp [State.outFire, none]

theorem Waiting.leave {s : Ordered w m} {pending : List (Request w m)} (waiting : Waiting s pending)
    (inp : Input w m) :
    ∃ rest, (s.next P inp).left ++ rest = s.accepted ∧
      rest.Pairwise (fun r r' => r.statsId < r'.statsId) ∧
      (∀ i, (∃ r ∈ rest, r.statsId = i) ↔ (s.regs.stats i).state = .output ∧
        ¬ (s.regs.outFire inp = true ∧ s.regs.outId = i)) ∧
      ∀ r ∈ rest, r ∈ pending := by
  by_cases fires : s.regs.outFire inp = true
  · cases pending with
    | nil => simp [waiting.not_outFire inp] at fires
    | cons r rest =>
      have ascending := List.pairwise_cons.1 waiting.ascending
      refine ⟨rest, ?_, ascending.2, fun i => ?_, fun r' mem => List.mem_cons_of_mem r mem⟩
      · have oldest := waiting.held r (by simp)
        simp [Ordered.next, fires, waiting.outId, oldest, waiting.split]
      · rw [waiting.output i, waiting.outId]
        constructor
        · rintro ⟨r', mem, rfl⟩
          exact ⟨⟨r', List.mem_cons_of_mem r mem, rfl⟩,
            fun leaves => absurd leaves.2 (ascending.1 r' mem).ne⟩
        · rintro ⟨⟨r', mem, rfl⟩, stays⟩
          rcases List.mem_cons.1 mem with rfl | later
          · exact absurd ⟨fires, rfl⟩ stays
          · exact ⟨r', later, rfl⟩
  · refine ⟨pending, ?_, waiting.ascending, fun i => ?_, fun _ mem => mem⟩
    · simp [Ordered.next, fires, waiting.split]
    · rw [waiting.output i]
      simp [fires]

theorem Waiting.next {s : Ordered w m} {pending : List (Request w m)} (waiting : Waiting s pending)
    {inp : Input w m} (inOrder : ResetsInOrder P s inp) :
    ∃ pending', Waiting (s.next P inp) pending' := by
  obtain ⟨rest, split, ascending, output, mem⟩ := waiting.leave (P := P) inp
  -- an id that takes an input has no row that waits on
  have free : ∀ i, s.regs.isInput P inp i = true → ¬ ∃ r ∈ rest, r.statsId = i := by
    intro i input waits
    obtain ⟨state, stays⟩ := (output i).1 waits
    exact stays (leaves_of_isInput input state)
  have kept : ∀ r ∈ rest, ((s.next P inp).regs.stats r.statsId).req = r := by
    intro r waits
    have idle : s.regs.isInput P inp r.statsId = false := by
      by_contra input
      exact free _ (by simpa using input) ⟨r, waits, rfl⟩
    show (s.regs.nextStats P inp r.statsId).req = r
    simp [State.nextStats, idle, waiting.held r (mem r waits)]
  have state : ∀ i, ((s.next P inp).regs.stats i).state = .output ↔
      (s.regs.isInput P inp i = true ∧ inp.bits.cmd = .reset) ∨ ∃ r ∈ rest, r.statsId = i := by
    intro i
    show s.regs.nextState P inp i = .output ↔ _
    rw [nextState_eq_output_iff, output i]
    by_cases input : s.regs.isInput P inp i = true
    · have free := free i input
      rw [output i] at free
      simp only [input, Bool.true_eq_false, false_and, or_false]
      exact (or_iff_left free).symm
    · simp [input]
  by_cases resets : s.regs.inFire P inp = true ∧ inp.bits.cmd = .reset
  · refine ⟨rest ++ [inp.bits], ?_, ?_, fun i => ?_, ?_⟩
    · show (if _ then _ else _) = _
      rw [if_pos resets, ← List.append_assoc, split]
    · rw [List.pairwise_append]
      refine ⟨ascending, by simp, fun r waits x last => ?_⟩
      obtain rfl := List.mem_singleton.1 last
      obtain ⟨waits, stays⟩ := (output r.statsId).1 ⟨r, waits, rfl⟩
      exact (inOrder resets.1 resets.2 _ waits).resolve_right stays
    · rw [state i]
      simp [State.isInput, resets, or_and_right, exists_or, or_comm]
    · intro r waits
      rcases List.mem_append.1 waits with waits | last
      · exact kept r waits
      · obtain rfl := List.mem_singleton.1 last
        show (s.regs.nextStats P inp _).req = _
        simp [State.nextStats, State.isInput, resets.1]
  · refine ⟨rest, ?_, ascending, fun i => ?_, kept⟩
    · show (if _ then _ else _) = _
      rw [if_neg resets, split]
    · rw [state i]
      have : ¬ (s.regs.isInput P inp i = true ∧ inp.bits.cmd = .reset) := by
        simp only [State.isInput, Bool.and_eq_true, decide_eq_true_eq]
        tauto
      simp [this]

/-- As long as no `RESET` is accepted while a row of a higher id waits on, rows leave in the order in
which their `RESET` commands were accepted. -/
theorem rows_leave_in_order {s : Ordered w m}
    (reach : ((ordered w m P).restrict (ResetsInOrder P)).Reachable s) : s.left <+: s.accepted := by
  have waiting : ∃ pending, Waiting s pending := by
    apply reach.invariant
    · rintro s ⟨⟨reset, -, -⟩, accepted, left⟩
      refine ⟨[], by simp [accepted, left], by simp, fun i => ?_, by simp⟩
      simp [(reset i).1]
    · rintro s inp - ⟨pending, waiting⟩ ⟨-, inOrder⟩
      exact waiting.next inOrder
  obtain ⟨pending, waiting⟩ := waiting
  exact ⟨pending, waiting.split.symm⟩

instance (s : Ordered 32 1) (inp : Input 32 1) : Decidable ((ordered 32 1 fourLanes).legal s inp) :=
  inferInstanceAs (Decidable (inp.valid = true → inp.bits.len ≤ fourLanes.maxLen))

instance (s : Ordered 32 1) (inp : Input 32 1) : Decidable (ResetsInOrder fourLanes s inp) :=
  by unfold ResetsInOrder; infer_instance

/-- The row of id 0 waits, then that of id 1 comes, and both leave. -/
theorem rows_leave_in_order_ascending :
    let s := (ordered 32 1 fourLanes).run ⟨resetState, [], []⟩
      [request (plainRow .reset 0 7) false, request (plainRow .reset 1 8) false, noRequest true,
        noRequest true]
    s.left.map (·.statsId) = [0, 1] ∧ s.left <+: s.accepted := by
  intro s
  refine ⟨by decide, ?_⟩
  apply rows_leave_in_order (P := fourLanes)
  have reach := Machine.Reachable.run
    (M := (ordered 32 1 fourLanes).restrict (ResetsInOrder fourLanes))
    (s := ⟨resetState, [], []⟩) (.init ⟨resetState_init, rfl, rfl⟩)
    [request (plainRow .reset 0 7) false, request (plainRow .reset 1 8) false, noRequest true,
      noRequest true] (by decide)
  rwa [Machine.restrict_run] at reach

/-- The row of id 1 waits, then that of id 0 comes and leaves first. -/
theorem rows_overtake :
    let s := (ordered 32 1 fourLanes).run ⟨resetState, [], []⟩
      [request (plainRow .reset 1 8) false, request (plainRow .reset 0 7) false, noRequest true]
    (ordered 32 1 fourLanes).Reachable s ∧ s.accepted.map (·.statsId) = [1, 0] ∧
      s.left.map (·.statsId) = [0] ∧ ¬ s.left <+: s.accepted := by
  intro s
  have accepted : s.accepted.map (·.statsId) = [1, 0] := by decide
  have left : s.left.map (·.statsId) = [0] := by decide
  refine ⟨?_, accepted, left, fun first => ?_⟩
  · apply Machine.Reachable.run
    · exact .init ⟨resetState_init, rfl, rfl⟩
    · decide
  · have ids := first.map (·.statsId)
    rw [accepted, left] at ids
    exact absurd ids (by decide)

end Gemmini.Normalizer
