import Gemmini.Normalizer.Tracked

/-!
# The maximum of a row

Every element of a pass of `MAX` commands is at most the running maximum, at most a result in the max
lanes, or still to enter them.  The exponentials of a row wait for the lanes to drain.
-/

namespace Gemmini.Normalizer

variable {w m : ℕ} {P : Params}

/-! ## Signed maxima -/

theorem minimum_le (width : w ≤ 32) (x : BitVec w) : (minimum w).toInt ≤ x.toInt := by
  have least : minimum w = BitVec.intMin w := by
    interval_cases w <;> decide
  rw [least]
  apply BitVec.toInt_intMin_le

theorem smax_eq (a b : BitVec w) : smax a b = a ∨ smax a b = b := by
  unfold smax
  split_ifs
  · exact .inl rfl
  · exact .inr rfl

theorem le_smax (a b : BitVec w) :
    a.toInt ≤ (smax a b).toInt ∧ b.toInt ≤ (smax a b).toInt := by
  unfold smax
  split_ifs with less
  · rw [BitVec.slt_iff_toInt_lt] at less
    exact ⟨le_rfl, less.le⟩
  · rw [BitVec.slt_iff_toInt_lt, not_lt] at less
    exact ⟨less, le_rfl⟩

theorem treeMax_spec (xs : List (BitVec w)) (some : xs ≠ []) :
    treeMax xs ∈ xs ∧ ∀ x ∈ xs, x.toInt ≤ (treeMax xs).toInt := by
  fun_induction treeMax xs with
  | case1 xs short =>
    obtain ⟨x, rfl⟩ : ∃ x, xs = [x] := by
      apply List.length_eq_one_iff.1
      have := List.length_pos_iff.2 some
      omega
    simp
  | case2 xs long ihLeft ihRight =>
    have left := ihLeft (by
      intro none
      have := congrArg List.length none
      simp only [List.length_take, List.length_nil] at this
      omega)
    have right := ihRight (by
      intro none
      have := congrArg List.length none
      simp only [List.length_drop, List.length_nil] at this
      omega)
    have both := le_smax (treeMax (xs.take (xs.length / 2))) (treeMax (xs.drop (xs.length / 2)))
    refine ⟨?_, fun x mem => ?_⟩
    · rcases smax_eq (treeMax (xs.take (xs.length / 2))) (treeMax (xs.drop (xs.length / 2)))
        with first | second
      · rw [first]
        exact List.mem_of_mem_take left.1
      · rw [second]
        exact List.mem_of_mem_drop right.1
    · rw [← List.take_append_drop (xs.length / 2) xs, List.mem_append] at mem
      rcases mem with first | second
      · exact (left.2 x first).trans both.1
      · exact (right.2 x second).trans both.2

/-! ## The max lanes -/

section Lanes

variable {s : State w m} {inp : Input w m} {i : Fin (m + 1)}

theorem maxLanesIn_statsId {y : LaneOutput w m} (enters : s.maxLanesIn P = some y) :
    y.statsId = s.maxLanesId ∧ s.maxLanesValid P = true := by
  unfold State.maxLanesIn at enters
  by_cases valid : s.maxLanesValid P = true
  · simp only [valid, if_true, Option.some.injEq] at enters
    exact ⟨by rw [← enters], valid⟩
  · simp [valid] at enters

theorem treeMax_fill (width : w ≤ 32) {n len : ℕ} (pos : 0 < len) (fits : len ≤ n) (f : ℕ → BitVec w) :
    let result := treeMax ((List.range n).map fun k => if k < len then f k else minimum w)
    (∃ k < len, result = f k) ∧ ∀ k < len, (f k).toInt ≤ result.toInt := by
  intro result
  have spec := treeMax_spec ((List.range n).map fun k => if k < len then f k else minimum w) (by
    intro none
    have := congrArg List.length none
    simp only [List.length_map, List.length_range, List.length_nil] at this
    omega)
  have bound : ∀ k < len, (f k).toInt ≤ result.toInt := by
    intro k below
    apply spec.2
    exact List.mem_map.2 ⟨k, List.mem_range.2 (by omega), if_pos below⟩
  refine ⟨?_, bound⟩
  obtain ⟨k, -, value⟩ := List.mem_map.1 spec.1
  by_cases below : k < len
  · rw [if_pos below] at value
    exact ⟨k, below, value.symm⟩
  · rw [if_neg below] at value
    have filler : result = minimum w := value.symm
    refine ⟨0, pos, ?_⟩
    apply BitVec.eq_of_toInt_eq
    apply le_antisymm _ (bound 0 pos)
    rw [filler]
    exact minimum_le width (f 0)

theorem maxLanesIn_spec (width : w ≤ 32) {y : LaneOutput w m} (enters : s.maxLanesIn P = some y)
    (own : y.statsId = i) :
    y.result ∈ (s.stats i).pending .getMax ∧
      ∀ x ∈ (s.stats i).pending .getMax, x.toInt ≤ y.result.toInt ∨ x ∈ s.rest P .getMax i := by
  obtain ⟨id, valid⟩ := maxLanesIn_statsId enters
  obtain rfl : s.maxLanesId = i := id.symm.trans own
  have state := getMax_of_maxLanesValid valid
  have sends : s.sends P s.maxLanesId = true := (sends_of_getMax state).2 ⟨valid, rfl⟩
  have left : 0 < (s.stats s.maxLanesId).vecGroupsLeft P := by
    simp only [State.maxLanesValid, Bool.and_eq_true, decide_eq_true_eq] at valid
    exact valid.2
  have result : y.result = treeMax ((List.range P.nLanes).map fun k =>
      if k < (s.stats s.maxLanesId).groupLen P then (s.stats s.maxLanesId).group P k
      else minimum w) := by
    simp only [State.maxLanesIn, valid, if_true, Option.some.injEq] at enters
    rw [← enters]
  obtain ⟨⟨k, below, value⟩, bound⟩ := treeMax_fill width Stats.groupLen_pos Stats.groupLen_le
    ((s.stats s.maxLanesId).group P)
  rw [← result] at value bound
  rw [Stats.pending, if_pos state, Stats.elems_split left]
  refine ⟨?_, fun x mem => ?_⟩
  · apply List.mem_append_right
    exact List.mem_map.2 ⟨k, List.mem_range.2 below, value.symm⟩
  · rcases List.mem_append.1 mem with before | group
    · right
      rw [State.rest, if_pos state]
      simpa [sends] using before
    · left
      obtain ⟨j, below, rfl⟩ := List.mem_map.1 group
      exact bound j (List.mem_range.1 below)

theorem maxRest_of_not_enters (none : ∀ y, s.maxLanesIn P = some y → y.statsId ≠ i) :
    s.rest P .getMax i = (s.stats i).pending .getMax := by
  by_cases state : (s.stats i).state = .getMax
  · have silent : ¬ s.sends P i = true := by
      intro sends
      obtain ⟨valid, id⟩ := (sends_of_getMax state).1 sends
      exact none _ (by simp only [State.maxLanesIn, valid, if_true]; rfl) id
    simp [State.rest, Stats.pending, state, silent]
  · rw [rest_of_ne state, Stats.pending_of_ne state]

theorem mem_pending_of_mem_rest {ph : Phase} {x : BitVec w} (mem : x ∈ s.rest P ph i) :
    x ∈ (s.stats i).pending ph := by
  by_cases state : (s.stats i).state = ph
  · rw [State.rest, if_pos state] at mem
    rw [Stats.pending, if_pos state]
    obtain ⟨k, below, rfl⟩ := List.mem_map.1 mem
    refine List.mem_map.2 ⟨k, List.mem_range.2 ?_, rfl⟩
    have := List.mem_range.1 below
    split_ifs at this <;> omega
  · rw [rest_of_ne state] at mem
    cases mem

end Lanes

/-! ## The running maximum -/

/-- The running maximum of an id: that of a pass, the least value, or one that is not used any more. -/
inductive MaxMode
  | live
  | clear
  | settled
  deriving DecidableEq

def maxMode (last : NormCmd) (ph : Phase) : MaxMode :=
  match last with
  | .max | .sumExp => .live
  | .invSumExp => if ph = .getSum then .live else .settled
  | .reset => if ph = .output then .settled else .clear
  | _ => .settled

/-- The maximum of a pass with elements `row`, of which `pending` are still to be sent. -/
structure LiveMax (i : Fin (m + 1)) (runningMax max : BitVec w)
    (lanes : List (Option (LaneOutput w m))) (pending row : List (BitVec w)) : Prop where
  bound : ∀ x ∈ row, x.toInt ≤ runningMax.toInt ∨
    (∃ y, some y ∈ lanes ∧ y.statsId = i ∧ x.toInt ≤ y.result.toInt) ∨ x ∈ pending
  attained : runningMax = minimum w ∨ runningMax ∈ row
  results : ∀ y, some y ∈ lanes → y.statsId = i → y.result ∈ row
  sent : ∀ x ∈ pending, x ∈ row
  current : max = runningMax ∨ row = [] ∨ ¬ Absent i lanes ∨ pending ≠ []

structure MaxAt (i : Fin (m + 1)) (last : NormCmd) (ph : Phase) (runningMax max : BitVec w)
    (lanes : List (Option (LaneOutput w m))) (pending row : List (BitVec w)) : Prop where
  live : maxMode last ph = .live → LiveMax i runningMax max lanes pending row
  clear : maxMode last ph = .clear → runningMax = minimum w
  absent : maxMode last ph = .clear ∨ maxMode last ph = .settled → Absent i lanes

section Modes

variable {last : NormCmd} {ph : Phase} {leaves : Bool} (visits : last.visits ph = true)

include visits

theorem live_before (later : maxMode last (if leaves then ph.successor last else ph) = .live) :
    maxMode last ph = .live ∧ ph ≠ .output ∧ ph ≠ .getMean ∧ ph ≠ .getVariance := by
  revert visits later
  cases leaves <;> cases last <;> cases ph <;> decide

theorem clear_before (later : maxMode last (if leaves then ph.successor last else ph) = .clear) :
    ph = .output ∨ (maxMode last ph = .clear ∧ ph ≠ .getMax) := by
  revert visits later
  cases leaves <;> cases last <;> cases ph <;> decide

theorem absent_before (later : maxMode last (if leaves then ph.successor last else ph) = .clear ∨
      maxMode last (if leaves then ph.successor last else ph) = .settled) :
    ((maxMode last ph = .clear ∨ maxMode last ph = .settled) ∧ ph ≠ .getMax) ∨
      (last = .invSumExp ∧ ph = .getSum ∧ leaves = true) := by
  revert visits later
  cases leaves <;> cases last <;> cases ph <;> decide

end Modes

section Step

variable {s : State w m} {inp : Input w m} {i : Fin (m + 1)} {last : NormCmd}

theorem newMax_of_own {y : LaneOutput w m} (out : s.maxLanesOut P = some y) (own : y.statsId = i) :
    s.newMax P i = some (smax y.result (s.stats i).runningMax) := by
  simp [State.newMax, out, own]

theorem newMax_of_other (other : ∀ y, s.maxLanesOut P = some y → y.statsId ≠ i) :
    s.newMax P i = none := by
  unfold State.newMax
  cases out : s.maxLanesOut P with
  | none => rfl
  | some y => simp [other y out]

theorem runningMax_le :
    (s.stats i).runningMax.toInt ≤ ((s.newMax P i).getD (s.stats i).runningMax).toInt := by
  by_cases own : ∃ y, s.maxLanesOut P = some y ∧ y.statsId = i
  · obtain ⟨y, out, own⟩ := own
    rw [newMax_of_own out own]
    exact (le_smax _ _).2
  · rw [newMax_of_other (fun y out same => own ⟨y, out, same⟩)]
    rfl

theorem result_kept {y : LaneOutput w m} (held : some y ∈ s.maxLanesIn P :: s.maxLanes)
    (own : y.statsId = i) :
    some y ∈ (s.next P inp).maxLanes ∨
      y.result.toInt ≤ ((s.newMax P i).getD (s.stats i).runningMax).toInt := by
  rw [← pipeNext_pipeOut, List.mem_append, List.mem_singleton] at held
  rcases held with stays | out
  · exact .inl stays
  · right
    rw [newMax_of_own out.symm own]
    exact (le_smax _ _).1

section Others

variable (absent : Absent i s.maxLanes) (other : (s.stats i).state ≠ .getMax)

include absent other

theorem absent_maxLanesIn : Absent i (s.maxLanesIn P :: s.maxLanes) := by
  intro y mem own
  rcases List.mem_cons.1 mem with enters | held
  · obtain ⟨id, valid⟩ := maxLanesIn_statsId enters.symm
    apply other
    rw [← own, id]
    exact getMax_of_maxLanesValid valid
  · exact absent y held own

theorem absent_maxLanes_next : Absent i (s.next P inp).maxLanes :=
  fun y mem => absent_maxLanesIn absent other y (mem_pipeNext mem)

theorem newMax_of_absent : s.newMax P i = none := by
  apply newMax_of_other
  intro y out
  apply absent_maxLanesIn absent other y
  rw [← show pipeOut (s.maxLanesIn P) s.maxLanes = some y from out]
  exact pipeOut_mem _ _

end Others

theorem LiveMax.quiet (width : w ≤ 32) {row : List (BitVec w)}
    (live : LiveMax i (s.stats i).runningMax (s.stats i).max s.maxLanes
      ((s.stats i).pending .getMax) row) :
    LiveMax i ((s.newMax P i).getD (s.stats i).runningMax) ((s.newMax P i).getD (s.stats i).max)
      (s.next P inp).maxLanes (s.rest P .getMax i) row := by
  -- what is in the pipeline with what enters it
  have results : ∀ y, some y ∈ s.maxLanesIn P :: s.maxLanes → y.statsId = i → y.result ∈ row := by
    intro y held own
    rcases List.mem_cons.1 held with enters | held
    · exact live.sent _ (maxLanesIn_spec width enters.symm own).1
    · exact live.results y held own
  constructor
  · intro x mem
    have kept {y : LaneOutput w m} (held : some y ∈ s.maxLanesIn P :: s.maxLanes)
        (own : y.statsId = i) (below : x.toInt ≤ y.result.toInt) :
        x.toInt ≤ ((s.newMax P i).getD (s.stats i).runningMax).toInt ∨
          ∃ y, some y ∈ (s.next P inp).maxLanes ∧ y.statsId = i ∧ x.toInt ≤ y.result.toInt := by
      rcases result_kept held own with stays | out
      · exact .inr ⟨y, stays, own, below⟩
      · exact .inl (below.trans out)
    rcases live.bound x mem with below | ⟨y, held, own, below⟩ | pending
    · exact .inl (below.trans runningMax_le)
    · rw [← or_assoc]
      exact .inl (kept (List.mem_cons_of_mem _ held) own below)
    · by_cases enters : ∃ y, s.maxLanesIn P = some y ∧ y.statsId = i
      · obtain ⟨y, enters, own⟩ := enters
        rcases (maxLanesIn_spec width enters own).2 x pending with below | rest
        · rw [← or_assoc]
          exact .inl (kept (by simp [enters]) own below)
        · exact .inr (.inr rest)
      · rw [maxRest_of_not_enters fun y into own => enters ⟨y, into, own⟩]
        exact .inr (.inr pending)
  · by_cases own : ∃ y, s.maxLanesOut P = some y ∧ y.statsId = i
    · obtain ⟨y, out, own⟩ := own
      rw [newMax_of_own out own]
      rcases smax_eq y.result (s.stats i).runningMax with result | running
      · right
        have held := pipeOut_mem (s.maxLanesIn P) s.maxLanes
        rw [show pipeOut (s.maxLanesIn P) s.maxLanes = some y from out] at held
        rw [Option.getD_some, result]
        exact results y held own
      · rw [Option.getD_some, running]
        exact live.attained
    · rw [newMax_of_other fun y out same => own ⟨y, out, same⟩]
      exact live.attained
  · intro y held own
    exact results y (mem_pipeNext held) own
  · intro x rest
    exact live.sent x (mem_pending_of_mem_rest rest)
  · by_cases own : ∃ y, s.maxLanesOut P = some y ∧ y.statsId = i
    · obtain ⟨y, out, own⟩ := own
      rw [newMax_of_own out own]
      exact .inl rfl
    · have other : ∀ y, s.maxLanesOut P = some y → y.statsId ≠ i := fun y out same =>
        own ⟨y, out, same⟩
      rw [newMax_of_other other]
      -- a result that does not leave is still there
      have stays {y : LaneOutput w m} (held : some y ∈ s.maxLanesIn P :: s.maxLanes)
          (own : y.statsId = i) : ¬ Absent i (s.next P inp).maxLanes := by
        rw [← pipeNext_pipeOut, List.mem_append, List.mem_singleton] at held
        rcases held with held | out
        · exact fun absent => absent y held own
        · exact absurd own (other y out.symm)
      rcases live.current with current | empty | present | pending
      · exact .inl current
      · exact .inr (.inl empty)
      · simp only [Absent, not_forall, not_not] at present
        obtain ⟨y, held, own⟩ := present
        exact .inr (.inr (.inl (stays (List.mem_cons_of_mem _ held) own)))
      · by_cases enters : ∃ y, s.maxLanesIn P = some y ∧ y.statsId = i
        · obtain ⟨y, enters, own⟩ := enters
          exact .inr (.inr (.inl (stays (by simp [enters]) own)))
        · rw [maxRest_of_not_enters fun y into own => enters ⟨y, into, own⟩]
          exact .inr (.inr (.inr pending))

/-- The maximum of an id after a cycle without a request; the exponentials of its last block enter the lanes
when the max lanes have drained. -/
theorem MaxAt.quiet (width : w ≤ 32) {row : List (BitVec w)}
    (visits : last.visits (s.stats i).state = true)
    (cmd : (s.stats i).state ≠ .idle → (s.stats i).req.cmd = last)
    (drains : last = .invSumExp → (s.stats i).state = .getSum → s.leaves P inp i = true →
      Absent i (s.next P inp).maxLanes)
    (maxAt : MaxAt i last (s.stats i).state (s.stats i).runningMax (s.stats i).max s.maxLanes
      ((s.stats i).pending .getMax) row) :
    MaxAt i last (s.advance P inp i)
      (if s.quietReset P inp i then minimum w else (s.newMax P i).getD (s.stats i).runningMax)
      ((s.newMax P i).getD (s.stats i).max) (s.next P inp).maxLanes (s.rest P .getMax i) row := by
  rw [advance_eq cmd]
  refine ⟨fun live => ?_, fun clear => ?_, fun settled => ?_⟩
  · obtain ⟨before, output, mean, variance⟩ := live_before visits live
    have noReset : s.quietReset P inp i = false := by
      simp [State.quietReset, output, mean, variance]
    rw [noReset]
    exact (maxAt.live before).quiet width
  · rcases clear_before visits clear with output | ⟨before, other⟩
    · simp [State.quietReset, output]
    · rw [newMax_of_absent (maxAt.absent (.inl before)) other, Option.getD_none,
        maxAt.clear before, ite_self]
  · rcases absent_before visits settled with ⟨before, other⟩ | ⟨exp, summing, leaves⟩
    · exact absent_maxLanes_next (maxAt.absent before) other
    · exact drains exp summing leaves

theorem LiveMax.start {max : BitVec w} {lanes : List (Option (LaneOutput w m))}
    (absent : Absent i lanes) (block : List (BitVec w)) :
    LiveMax i (minimum w) max lanes block block := by
  refine ⟨fun x mem => .inr (.inr mem), .inl rfl, fun y held own => absurd own (absent y held),
    fun x mem => mem, ?_⟩
  by_cases empty : block = []
  · exact .inr (.inl empty)
  · exact .inr (.inr (.inr empty))

theorem LiveMax.more {runningMax max : BitVec w} {lanes : List (Option (LaneOutput w m))}
    {row : List (BitVec w)} (live : LiveMax i runningMax max lanes [] row) (block : List (BitVec w)) :
    LiveMax i runningMax max lanes block (row ++ block) := by
  constructor
  · intro x mem
    rcases List.mem_append.1 mem with before | new
    · rcases live.bound x before with below | result | none
      · exact .inl below
      · exact .inr (.inl result)
      · cases none
    · exact .inr (.inr new)
  · exact live.attained.imp_right (List.mem_append_left _)
  · intro y held own
    exact List.mem_append_left _ (live.results y held own)
  · intro x mem
    exact List.mem_append_right _ mem
  · rcases live.current with current | empty | present | none
    · exact .inl current
    · by_cases nothing : block = []
      · exact .inr (.inl (by simp [empty, nothing]))
      · exact .inr (.inr (.inr nothing))
    · exact .inr (.inr (.inl present))
    · exact absurd rfl none

theorem maxPass_cases {cmd : NormCmd} (follows : last.follows cmd = true)
    (live : maxMode cmd (State.entry cmd) = .live) (row block : List (BitVec w)) :
    (maxMode last .idle = .clear ∧ State.entry cmd = .getMax ∧ pass last cmd row block = block) ∨
      (maxMode last .idle = .live ∧ State.entry cmd = .getMax ∧
        pass last cmd row block = row ++ block) ∨
      (maxMode last .idle = .live ∧ State.entry cmd ≠ .getMax ∧ pass last cmd row block = row) := by
  cases last <;> cases cmd <;> simp [NormCmd.follows] at follows <;>
    simp [maxMode, State.entry, pass] at live ⊢

theorem maxSettled_of_follows {cmd : NormCmd} (follows : last.follows cmd = true)
    (settled : maxMode cmd (State.entry cmd) = .clear ∨ maxMode cmd (State.entry cmd) = .settled) :
    maxMode cmd (State.entry cmd) ≠ .clear ∧
      (maxMode last .idle = .clear ∨ maxMode last .idle = .settled) := by
  revert follows settled
  cases last <;> cases cmd <;> decide

theorem MaxAt.accept {cmd : NormCmd} {runningMax max : BitVec w}
    {lanes : List (Option (LaneOutput w m))} {row : List (BitVec w)} (block : List (BitVec w))
    (follows : last.follows cmd = true) (maxAt : MaxAt i last .idle runningMax max lanes [] row) :
    MaxAt i cmd (State.entry cmd) runningMax max lanes
      (if State.entry cmd = .getMax then block else []) (pass last cmd row block) := by
  refine ⟨fun live => ?_, fun clear => ?_, fun settled => ?_⟩
  · rcases maxPass_cases follows live row block with ⟨clear, entry, fresh⟩ | ⟨going, entry, more⟩ |
      ⟨going, entry, same⟩
    · rw [if_pos entry, fresh, maxAt.clear clear]
      exact LiveMax.start (maxAt.absent (.inl clear)) block
    · rw [if_pos entry, more]
      exact (maxAt.live going).more block
    · rw [if_neg entry, same]
      exact maxAt.live going
  · exact absurd clear (maxSettled_of_follows follows (.inl clear)).1
  · exact maxAt.absent (maxSettled_of_follows follows settled).2

end Step

def Maxima (s : Tracked w m) (i : Fin (m + 1)) : Prop :=
  MaxAt i (s.last i) (s.regs.stats i).state (s.regs.stats i).runningMax (s.regs.stats i).max
    s.regs.maxLanes ((s.regs.stats i).pending .getMax) (s.row i)

/-- Once an exponential of its last block has entered the lanes, an id has no result in the max lanes. -/
def Draining (s : Tracked w m) (i : Fin (m + 1)) : Prop :=
  s.last i = .invSumExp → (s.regs.stats i).state = .getSum →
    Absent i s.regs.maxLanes ∨ 0 < (s.regs.stats i).elemsLeft

section Draining

variable {s : Tracked w m} {inp : Input w m} {i : Fin (m + 1)}

theorem absent_of_lanesValid {s : State w m} (valid : s.lanesValid P = true) :
    Absent i (s.next P inp).maxLanes := by
  simp only [State.lanesValid, Bool.and_eq_true, Bool.not_eq_true'] at valid
  intro y mem
  exact absent_of_not_busy valid.2 y (mem_pipeNext mem)

theorem Draining.leaves (draining : Draining s i) (exp : s.last i = .invSumExp)
    (summing : (s.regs.stats i).state = .getSum) (leaves : s.regs.leaves P inp i = true) :
    Absent i (s.regs.next P inp).maxLanes := by
  by_cases valid : s.regs.lanesValid P = true
  · exact absent_of_lanesValid valid
  · have none : (s.regs.stats i).elemsLeft = 0 := by
      simp only [State.leaves, summing, State.lastLaneInput, valid, Bool.and_false, Bool.or_false,
        decide_eq_true_eq] at leaves
      exact Stats.elemsLeft_eq_zero_iff.1 leaves
    have absent := (draining exp summing).resolve_right (by omega)
    exact absent_maxLanes_next absent (by simp [summing])

theorem Draining.next (draining : Draining s i) (consistent : Consistent s i)
    (legal : (tracked w m P).legal s inp) : Draining (s.next P inp) i := by
  intro exp summing
  by_cases input : s.regs.isInput P inp i = true
  · right
    have fires : s.regs.inFire P inp = true ∧ inp.bits.statsId = i := by
      simpa [State.isInput] using input
    have cmd : inp.bits.cmd = .invSumExp := by simpa [Tracked.next, input] using exp
    show 0 < (s.regs.nextStats P inp i).elemsLeft
    simpa [State.nextStats, input] using (legal.2.1 fires.1).2 cmd
  · have last : s.last i = .invSumExp := by simpa [Tracked.next, input] using exp
    have stays : s.regs.advance P inp i = .getSum := by
      rw [← State.nextState_of_not_isInput input]
      exact summing
    have state := state_of_advance (.inl rfl) consistent.max_of_getMax stays
    by_cases valid : s.regs.lanesValid P = true
    · exact .inl (absent_of_lanesValid valid)
    · rcases draining last state with absent | left
      · left
        exact absent_maxLanes_next absent (by simp [state])
      · right
        have silent : s.regs.sends P i = false := by
          by_contra sends
          exact valid ((sends_of_getSum state).1 (by simpa using sends)).1
        show 0 < (s.regs.nextStats P inp i).elemsLeft
        unfold State.sends at silent
        simpa [State.nextStats, input, silent] using left

end Draining

theorem Maxima.next (width : w ≤ 32) {s : Tracked w m} {i : Fin (m + 1)} {inp : Input w m}
    (maxima : Maxima s i) (consistent : Consistent s i) (draining : Draining s i)
    (legal : (tracked w m P).legal s inp) : Maxima (s.next P inp) i := by
  have quiet : MaxAt i _ (s.regs.advance P inp i) _ _ _ _ _ :=
    MaxAt.quiet width consistent.visits consistent.cmd draining.leaves maxima
  have reset : s.regs.resetRunningState P inp i = s.regs.quietReset P inp i := resetRunningState_eq
  unfold Maxima
  by_cases input : s.regs.isInput P inp i = true
  · have follows := follows_of_isInput legal input
    rw [advance_of_isInput consistent.visits consistent.cmd input,
      rest_of_isInput (.inr rfl) consistent input] at quiet
    have accepted := quiet.accept inp.bits.block follows
    rw [← reset, ← pending_of_isInput input] at accepted
    simpa [Tracked.next, State.next, State.nextStats, State.nextState, input] using accepted
  · have pending := pending_next (.inr rfl) consistent.max_of_getMax (Bool.eq_false_iff.2 input)
    rw [← pending, ← State.nextState_of_not_isInput input, ← reset] at quiet
    simpa [Tracked.next, State.next, State.nextStats, input] using quiet

def Subtraction.Right (x : Subtraction w) : Prop :=
  x.row ≠ [] → x.max ∈ x.row ∧ ∀ d ∈ x.row, d.toInt ≤ x.max.toInt

theorem right_subtraction (width : w ≤ 32) {s : Tracked w m}
    (consistent : Consistent s s.regs.lanesId) (maxima : Maxima s s.regs.lanesId)
    (valid : s.regs.lanesValid P = true)
    (exp : (s.regs.stats s.regs.lanesId).req.cmd = .sumExp ∨
      (s.regs.stats s.regs.lanesId).req.cmd = .invSumExp) : s.subtraction.Right := by
  have state := getSum_of_lanesValid valid
  simp only [State.lanesValid, Bool.and_eq_true, Bool.not_eq_true'] at valid
  unfold Tracked.subtraction
  generalize s.regs.lanesId = i at *
  have absent : Absent i s.regs.maxLanes := by
    intro y mem
    exact absent_of_not_busy valid.2 y (List.mem_cons_of_mem _ mem)
  have pending : (s.regs.stats i).pending .getMax = [] := Stats.pending_of_ne (by simp [state])
  have live : maxMode (s.last i) (s.regs.stats i).state = .live := by
    rw [consistent.cmd (by simp [state])] at exp
    rcases exp with last | last <;> simp [maxMode, last, state]
  have max := maxima.live live
  rw [pending] at max
  intro some
  have bound : ∀ x ∈ s.row i, x.toInt ≤ (s.regs.stats i).runningMax.toInt := by
    intro x mem
    rcases max.bound x mem with below | ⟨y, held, own, -⟩ | none
    · exact below
    · exact absurd own (absent y held)
    · cases none
  have current : (s.regs.stats i).max = (s.regs.stats i).runningMax := by
    rcases max.current with current | empty | present | none
    · exact current
    · exact absurd empty some
    · exact absurd absent present
    · exact absurd rfl none
  show (s.regs.stats i).max ∈ s.row i ∧ ∀ d ∈ s.row i, d.toInt ≤ (s.regs.stats i).max.toInt
  rw [current]
  refine ⟨?_, bound⟩
  rcases max.attained with least | mem
  · -- a row of least values
    obtain ⟨x, mem⟩ := List.exists_mem_of_ne_nil _ some
    have same : x = (s.regs.stats i).runningMax := by
      apply BitVec.eq_of_toInt_eq
      apply le_antisymm (bound x mem)
      rw [least]
      exact minimum_le width x
    rwa [← same]
  · exact mem

end Gemmini.Normalizer
