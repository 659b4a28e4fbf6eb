import Gemmini.Normalizer.Model

/-!
# The passes over a row

`LoopMatmulStC` sends the blocks of a row three times: for a layer normalization with `SUM`, ...,
`MEAN`, then `VARIANCE`, ..., `INV_STDDEV`, for a softmax with `MAX`, ..., `MAX`, then `SUM_EXP`, ...,
`INV_SUM_EXP`, and at last with `RESET`.  Under these sequences no result of the lanes crosses a reset
of the statistics.
-/

namespace Gemmini.Normalizer

variable {w m : ℕ} {P : Params}

/-! ## The passes over a row -/

def NormCmd.follows : NormCmd → NormCmd → Bool
  | .reset, .sum | .reset, .mean | .reset, .max | .reset, .reset => true
  | .sum, .sum | .sum, .mean => true
  | .mean, .variance | .mean, .invStddev => true
  | .variance, .variance | .variance, .invStddev => true
  | .invStddev, .reset => true
  | .max, .max | .max, .sumExp | .max, .invSumExp => true
  | .sumExp, .sumExp | .sumExp, .invSumExp => true
  | .invSumExp, .reset => true
  | _, _ => false

def Request.block (r : Request w m) : List (BitVec w) := (List.range r.len).map r.data

/-- The elements of a pass after a command; the pass of exponentials keeps those of the maximum. -/
def pass (last cmd : NormCmd) (row block : List (BitVec w)) : List (BitVec w) :=
  match cmd with
  | .sum | .mean => if last = .sum then row ++ block else block
  | .variance | .invStddev => if last = .variance then row ++ block else block
  | .max => if last = .max then row ++ block else block
  | .sumExp | .invSumExp => row
  | .reset => []

structure Division (w : ℕ) where
  ofVariance : Bool
  sum : BitVec w
  count : BitVec 16
  row : List (BitVec w)
  average : BitVec w

structure Subtraction (w : ℕ) where
  max : BitVec w
  row : List (BitVec w)

/-- The normalizer with the last command, the elements and the mean of every id, the id whose division
is under way, and what has gone into the divider and the exponentials. -/
structure Tracked (w m : ℕ) where
  regs : State w m
  last : Fin (m + 1) → NormCmd
  row : Fin (m + 1) → List (BitVec w)
  average : Fin (m + 1) → BitVec w
  dividing : Option (Fin (m + 1))
  divisions : List (Division w)
  subtractions : List (Subtraction w)

namespace Tracked

variable (P) (s : Tracked w m) (inp : Input w m)

def division : Division w :=
  let i := s.regs.askId .divider
  let st := s.regs.stats i
  ⟨st.state = .getVariance, st.sum, st.count, s.row i, s.average i⟩

def subtraction : Subtraction w := ⟨(s.regs.stats s.regs.lanesId).max, s.row s.regs.lanesId⟩

def next : Tracked w m where
  regs := s.regs.next P inp
  last i := if s.regs.isInput P inp i then inp.bits.cmd else s.last i
  row i := if s.regs.isInput P inp i then
    pass (s.last i) inp.bits.cmd (s.row i) inp.bits.block else s.row i
  average i := if s.regs.unitOutFire inp .divider = true ∧ s.dividing = some i ∧
    (s.regs.stats i).state = .waitingForMean then inp.unitBits .divider else s.average i
  dividing := if s.regs.unitInFire P inp .divider then some (s.regs.askId .divider)
    else if s.regs.unitOutFire inp .divider then none else s.dividing
  divisions := if s.regs.unitInFire P inp .divider then s.divisions ++ [s.division]
    else s.divisions
  subtractions :=
    if s.regs.lanesValid P = true ∧ ((s.regs.stats s.regs.lanesId).req.cmd = .sumExp ∨
      (s.regs.stats s.regs.lanesId).req.cmd = .invSumExp) then s.subtractions ++ [s.subtraction]
    else s.subtractions

end Tracked

/-- The normalizer under the command sequences of `LoopMatmulStC`.  The last block of a softmax row is
not empty, and divisions come one at a time. -/
def tracked (w m : ℕ) (P : Params) : Machine (Tracked w m) (Input w m) where
  init s := (normalizer w m P).init s.regs ∧ (∀ i, s.last i = .reset) ∧ s.dividing = none ∧
    s.divisions = [] ∧ s.subtractions = []
  legal s inp := (normalizer w m P).legal s.regs inp ∧
    (s.regs.inFire P inp = true → (s.last inp.bits.statsId).follows inp.bits.cmd = true ∧
      (inp.bits.cmd = .invSumExp → 0 < inp.bits.len)) ∧
    (inp.unitReady .divider = true → s.dividing = none ∨ inp.unitValid .divider = true)
  step := Tracked.next P

/-! ## Commands and states -/

def NormCmd.visits : NormCmd → Phase → Bool
  | _, .idle => true
  | .reset, .output => true
  | .sum, .getSum | .variance, .getSum | .sumExp, .getSum => true
  | .mean, .getSum | .mean, .getMean | .mean, .waitingForMean => true
  | .invStddev, .getSum | .invStddev, .getVariance | .invStddev, .waitingForVariance => true
  | .invStddev, .getStddev | .invStddev, .waitingForStddev => true
  | .invStddev, .getInvStddev | .invStddev, .waitingForInvStddev => true
  | .invStddev, .getScaledInvStddev | .invStddev, .waitingForScaledInvStddev => true
  | .max, .getMax => true
  | .invSumExp, .getSum | .invSumExp, .getInvSumExp | .invSumExp, .waitingForInvSumExp => true
  | .invSumExp, .getScaledInvSumExp | .invSumExp, .waitingForScaledInvSumExp => true
  | _, _ => false

/-- An id is in a state of its last command, and holds its request unless it is idle. -/
structure Consistent (s : Tracked w m) (i : Fin (m + 1)) : Prop where
  visits : (s.last i).visits (s.regs.stats i).state = true
  cmd : (s.regs.stats i).state ≠ .idle → (s.regs.stats i).req.cmd = s.last i

theorem NormCmd.visits_successor {cmd : NormCmd} {ph : Phase} (visits : cmd.visits ph = true) :
    cmd.visits (ph.successor cmd) = true := by
  cases cmd <;> cases ph <;> simp [NormCmd.visits] at visits <;> rfl

theorem advance_eq {s : State w m} {inp : Input w m} {i : Fin (m + 1)} {cmd : NormCmd}
    (held : (s.stats i).state ≠ .idle → (s.stats i).req.cmd = cmd) :
    s.advance P inp i =
      if s.leaves P inp i then (s.stats i).state.successor cmd else (s.stats i).state := by
  by_cases idle : (s.stats i).state = .idle
  · simp [State.advance, State.leaves, idle]
  · rw [State.advance, held idle]

theorem Consistent.next {s : Tracked w m} {i : Fin (m + 1)} (consistent : Consistent s i)
    (inp : Input w m) : Consistent (s.next P inp) i := by
  by_cases input : s.regs.isInput P inp i = true
  · refine ⟨?_, fun _ => ?_⟩
    · show NormCmd.visits (if _ then _ else _) (s.regs.nextState P inp i) = true
      rw [if_pos input, State.nextState, if_pos input]
      cases inp.bits.cmd <;> rfl
    · show (s.regs.nextStats P inp i).req.cmd = if _ then _ else _
      rw [if_pos input]
      simp [State.nextStats, input]
  · have state := State.nextState_of_not_isInput input
    refine ⟨?_, fun busy => ?_⟩
    · show NormCmd.visits (if _ then _ else _) (s.regs.nextState P inp i) = true
      rw [if_neg input, state, advance_eq consistent.cmd]
      split_ifs
      · exact NormCmd.visits_successor consistent.visits
      · exact consistent.visits
    · show (s.regs.nextStats P inp i).req.cmd = if _ then _ else _
      rw [if_neg input]
      have before : (s.regs.stats i).state ≠ .idle := by
        intro idle
        apply busy
        show s.regs.nextState P inp i = .idle
        rw [state, State.advance_of_idle idle]
      simp [State.nextStats, input, consistent.cmd before]

theorem Consistent.max_of_getMax {s : Tracked w m} {i : Fin (m + 1)} (consistent : Consistent s i)
    (phase : (s.regs.stats i).state = .getMax) : (s.regs.stats i).req.cmd = .max := by
  have visits := consistent.visits
  rw [consistent.cmd (by simp [phase])]
  rw [phase] at visits
  cases last : s.last i <;> simp [last, NormCmd.visits] at visits
  rfl

/-! ## Pipelines -/

def Absent (i : Fin (m + 1)) (stages : List (Option (LaneOutput w m))) : Prop :=
  ∀ y, some y ∈ stages → y.statsId ≠ i

theorem pipeNext_pipeOut {α : Type} (x : Option α) (stages : List (Option α)) :
    pipeNext x stages ++ [pipeOut x stages] = x :: stages := by
  have last : pipeOut x stages = (x :: stages).getLast (by simp) := by
    simp [pipeOut, List.getLast?_eq_some_getLast]
  rw [last, pipeNext, List.dropLast_append_getLast]

theorem mem_pipeNext {α : Type} {x y : Option α} {stages : List (Option α)}
    (mem : y ∈ pipeNext x stages) : y ∈ x :: stages := by
  rw [← pipeNext_pipeOut x stages]
  exact List.mem_append_left _ mem

theorem pipeOut_mem {α : Type} (x : Option α) (stages : List (Option α)) :
    pipeOut x stages ∈ x :: stages := by
  rw [← pipeNext_pipeOut x stages]
  simp

theorem absent_of_not_busy {i : Fin (m + 1)} {x : Option (LaneOutput w m)} {stages : List (Option (LaneOutput w m))}
    (idle : pipeBusy x stages = false) : Absent i (x :: stages) := by
  intro y mem
  simp only [pipeBusy, List.any_eq_false] at idle
  exact absurd rfl (idle _ mem)

/-! ## The elements that have not entered the lanes -/

/-- The elements of the request that are still to enter the lanes, in the state in which they do. -/
def Stats.pending (ph : Phase) (st : Stats w m) : List (BitVec w) :=
  if st.state = ph then (List.range st.elemsLeft).map st.req.data else []

theorem Stats.pending_of_ne {ph : Phase} {st : Stats w m} (other : st.state ≠ ph) :
    st.pending ph = [] := if_neg other

section Groups

variable {st : Stats w m}

theorem Stats.group_start (left : 0 < st.vecGroupsLeft P) :
    (st.vecGroupsLeft P - 1) * P.nLanes + st.groupLen P = st.elemsLeft := by
  have division := Nat.div_add_mod' st.elemsLeft P.nLanes
  unfold Stats.vecGroupsLeft Stats.groupLen at *
  split_ifs at * with whole
  · rw [Nat.add_zero, Nat.sub_mul, Nat.one_mul]
    have : P.nLanes ≤ st.elemsLeft / P.nLanes * P.nLanes := Nat.le_mul_of_pos_left _ (by omega)
    omega
  · simp only [Nat.add_sub_cancel]
    omega

theorem Stats.elems_split (left : 0 < st.vecGroupsLeft P) :
    (List.range st.elemsLeft).map st.req.data =
      (List.range (st.elemsLeft - st.groupLen P)).map st.req.data ++
        (List.range (st.groupLen P)).map (st.group P) := by
  have start := Stats.group_start left
  have before : st.elemsLeft - st.groupLen P = (st.vecGroupsLeft P - 1) * P.nLanes := by omega
  rw [before]
  nth_rewrite 1 [← start]
  rw [List.range_add, List.map_append, List.map_map]
  rfl

theorem Stats.elemsLeft_eq_zero_iff : st.vecGroupsLeft P = 0 ↔ st.elemsLeft = 0 := by
  constructor
  · intro none
    have division := Nat.div_add_mod' st.elemsLeft P.nLanes
    unfold Stats.vecGroupsLeft at none
    split_ifs at none with whole
    rw [Nat.add_zero] at none
    rw [none, whole] at division
    omega
  · intro none
    simp [Stats.vecGroupsLeft, none]

theorem Stats.groupLen_pos : 0 < st.groupLen P := by
  have lanes := P.lanesPos
  unfold Stats.groupLen
  split_ifs <;> omega

theorem Stats.groupLen_of_last (last : st.vecGroupsLeft P = 1) : st.groupLen P = st.elemsLeft := by
  have start := Stats.group_start (last.symm ▸ Nat.one_pos)
  rw [last] at start
  omega

end Groups

section Requests

variable {s : State w m} {inp : Input w m} {i : Fin (m + 1)}

def State.sends (P : Params) (s : State w m) (i : Fin (m + 1)) : Bool :=
  (s.lanesValid P && s.lanesId = i) || (s.maxLanesValid P && s.maxLanesId = i)

def State.rest (P : Params) (s : State w m) (ph : Phase) (i : Fin (m + 1)) : List (BitVec w) :=
  let st := s.stats i
  if st.state = ph then
    (List.range (if s.sends P i then st.elemsLeft - st.groupLen P else st.elemsLeft)).map
      st.req.data
  else []

theorem getSum_of_lanesValid (valid : s.lanesValid P = true) :
    (s.stats s.lanesId).state = .getSum := by
  simp only [State.lanesValid, Bool.and_eq_true, decide_eq_true_eq] at valid
  exact valid.1.1

theorem getMax_of_maxLanesValid (valid : s.maxLanesValid P = true) :
    (s.stats s.maxLanesId).state = .getMax := by
  simp only [State.maxLanesValid, Bool.and_eq_true, decide_eq_true_eq] at valid
  exact valid.1

theorem sends_of_getSum (state : (s.stats i).state = .getSum) :
    s.sends P i = true ↔ s.lanesValid P = true ∧ s.lanesId = i := by
  simp only [State.sends, Bool.or_eq_true, Bool.and_eq_true, decide_eq_true_eq, or_iff_left_iff_imp]
  rintro ⟨valid, id⟩
  have other := getMax_of_maxLanesValid valid
  rw [id, state] at other
  cases other

theorem sends_of_getMax (state : (s.stats i).state = .getMax) :
    s.sends P i = true ↔ s.maxLanesValid P = true ∧ s.maxLanesId = i := by
  simp only [State.sends, Bool.or_eq_true, Bool.and_eq_true, decide_eq_true_eq,
    or_iff_right_iff_imp]
  rintro ⟨valid, id⟩
  have other := getSum_of_lanesValid valid
  rw [id, state] at other
  cases other

theorem rest_of_ne {ph : Phase} (other : (s.stats i).state ≠ ph) : s.rest P ph i = [] := if_neg other

theorem rest_of_last {ph : Phase} (last : (s.stats i).vecGroupsLeft P = 0 ∨
    ((s.stats i).vecGroupsLeft P = 1 ∧ s.sends P i = true)) : s.rest P ph i = [] := by
  unfold State.rest
  rcases last with none | ⟨one, sends⟩
  · simp [Stats.elemsLeft_eq_zero_iff.1 none]
  · simp [sends, Stats.groupLen_of_last one]

theorem rest_of_leaves {ph : Phase} (sending : ph = .getSum ∨ ph = .getMax)
    (leaves : s.leaves P inp i = true) : s.rest P ph i = [] := by
  by_cases state : (s.stats i).state = ph
  · apply rest_of_last
    rcases sending with rfl | rfl
    · rw [sends_of_getSum state, and_comm (a := s.lanesValid P = true), ← and_assoc]
      simpa [State.leaves, State.lastLaneInput, state] using leaves
    · rw [sends_of_getMax state, and_comm (a := s.maxLanesValid P = true), ← and_assoc]
      simpa [State.leaves, State.lastMaxLaneInput, state] using leaves
  · exact rest_of_ne state

variable {ph : Phase} (sending : ph = .getSum ∨ ph = .getMax)
  (held : (s.stats i).state = .getMax → (s.stats i).req.cmd = .max)
include sending held

theorem state_of_advance (later : s.advance P inp i = ph) : (s.stats i).state = ph := by
  unfold State.advance at later
  split_ifs at later
  · rcases sending with rfl | rfl
    all_goals
      cases phase : (s.stats i).state
      case getMax => simp [phase, held phase, Phase.successor] at later
      case getSum => cases cmd : (s.stats i).req.cmd <;> simp_all [Phase.successor]
      all_goals simp_all [Phase.successor, Phase.next]
  · exact later

theorem pending_next (noInput : s.isInput P inp i = false) :
    ((s.next P inp).stats i).pending ph = s.rest P ph i := by
  have next : s.nextState P inp i = s.advance P inp i := by simp [State.nextState, noInput]
  by_cases stays : s.advance P inp i = ph
  · have state := state_of_advance sending held stays
    show (if s.nextState P inp i = ph then _ else _) = _
    rw [next, if_pos stays, State.rest, if_pos state]
    simp [State.next, State.nextStats, noInput, State.sends]
  · have left : s.rest P ph i = [] := by
      by_cases state : (s.stats i).state = ph
      · have leaves : s.leaves P inp i = true := by
          by_contra remains
          exact stays ((if_neg remains).trans state)
        exact rest_of_leaves sending leaves
      · exact rest_of_ne state
    rw [left]
    apply Stats.pending_of_ne
    show s.nextState P inp i ≠ _
    rwa [next]

end Requests

/-! ## Requests -/

def State.quietReset (P : Params) (s : State w m) (inp : Input w m) (i : Fin (m + 1)) : Bool :=
  (s.stats i).state = .output || ((s.stats i).state = .getMean && s.leaves P inp i) ||
    ((s.stats i).state = .getVariance && s.leaves P inp i)

section Step

variable {s : State w m} {inp : Input w m} {i : Fin (m + 1)} {last : NormCmd}

theorem advance_of_isInput (visits : last.visits (s.stats i).state = true)
    (cmd : (s.stats i).state ≠ .idle → (s.stats i).req.cmd = last)
    (input : s.isInput P inp i = true) : s.advance P inp i = .idle := by
  by_cases idle : (s.stats i).state = .idle
  · exact State.advance_of_idle idle
  · have done := (State.free_of_isInput input).resolve_left idle
    have held := cmd idle
    unfold State.advance
    cases phase : (s.stats i).state <;>
      simp only [State.done, phase, Bool.and_eq_true, decide_eq_true_eq, Bool.false_eq_true] at done
    case getSum =>
      have leaves : s.leaves P inp i = true := by simp [State.leaves, phase, done.1.1.1]
      rw [if_pos leaves]
      rw [phase, ← held] at visits
      obtain ⟨⟨⟨-, mean⟩, invStddev⟩, invSumExp⟩ := done
      cases command : (s.stats i).req.cmd <;>
        simp [command, NormCmd.visits] at visits mean invStddev invSumExp <;> rfl
    all_goals simp [State.leaves, phase, done, Phase.successor]

theorem isInput_ne (input : s.isInput P inp i = true) :
    (s.stats i).state ≠ .getMean ∧ (s.stats i).state ≠ .getVariance := by
  have free := State.free_of_isInput input
  constructor <;> intro phase <;> simp [State.done, phase] at free

theorem resetRunningState_eq : s.resetRunningState P inp i = s.quietReset P inp i := by
  by_cases input : s.isInput P inp i = true
  · obtain ⟨mean, variance⟩ := isInput_ne input
    simp [State.resetRunningState, State.quietReset, mean, variance]
  · unfold State.resetRunningState State.quietReset
    rw [State.nextState_of_not_isInput input]
    cases phase : (s.stats i).state <;> simp [phase, State.advance, Phase.successor, Phase.next]

end Step

section Input

variable {s : Tracked w m} {inp : Input w m} {i : Fin (m + 1)}

theorem rest_of_isInput {ph : Phase} (sending : ph = .getSum ∨ ph = .getMax)
    (consistent : Consistent s i) (input : s.regs.isInput P inp i = true) :
    s.regs.rest P ph i = [] := by
  by_cases state : (s.regs.stats i).state = ph
  · have leaves : s.regs.leaves P inp i = true := by
      have idle := advance_of_isInput consistent.visits consistent.cmd input
      by_contra remains
      have same := (if_neg remains).symm.trans idle
      rw [state] at same
      rcases sending with rfl | rfl <;> cases same
    exact rest_of_leaves sending leaves
  · exact rest_of_ne state

theorem follows_of_isInput (legal : (tracked w m P).legal s inp)
    (input : s.regs.isInput P inp i = true) : (s.last i).follows inp.bits.cmd = true := by
  simp only [State.isInput, Bool.and_eq_true, decide_eq_true_eq] at input
  rw [← input.2]
  exact (legal.2.1 input.1).1

theorem pending_of_isInput {ph : Phase} (input : s.regs.isInput P inp i = true) :
    ((s.next P inp).regs.stats i).pending ph =
      if State.entry inp.bits.cmd = ph then inp.bits.block else [] := by
  simp [Stats.pending, Tracked.next, State.next, State.nextStats, State.nextState, input,
    Request.block]

end Input

end Gemmini.Normalizer
