import Gemmini.Lib.Machine
import Mathlib.Data.BitVec
import Mathlib.Data.Fin.Tuple.Basic
import Mathlib.Tactic

/-!
# The normalizer

`Normalizer.scala`: rows of the accumulator come in blocks, each with a command and the id of its
statistics.  The elements of a block go in groups through the accumulation lanes or the max lanes, which
all ids share.  The last block of a pass sends the statistics through the functional units, and a block
with `RESET` leaves for the scaling unit.

What the functional units do is an input.  Every register gets its value as the chain of its connections
in source order, so that the last connection wins.
-/

namespace Gemmini.Normalizer

inductive NormCmd
  | reset
  | sum
  | mean
  | variance
  | invStddev
  | max
  | sumExp
  | invSumExp
  deriving DecidableEq, Repr

/-- `State`. -/
inductive Phase
  | idle
  | output
  | getSum
  | getMean
  | waitingForMean
  | getVariance
  | waitingForVariance
  | getStddev
  | waitingForStddev
  | getInvStddev
  | waitingForInvStddev
  | getScaledInvStddev
  | waitingForScaledInvStddev
  | getMax
  | getInvSumExp
  | waitingForInvSumExp
  | getScaledInvSumExp
  | waitingForScaledInvSumExp
  deriving DecidableEq, Repr

/-- `state.next`. -/
def Phase.next : Phase → Phase
  | .idle => .output
  | .output => .getSum
  | .getSum => .getMean
  | .getMean => .waitingForMean
  | .waitingForMean => .getVariance
  | .getVariance => .waitingForVariance
  | .waitingForVariance => .getStddev
  | .getStddev => .waitingForStddev
  | .waitingForStddev => .getInvStddev
  | .getInvStddev => .waitingForInvStddev
  | .waitingForInvStddev => .getScaledInvStddev
  | .getScaledInvStddev => .waitingForScaledInvStddev
  | .waitingForScaledInvStddev => .getMax
  | .getMax => .getInvSumExp
  | .getInvSumExp => .waitingForInvSumExp
  | .waitingForInvSumExp => .getScaledInvSumExp
  | .getScaledInvSumExp => .waitingForScaledInvSumExp
  | .waitingForScaledInvSumExp => .idle

/-- The divider of sums by counts, `sqrt_unit`, the reciprocal, `inv_stddev_scale_mul_pipe`,
`exp_divider` and `inv_sum_exp_scale_mul_pipe`. -/
inductive FunctionalUnit
  | divider
  | sqrt
  | reciprocal
  | invStddevScale
  | expDivider
  | invSumExpScale
  deriving DecidableEq, Repr

def Phase.asks : Phase → Option FunctionalUnit
  | .getMean | .getVariance => some .divider
  | .getStddev => some .sqrt
  | .getInvStddev => some .reciprocal
  | .getScaledInvStddev => some .invStddevScale
  | .getInvSumExp => some .expDivider
  | .getScaledInvSumExp => some .invSumExpScale
  | _ => none

def Phase.awaits : Phase → Option FunctionalUnit
  | .waitingForMean | .waitingForVariance => some .divider
  | .waitingForStddev => some .sqrt
  | .waitingForInvStddev => some .reciprocal
  | .waitingForScaledInvStddev => some .invStddevScale
  | .waitingForInvSumExp => some .expDivider
  | .waitingForScaledInvSumExp => some .invSumExpScale
  | _ => none

def Phase.successor (cmd : NormCmd) : Phase → Phase
  | .idle | .output => .idle
  | .waitingForMean | .waitingForScaledInvStddev | .waitingForScaledInvSumExp => .idle
  | .getMax =>
    match cmd with
    | .max => .idle
    | .sumExp | .invSumExp => .getSum
    | _ => .getMax
  | .getSum =>
    match cmd with
    | .sum | .variance | .sumExp => .idle
    | .mean => .getMean
    | .invStddev => .getVariance
    | .invSumExp => .getInvSumExp
    | _ => .getSum
  | ph => ph.next

def FunctionalUnit.waitsForLanes : FunctionalUnit → Bool
  | .divider | .expDivider => true
  | _ => false

structure IExpConst (w : ℕ) where
  qb : BitVec w
  qc : BitVec w
  qln2 : BitVec w
  qln2Inv : BitVec w
  deriving DecidableEq, Repr

/-- `NormalizedInput`, with the elements, the constants and the scale of its `acc_read_resp`. -/
structure Request (w m : ℕ) where
  data : ℕ → BitVec w
  const : IExpConst w
  scale : BitVec w
  len : ℕ
  statsId : Fin (m + 1)
  cmd : NormCmd

/-- The parameters of the normalizer; the vector that is normalized has `maxLen` elements. -/
structure Params where
  nLanes : ℕ
  lanesPos : 0 < nLanes
  maxLen : ℕ
  latency : ℕ

/-! ## Lanes -/

section Lanes

variable {w : ℕ}

/-- `minimum` of a signed type, whose shift is one of a 32-bit `Int`. -/
def minimum (w : ℕ) : BitVec w := (-(1#32 <<< ((w - 1) % 32))).signExtend w

/-- The larger one of two signed numbers, `Mux(a > b, a, b)`. -/
def smax (a b : BitVec w) : BitVec w := if b.slt a then a else b

/-- `AccumulatorScale.iexp`, which does not use the constants for the logarithm of two. -/
def iexp (q : BitVec w) (c : IExpConst w) : BitVec w :=
  let qSign := if q.slt 0 then -1 else 1
  let qAbs := if q.slt 0 then -q else q
  let qClipped := if (-c.qb).slt qAbs then -c.qb else qAbs
  let qPoly := (qClipped + c.qb) * (qClipped + c.qb) + c.qc
  let qErf := qSign * qPoly
  q * (qErf + c.qc)

def laneTerm (cmd : NormCmd) (mean max : BitVec w) (c : IExpConst w) (d : BitVec w) : BitVec w :=
  match cmd with
  | .variance | .invStddev => (d - mean) * (d - mean)
  | .sumExp | .invSumExp => iexp (d - max) c
  | _ => d

def treeMax (x : List (BitVec w)) : BitVec w :=
  if x.length ≤ 1 then x.headD 0
  else smax (treeMax (x.take (x.length / 2))) (treeMax (x.drop (x.length / 2)))
termination_by x.length
decreasing_by
  all_goals simp only [List.length_take, List.length_drop]; omega

structure LaneOutput (w m : ℕ) where
  result : BitVec w
  statsId : Fin (m + 1)
  deriving DecidableEq, Repr

/-- What leaves a pipeline that is never stalled; with no stage it is what enters. -/
def pipeOut {α : Type} (x : Option α) (stages : List (Option α)) : Option α :=
  (x :: stages).getLast?.join

def pipeNext {α : Type} (x : Option α) (stages : List (Option α)) : List (Option α) :=
  (x :: stages).dropLast

/-- `busy` of a pipeline. -/
def pipeBusy {α : Type} (x : Option α) (stages : List (Option α)) : Bool :=
  (x :: stages).any Option.isSome

end Lanes

/-! ## Registers -/

structure Stats (w m : ℕ) where
  req : Request w m
  state : Phase
  sum : BitVec w
  count : BitVec 16
  runningMax : BitVec w
  max : BitVec w
  mean : BitVec w
  invStddev : BitVec w
  invSumExp : BitVec w
  elemsLeft : ℕ

structure State (w m : ℕ) where
  stats : Fin (m + 1) → Stats w m
  lanes : List (Option (LaneOutput w m))
  maxLanes : List (Option (LaneOutput w m))

/-- The inputs of a cycle; `bits` is on the port whether it is valid or not. -/
structure Input (w m : ℕ) where
  valid : Bool
  bits : Request w m
  outReady : Bool
  unitReady : FunctionalUnit → Bool
  unitValid : FunctionalUnit → Bool
  unitBits : FunctionalUnit → BitVec w

/-- A `MuxCase` over the ids: the first one that meets a condition, or the last id. -/
def pick {m : ℕ} (p : Fin (m + 1) → Bool) : Fin (m + 1) := (Fin.find? p).getD (Fin.last m)

section Stats

variable {w m : ℕ} (P : Params) (st : Stats w m)

def Stats.vecGroupsLeft : ℕ :=
  st.elemsLeft / P.nLanes + if st.elemsLeft % P.nLanes = 0 then 0 else 1

def Stats.groupLen : ℕ :=
  if st.elemsLeft % P.nLanes = 0 then P.nLanes else st.elemsLeft % P.nLanes

/-- `vec_grouped(vec_groups_left - 1)`. -/
def Stats.group (i : ℕ) : BitVec w := st.req.data ((st.vecGroupsLeft P - 1) * P.nLanes + i)

def Stats.waitingForLanesToDrain : Bool :=
  (st.req.cmd = .mean && (st.state = .getSum || st.state = .getMean)) ||
    (st.req.cmd = .invStddev && (st.state = .getSum || st.state = .getVariance)) ||
    (st.req.cmd = .max && st.state = .getMax) ||
    (st.req.cmd = .invSumExp && st.state = .getSum)

end Stats

namespace State

variable {w m : ℕ} (P : Params) (s : State w m) (inp : Input w m) (i : Fin (m + 1))

/-! ### The output -/

/-- `out_stats_id`. -/
def outId : Fin (m + 1) := pick fun i => (s.stats i).state = .output

def outFire : Bool := (s.stats s.outId).state = .output && inp.outReady

/-! ### The lanes -/

/-- `max_in_lanes_stats_id`. -/
def maxLanesId : Fin (m + 1) := pick fun i => (s.stats i).state = .getMax

/-- `max_lanes.io.ins.valid`. -/
def maxLanesValid : Bool :=
  (s.stats s.maxLanesId).state = .getMax && 0 < (s.stats s.maxLanesId).vecGroupsLeft P

def maxLanesIn : Option (LaneOutput w m) :=
  let st := s.stats s.maxLanesId
  if s.maxLanesValid P then
    some ⟨treeMax ((List.range P.nLanes).map fun i =>
      if i < st.groupLen P then st.group P i else minimum w), s.maxLanesId⟩
  else none

def maxLanesBusy : Bool := pipeBusy (s.maxLanesIn P) s.maxLanes

def maxLanesOut : Option (LaneOutput w m) := pipeOut (s.maxLanesIn P) s.maxLanes

/-- `in_lanes_stats_id`. -/
def lanesId : Fin (m + 1) := pick fun i => (s.stats i).state = .getSum

/-- `lanes.io.ins.valid`. -/
def lanesValid : Bool :=
  (s.stats s.lanesId).state = .getSum && 0 < (s.stats s.lanesId).vecGroupsLeft P &&
    !s.maxLanesBusy P

/-- What enters the pipeline of the accumulation lanes.  The constants are those on the input port. -/
def lanesIn : Option (LaneOutput w m) :=
  let st := s.stats s.lanesId
  if s.lanesValid P then
    some ⟨((List.range P.nLanes).map fun i =>
      if i < st.groupLen P then
        laneTerm st.req.cmd st.mean st.max inp.bits.const (st.group P i)
      else 0).sum, s.lanesId⟩
  else none

def lanesBusy : Bool := pipeBusy (s.lanesIn P inp) s.lanes

def lanesOut : Option (LaneOutput w m) := pipeOut (s.lanesIn P inp) s.lanes

/-- `is_last_lane_input` of the max lanes. -/
def lastMaxLaneInput : Bool :=
  let left := (s.stats i).vecGroupsLeft P
  left = 0 || (left = 1 && s.maxLanesId = i && s.maxLanesValid P)

/-- `is_last_lane_input` of the accumulation lanes. -/
def lastLaneInput : Bool :=
  let left := (s.stats i).vecGroupsLeft P
  left = 0 || (left = 1 && s.lanesId = i && s.lanesValid P)

/-! ### The functional units -/

variable (u : FunctionalUnit)

def askId : Fin (m + 1) := pick fun i => (s.stats i).state.asks = some u

def unitInFire : Bool :=
  (s.stats (s.askId u)).state.asks = some u && !(u.waitsForLanes && s.lanesBusy P inp) &&
    inp.unitReady u

def waitId : Fin (m + 1) := pick fun i => (s.stats i).state.awaits = some u

def unitOutFire : Bool :=
  (s.stats (s.waitId u)).state.awaits = some u && inp.unitValid u

/-! ### State transitions -/

/-- `done_with_functional_units`, apart from the idle state. -/
def done : Bool :=
  let st := s.stats i
  match st.state with
  | .output => s.outFire inp && s.outId = i
  | .getMax => s.lastMaxLaneInput P i && st.req.cmd = .max
  | .getSum => s.lastLaneInput P i && st.req.cmd ≠ .mean && st.req.cmd ≠ .invStddev &&
      st.req.cmd ≠ .invSumExp
  | .waitingForMean => s.unitOutFire inp .divider
  | .waitingForScaledInvStddev => s.unitOutFire inp .invStddevScale
  | .waitingForScaledInvSumExp => s.unitOutFire inp .invSumExpScale
  | _ => false

/-- `io.in.ready`. -/
def inReady : Bool :=
  ((s.stats inp.bits.statsId).state = .idle || s.done P inp inp.bits.statsId) &&
    decide (∀ i, (s.stats i).waitingForLanesToDrain = false)

def inFire : Bool := inp.valid && s.inReady P inp

def isInput : Bool := s.inFire P inp && inp.bits.statsId = i

def leaves : Bool :=
  match (s.stats i).state with
  | .idle => false
  | .output => s.outFire inp && s.outId = i
  | .getMax => s.lastMaxLaneInput P i
  | .getSum => s.lastLaneInput P i
  | .getMean | .getVariance => s.unitInFire P inp .divider && s.askId .divider = i
  | .waitingForMean | .waitingForVariance => s.unitOutFire inp .divider
  | .getStddev => s.unitInFire P inp .sqrt && s.askId .sqrt = i
  | .waitingForStddev => s.unitOutFire inp .sqrt
  | .getInvStddev => s.unitInFire P inp .reciprocal && s.askId .reciprocal = i
  | .waitingForInvStddev => s.unitOutFire inp .reciprocal
  | .getScaledInvStddev => s.unitInFire P inp .invStddevScale && s.askId .invStddevScale = i
  | .waitingForScaledInvStddev => s.unitOutFire inp .invStddevScale
  | .getInvSumExp => s.unitInFire P inp .expDivider && s.askId .expDivider = i
  | .waitingForInvSumExp => s.unitOutFire inp .expDivider
  | .getScaledInvSumExp => s.unitInFire P inp .invSumExpScale && s.askId .invSumExpScale = i
  | .waitingForScaledInvSumExp => s.unitOutFire inp .invSumExpScale

def advance : Phase :=
  if s.leaves P inp i then (s.stats i).state.successor (s.stats i).req.cmd else (s.stats i).state

theorem advance_of_idle {P} {s : State w m} {inp} {i} (idle : (s.stats i).state = .idle) :
    s.advance P inp i = .idle := by
  simp [advance, leaves, idle]

def entry (cmd : NormCmd) : Phase :=
  match cmd with
  | .reset => .output
  | .max => .getMax
  | _ => .getSum

def nextState : Phase :=
  if s.isInput P inp i then entry inp.bits.cmd else s.advance P inp i

theorem free_of_isInput {P} {s : State w m} {inp} {i} (input : s.isInput P inp i = true) :
    (s.stats i).state = .idle ∨ s.done P inp i = true := by
  simp only [isInput, inFire, inReady, Bool.and_eq_true, Bool.or_eq_true, decide_eq_true_eq] at input
  obtain ⟨⟨-, free, -⟩, rfl⟩ := input
  exact free

theorem nextState_of_not_isInput {P} {s : State w m} {inp} {i} (input : ¬ s.isInput P inp i = true) :
    s.nextState P inp i = s.advance P inp i := if_neg input

def resetRunningState : Bool :=
  let st := s.stats i
  st.state = .output || (st.state = .getMean && s.nextState P inp i ≠ .getMean) ||
    (st.state = .getVariance && s.nextState P inp i ≠ .getVariance)

/-! ### The statistics after the clock edge -/

/-- `new_max`, if a result of the max lanes is for this id. -/
def newMax : Option (BitVec w) :=
  (s.maxLanesOut P).bind fun x =>
    if x.statsId = i then some (smax x.result (s.stats i).runningMax) else none

def newSum : BitVec w :=
  match s.lanesOut P inp with
  | some x => if x.statsId = i then (s.stats i).sum + x.result else (s.stats i).sum
  | none => (s.stats i).sum

def answer : Option (BitVec w) :=
  (s.stats i).state.awaits.bind fun u => if s.waitId u = i then some (inp.unitBits u) else none

def nextStats : Stats w m :=
  let st := s.stats i
  { req := if s.isInput P inp i then inp.bits else st.req
    state := s.nextState P inp i
    sum := if s.resetRunningState P inp i then 0 else s.newSum P inp i
    count :=
      if s.resetRunningState P inp i then
        if s.isInput P inp i then BitVec.ofNat 16 inp.bits.len else 0
      else if s.isInput P inp i then st.count + BitVec.ofNat 16 inp.bits.len else st.count
    runningMax :=
      if s.resetRunningState P inp i then minimum w else (s.newMax P i).getD st.runningMax
    max := (s.newMax P i).getD st.max
    mean := if st.state = .waitingForMean then (s.answer inp i).getD st.mean else st.mean
    invStddev :=
      match st.state with
      | .waitingForStddev =>
        ((s.answer inp i).map fun x => if x = 0 then 1 else x).getD st.invStddev
      | .waitingForVariance | .waitingForInvStddev | .waitingForScaledInvStddev =>
        (s.answer inp i).getD st.invStddev
      | _ => st.invStddev
    invSumExp :=
      match st.state with
      | .waitingForInvSumExp | .waitingForScaledInvSumExp => (s.answer inp i).getD st.invSumExp
      | _ => st.invSumExp
    elemsLeft :=
      if s.isInput P inp i then inp.bits.len
      else if (s.lanesValid P && s.lanesId = i) || (s.maxLanesValid P && s.maxLanesId = i) then
        st.elemsLeft - st.groupLen P
      else st.elemsLeft }

def next : State w m where
  stats := s.nextStats P inp
  lanes := pipeNext (s.lanesIn P inp) s.lanes
  maxLanes := pipeNext (s.maxLanesIn P) s.maxLanes

end State

/-- What the reset gives to the statistics; the other registers keep what they hold. -/
def Stats.IsReset {w m : ℕ} (st : Stats w m) : Prop :=
  st.state = .idle ∧ st.sum = 0 ∧ st.max = minimum w ∧ st.runningMax = minimum w ∧ st.count = 0 ∧
    st.invSumExp = 0

def normalizer (w m : ℕ) (P : Params) : Machine (State w m) (Input w m) where
  init s := (∀ i, (s.stats i).IsReset) ∧ s.lanes = List.replicate P.latency none ∧
    s.maxLanes = List.replicate P.latency none
  legal _ inp := inp.valid = true → inp.bits.len ≤ P.maxLen
  step s inp := s.next P inp

/-! ## Groups of elements -/

section Groups

variable {w m : ℕ} {P : Params} {st : Stats w m}

theorem Stats.groupLen_le : st.groupLen P ≤ P.nLanes := by
  unfold Stats.groupLen
  split_ifs
  · rfl
  · exact (Nat.mod_lt _ P.lanesPos).le

theorem sum_lanes {n len : ℕ} (fits : len ≤ n) (f : ℕ → BitVec w) :
    ((List.range n).map fun i => if i < len then f i else 0).sum =
      ((List.range len).map f).sum := by
  induction n, fits using Nat.le_induction with
  | base =>
    congr 1
    apply List.map_congr_left
    intro i below
    rw [if_pos (List.mem_range.1 below)]
  | succ n fits ih =>
    rw [List.range_succ, List.map_append, List.sum_append, ih]
    simp [Nat.not_lt.2 fits]

end Groups

/-! ## A small normalizer -/

def fourLanes : Params := ⟨4, by decide, 4, 2⟩

def plainRow (cmd : NormCmd) (i : Fin 2) (x : BitVec 32) : Request 32 1 :=
  ⟨fun _ => x, ⟨0, 0, 0, 0⟩, 0, 4, i, cmd⟩

def request (r : Request 32 1) (outReady : Bool) : Input 32 1 :=
  ⟨true, r, outReady, fun _ => false, fun _ => false, fun _ => 0⟩

def noRequest (outReady : Bool) : Input 32 1 :=
  ⟨false, plainRow .reset ⟨0, Nat.two_pos⟩ 0, outReady, fun _ => false, fun _ => false, fun _ => 0⟩

def resetStats : Stats 32 1 :=
  ⟨plainRow .reset ⟨0, Nat.two_pos⟩ 0, .idle, 0, 0, minimum 32, minimum 32, 0, 0, 0, 0⟩

def resetState : State 32 1 := ⟨fun _ => resetStats, List.replicate 2 none, List.replicate 2 none⟩

theorem resetState_init : (normalizer 32 1 fourLanes).init resetState :=
  ⟨fun _ => ⟨rfl, rfl, rfl, rfl, rfl, rfl⟩, rfl, rfl⟩

end Gemmini.Normalizer
