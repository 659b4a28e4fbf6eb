import Gemmini.Normalizer.Tracked

/-!
# The sums of a row

What an id has added up, what it has in the lanes and what has not entered them yet make up the elements
of a pass, until the divider takes the sum; then the lanes are empty and the statistics are reset.
-/

namespace Gemmini.Normalizer

variable {w m : ℕ} {P : Params}

/-! ## The accumulation lanes -/

def inFlight (i : Fin (m + 1)) (stages : List (Option (LaneOutput w m))) : BitVec w :=
  (stages.map fun x => x.elim 0 fun y => if y.statsId = i then y.result else 0).sum

theorem inFlight_append (i : Fin (m + 1)) (xs ys : List (Option (LaneOutput w m))) :
    inFlight i (xs ++ ys) = inFlight i xs + inFlight i ys := by
  simp [inFlight]

theorem inFlight_of_absent {i : Fin (m + 1)} {stages : List (Option (LaneOutput w m))}
    (absent : Absent i stages) : inFlight i stages = 0 := by
  apply List.sum_eq_zero
  intro x mem
  obtain ⟨y, held, rfl⟩ := List.mem_map.1 mem
  cases y with
  | none => rfl
  | some y => simp [absent y held]

section Lanes

variable {s : State w m} {inp : Input w m} {i : Fin (m + 1)}

theorem newSum_add_inFlight :
    s.newSum P inp i + inFlight i (pipeNext (s.lanesIn P inp) s.lanes) =
      (s.stats i).sum + inFlight i [s.lanesIn P inp] + inFlight i s.lanes := by
  have given : s.newSum P inp i = (s.stats i).sum + inFlight i [s.lanesOut P inp] := by
    unfold State.newSum inFlight
    cases out : s.lanesOut P inp with
    | none => simp
    | some y =>
      by_cases own : y.statsId = i <;> simp [own]
  have split := congrArg (inFlight i) (pipeNext_pipeOut (s.lanesIn P inp) s.lanes)
  rw [inFlight_append] at split
  have whole : inFlight i (s.lanesIn P inp :: s.lanes) =
      inFlight i [s.lanesIn P inp] + inFlight i s.lanes := by
    rw [← inFlight_append]
    rfl
  rw [given, add_assoc, add_assoc, ← whole, ← split, add_comm (inFlight i (pipeNext _ _))]
  rfl

theorem lanesIn_statsId {y : LaneOutput w m} (enters : s.lanesIn P inp = some y) :
    y.statsId = s.lanesId ∧ s.lanesValid P = true := by
  unfold State.lanesIn at enters
  by_cases valid : s.lanesValid P = true
  · simp only [valid, if_true, Option.some.injEq] at enters
    exact ⟨by rw [← enters], valid⟩
  · simp [valid] at enters

theorem absent_lanesIn (other : (s.stats i).state ≠ .getSum) : Absent i [s.lanesIn P inp] := by
  intro y mem own
  obtain ⟨id, valid⟩ := lanesIn_statsId (List.mem_singleton.1 mem).symm
  apply other
  rw [← own, id]
  exact getSum_of_lanesValid valid

theorem absent_next (absent : Absent i s.lanes) (other : (s.stats i).state ≠ .getSum) :
    Absent i (s.next P inp).lanes := by
  intro y mem
  rcases List.mem_cons.1 (mem_pipeNext mem) with enters | held
  · have none : Absent i [s.lanesIn P inp] := absent_lanesIn other
    exact none y (by simp [enters])
  · exact absent y held

theorem newSum_of_absent (absent : Absent i s.lanes) (other : (s.stats i).state ≠ .getSum) :
    s.newSum P inp i = (s.stats i).sum := by
  have flow : s.newSum P inp i + _ = _ := newSum_add_inFlight
  have later : inFlight i (pipeNext (s.lanesIn P inp) s.lanes) = 0 :=
    inFlight_of_absent (absent_next absent other)
  rwa [later, inFlight_of_absent (absent_lanesIn other), inFlight_of_absent absent, add_zero,
    add_zero, add_zero] at flow

def State.term (s : State w m) (inp : Input w m) (i : Fin (m + 1)) (d : BitVec w) : BitVec w :=
  laneTerm (s.stats i).req.cmd (s.stats i).mean (s.stats i).max inp.bits.const d

theorem inFlight_lanesIn_add_rest :
    inFlight i [s.lanesIn P inp] + ((s.rest P .getSum i).map (s.term inp i)).sum =
      (((s.stats i).pending .getSum).map (s.term inp i)).sum := by
  by_cases state : (s.stats i).state = .getSum
  · by_cases enters : s.sends P i = true
    · obtain ⟨valid, rfl⟩ := (sends_of_getSum state).1 enters
      have left : 0 < (s.stats s.lanesId).vecGroupsLeft P := by
        simp only [State.lanesValid, Bool.and_eq_true, decide_eq_true_eq] at valid
        exact valid.1.2
      have sent : inFlight s.lanesId [s.lanesIn P inp] =
          (((List.range ((s.stats s.lanesId).groupLen P)).map ((s.stats s.lanesId).group P)).map
            (s.term inp s.lanesId)).sum := by
        have fits : (s.stats s.lanesId).groupLen P ≤ P.nLanes := Stats.groupLen_le
        have lanes := sum_lanes fits fun i => s.term inp s.lanesId ((s.stats s.lanesId).group P i)
        simp only [inFlight, State.lanesIn, valid, if_true, List.map_cons, List.map_nil,
          List.sum_singleton, Option.elim, List.map_map]
        exact lanes
      rw [sent, Stats.pending, if_pos state, Stats.elems_split left, State.rest]
      simp only [state, enters, if_true, List.map_append, List.sum_append]
      rw [add_comm]
    · have nothing : inFlight i [s.lanesIn P inp] = 0 := by
        apply inFlight_of_absent
        intro y mem own
        obtain ⟨id, valid⟩ := lanesIn_statsId (List.mem_singleton.1 mem).symm
        exact enters ((sends_of_getSum state).2 ⟨valid, id ▸ own⟩)
      rw [nothing, State.rest, Stats.pending, if_pos state]
      simp [state, enters]
  · rw [inFlight_of_absent (absent_lanesIn state), rest_of_ne state, Stats.pending_of_ne state,
      zero_add]

/-- What has been added, what is in the pipeline and what has not entered it are the same before and after
a cycle. -/
theorem sum_flow :
    s.newSum P inp i + inFlight i (s.next P inp).lanes +
        ((s.rest P .getSum i).map (s.term inp i)).sum =
      (s.stats i).sum + inFlight i s.lanes +
        (((s.stats i).pending .getSum).map (s.term inp i)).sum := by
  have out : s.newSum P inp i + inFlight i (s.next P inp).lanes = _ := newSum_add_inFlight
  have enters : inFlight i [s.lanesIn P inp] + _ = _ := inFlight_lanesIn_add_rest
  rw [out, ← enters]
  abel

end Lanes

/-! ## Sums -/

/-- The sum of an id: that of a pass under way, nothing, exponentials, or one to which nothing is added
any more. -/
inductive Mode
  | accumulating
  | clear
  | exponents
  | drained
  deriving DecidableEq

def mode (last : NormCmd) (ph : Phase) : Mode :=
  match last with
  | .sum | .variance => .accumulating
  | .mean => if ph = .getSum ∨ ph = .getMean then .accumulating else .clear
  | .invStddev => if ph = .getSum ∨ ph = .getVariance then .accumulating else .clear
  | .reset => if ph = .output then .drained else .clear
  | .max => .drained
  | .sumExp => .exponents
  | .invSumExp => if ph = .getSum ∨ ph = .getInvSumExp then .exponents else .drained

def rowTerm (last : NormCmd) (mean d : BitVec w) : BitVec w :=
  match last with
  | .variance | .invStddev => (d - mean) * (d - mean)
  | _ => d

/-- The sum and the count of an id, which has the elements `pending` still to send. -/
structure SumsAt (i : Fin (m + 1)) (last : NormCmd) (ph : Phase) (sum : BitVec w) (count : BitVec 16)
    (lanes : List (Option (LaneOutput w m))) (mean : BitVec w) (pending row : List (BitVec w)) :
    Prop where
  live : mode last ph = .accumulating →
    sum + inFlight i lanes + (pending.map (rowTerm last mean)).sum =
      (row.map (rowTerm last mean)).sum ∧ count = BitVec.ofNat 16 row.length
  clear : mode last ph = .clear → sum = 0 ∧ count = 0
  absent : mode last ph = .clear ∨ mode last ph = .drained → Absent i lanes

section Modes

variable {last : NormCmd} {ph : Phase} {leaves : Bool} (visits : last.visits ph = true)

include visits

theorem accumulating_before (later : mode last (if leaves then ph.successor last else ph) = .accumulating) :
    mode last ph = .accumulating ∧ ph ≠ .output ∧ ph ≠ .waitingForMean ∧
      (leaves = true → ph ≠ .getMean ∧ ph ≠ .getVariance) := by
  revert visits later
  cases leaves <;> cases last <;> cases ph <;> decide

theorem cleared_before (later : mode last (if leaves then ph.successor last else ph) = .clear) :
    (mode last ph = .clear ∧ ph ≠ .getSum) ∨ ph = .output ∨
      (leaves = true ∧ (ph = .getMean ∨ ph = .getVariance)) := by
  revert visits later
  cases leaves <;> cases last <;> cases ph <;> decide

theorem drained_before (later : mode last (if leaves then ph.successor last else ph) = .clear ∨
      mode last (if leaves then ph.successor last else ph) = .drained) :
    ((mode last ph = .clear ∨ mode last ph = .drained) ∧ ph ≠ .getSum) ∨
      (leaves = true ∧ (ph = .getMean ∨ ph = .getVariance ∨ ph = .getInvSumExp)) := by
  revert visits later
  cases leaves <;> cases last <;> cases ph <;> decide

end Modes

section Step

variable {s : State w m} {inp : Input w m} {i : Fin (m + 1)} {last : NormCmd}

theorem absent_of_unitInFire {u : FunctionalUnit} (waits : u.waitsForLanes = true)
    (fires : s.unitInFire P inp u = true) : Absent i (s.next P inp).lanes := by
  simp only [State.unitInFire, Bool.and_eq_true, Bool.not_eq_true', waits, Bool.true_and] at fires
  intro y mem
  exact absent_of_not_busy fires.1.2 y (mem_pipeNext mem)

theorem term_eq_rowTerm (live : mode last (s.stats i).state = .accumulating)
    (cmd : (s.stats i).req.cmd = last) (d : BitVec w) :
    s.term inp i d = rowTerm last (s.stats i).mean d := by
  unfold State.term
  rw [cmd]
  revert live
  cases last <;> simp [mode, laneTerm, rowTerm]
  split_ifs <;> simp

theorem rowTerm_flow (live : mode last (s.stats i).state = .accumulating)
    (cmd : (s.stats i).state ≠ .idle → (s.stats i).req.cmd = last) :
    s.newSum P inp i + inFlight i (s.next P inp).lanes +
        ((s.rest P .getSum i).map (rowTerm last (s.stats i).mean)).sum =
      (s.stats i).sum + inFlight i s.lanes +
        (((s.stats i).pending .getSum).map (rowTerm last (s.stats i).mean)).sum := by
  have flow : s.newSum P inp i + _ + _ = _ := sum_flow
  by_cases state : (s.stats i).state = .getSum
  · have terms : s.term inp i = rowTerm last (s.stats i).mean :=
      funext (term_eq_rowTerm live (cmd (by simp [state])))
    rwa [terms] at flow
  · rw [rest_of_ne state, Stats.pending_of_ne state] at flow ⊢
    exact flow

theorem SumsAt.quiet {row : List (BitVec w)} (visits : last.visits (s.stats i).state = true)
    (cmd : (s.stats i).state ≠ .idle → (s.stats i).req.cmd = last)
    (sums : SumsAt i last (s.stats i).state (s.stats i).sum (s.stats i).count s.lanes
      (s.stats i).mean ((s.stats i).pending .getSum) row) :
    SumsAt i last (s.advance P inp i) (if s.quietReset P inp i then 0 else s.newSum P inp i)
      (if s.quietReset P inp i then 0 else (s.stats i).count) (s.next P inp).lanes
      (if (s.stats i).state = .waitingForMean then (s.answer inp i).getD (s.stats i).mean
        else (s.stats i).mean) (s.rest P .getSum i) row := by
  rw [advance_eq cmd]
  refine ⟨fun live => ?_, fun clear => ?_, fun settled => ?_⟩
  · obtain ⟨before, output, waiting, division⟩ := accumulating_before visits live
    have noReset : s.quietReset P inp i = false := by
      by_cases leaves : s.leaves P inp i = true
      · simp [State.quietReset, output, division leaves]
      · simp [State.quietReset, output, leaves]
    rw [noReset, if_neg waiting]
    exact ⟨(rowTerm_flow before cmd).trans (sums.live before).1, (sums.live before).2⟩
  · rcases cleared_before visits clear with ⟨before, other⟩ | reset
    · rw [newSum_of_absent (sums.absent (.inl before)) other]
      simp [sums.clear before]
    · have reset : s.quietReset P inp i = true := by
        rcases reset with output | ⟨leaves, h | h⟩ <;> simp [State.quietReset, *]
      simp [reset]
  · rcases drained_before visits settled with ⟨before, other⟩ | ⟨leaves, division⟩
    · exact absent_next (sums.absent before) other
    · rcases division with h | h | h <;> simp only [State.leaves, h, Bool.and_eq_true] at leaves <;>
        exact absent_of_unitInFire rfl leaves.1

theorem pass_cases {cmd : NormCmd} (follows : last.follows cmd = true)
    (live : mode cmd (State.entry cmd) = .accumulating) (mean : BitVec w)
    (row block : List (BitVec w)) :
    (mode last .idle = .clear ∧ pass last cmd row block = block) ∨
      (mode last .idle = .accumulating ∧ pass last cmd row block = row ++ block ∧
        rowTerm cmd mean = rowTerm last mean) := by
  cases last <;> cases cmd <;> simp [NormCmd.follows] at follows <;>
    simp [mode, State.entry, pass] at live ⊢ <;> rfl

theorem settled_of_follows {cmd : NormCmd} (follows : last.follows cmd = true)
    (settled : mode cmd (State.entry cmd) = .clear ∨ mode cmd (State.entry cmd) = .drained) :
    mode cmd (State.entry cmd) ≠ .clear ∧ (mode last .idle = .clear ∨ mode last .idle = .drained) := by
  revert follows settled
  cases last <;> cases cmd <;> decide

theorem SumsAt.accept {cmd : NormCmd} {sum mean : BitVec w} {count : BitVec 16}
    {lanes : List (Option (LaneOutput w m))} {row : List (BitVec w)} (block : List (BitVec w))
    (follows : last.follows cmd = true) (sums : SumsAt i last .idle sum count lanes mean [] row) :
    SumsAt i cmd (State.entry cmd) sum (count + BitVec.ofNat 16 block.length) lanes mean
      (if State.entry cmd = .getSum then block else []) (pass last cmd row block) := by
  refine ⟨fun live => ?_, fun clear => ?_, fun settled => ?_⟩
  · have summing : State.entry cmd = .getSum := by
      revert live
      cases cmd <;> decide
    rw [if_pos summing]
    rcases pass_cases follows live mean row block with ⟨clear, fresh⟩ | ⟨going, more, terms⟩
    · obtain ⟨zero, none⟩ := sums.clear clear
      rw [fresh, zero, none, inFlight_of_absent (sums.absent (.inl clear))]
      simp
    · obtain ⟨before, counted⟩ := sums.live going
      rw [List.map_nil, List.sum_nil, add_zero] at before
      rw [more, terms, List.map_append, List.sum_append, before, counted, List.length_append,
        BitVec.ofNat_add]
      exact ⟨rfl, rfl⟩
  · exact absurd clear (settled_of_follows follows (.inl clear)).1
  · exact sums.absent (settled_of_follows follows settled).2

end Step

def Sums (s : Tracked w m) (i : Fin (m + 1)) : Prop :=
  SumsAt i (s.last i) (s.regs.stats i).state (s.regs.stats i).sum (s.regs.stats i).count s.regs.lanes
    (s.regs.stats i).mean ((s.regs.stats i).pending .getSum) (s.row i)

theorem Sums.next {s : Tracked w m} {i : Fin (m + 1)} {inp : Input w m} (sums : Sums s i)
    (consistent : Consistent s i) (legal : (tracked w m P).legal s inp) : Sums (s.next P inp) i := by
  have quiet : SumsAt i _ (s.regs.advance P inp i) _ _ _ _ _ _ :=
    SumsAt.quiet consistent.visits consistent.cmd sums
  have reset : s.regs.resetRunningState P inp i = s.regs.quietReset P inp i := resetRunningState_eq
  unfold Sums
  by_cases input : s.regs.isInput P inp i = true
  · have follows := follows_of_isInput legal input
    rw [advance_of_isInput consistent.visits consistent.cmd input,
      rest_of_isInput (.inl rfl) consistent input] at quiet
    have accepted := quiet.accept inp.bits.block follows
    rw [← reset, ← pending_of_isInput input] at accepted
    have count : ((s.next P inp).regs.stats i).count =
        (if s.regs.resetRunningState P inp i then 0 else (s.regs.stats i).count) +
          BitVec.ofNat 16 inp.bits.block.length := by
      by_cases clears : s.regs.resetRunningState P inp i = true <;>
        simp [Tracked.next, State.next, State.nextStats, input, clears, Request.block]
    rw [count]
    simpa [Tracked.next, State.next, State.nextStats, State.nextState, input] using accepted
  · have pending := pending_next (.inl rfl) consistent.max_of_getMax (Bool.eq_false_iff.2 input)
    rw [← pending, ← State.nextState_of_not_isInput input, ← reset] at quiet
    simpa [Tracked.next, State.next, State.nextStats, input] using quiet

/-! ## The divider -/

theorem pick_meets {p : Fin (m + 1) → Bool} {i : Fin (m + 1)} (meets : p i = true) :
    p (pick p) = true := by
  have found := Fin.isSome_find?_iff.2 ⟨i, meets⟩
  obtain ⟨j, first⟩ := Option.isSome_iff_exists.1 found
  rw [pick, first]
  exact (Fin.find?_eq_some_iff.1 first).1

def Dividing (s : Tracked w m) : Prop :=
  ∀ i, (s.regs.stats i).state.awaits = some .divider ↔ s.dividing = some i

theorem successor_awaits_iff {cmd : NormCmd} {ph : Phase} :
    (ph.successor cmd).awaits = some .divider ↔ ph = .getMean ∨ ph = .getVariance := by
  cases cmd <;> cases ph <;> decide

theorem awaits_next_iff {s : State w m} {inp : Input w m} {i : Fin (m + 1)} :
    (s.nextState P inp i).awaits = some .divider ↔
      (s.unitInFire P inp .divider = true ∧ s.askId .divider = i) ∨
        ((s.stats i).state.awaits = some .divider ∧ s.unitOutFire inp .divider = false) := by
  have asking (fires : s.unitInFire P inp .divider = true) (id : s.askId .divider = i) :
      (s.stats i).state = .getMean ∨ (s.stats i).state = .getVariance := by
    simp only [State.unitInFire, Bool.and_eq_true, decide_eq_true_eq] at fires
    have asks := fires.1.1
    rw [id] at asks
    cases phase : (s.stats i).state <;> simp [phase, Phase.asks] at asks ⊢
  by_cases input : s.isInput P inp i = true
  · obtain ⟨mean, variance⟩ := isInput_ne input
    have entered : (s.nextState P inp i).awaits ≠ some .divider := by
      rw [State.nextState, if_pos input]
      cases inp.bits.cmd <;> simp [State.entry, Phase.awaits]
    refine iff_of_false entered ?_
    rintro (⟨fires, id⟩ | ⟨awaits, silent⟩)
    · exact (asking fires id).elim mean variance
    · have free := State.free_of_isInput input
      cases phase : (s.stats i).state <;> simp [phase, Phase.awaits] at awaits <;>
        simp [State.done, phase, silent] at free
  · rw [State.nextState, if_neg input, State.advance]
    have asks (phase : (s.stats i).state = .getMean ∨ (s.stats i).state = .getVariance) :
        s.leaves P inp i = true ↔ s.unitInFire P inp .divider = true ∧ s.askId .divider = i := by
      rcases phase with phase | phase <;> simp [State.leaves, phase]
    have waits (awaits : (s.stats i).state.awaits = some .divider) :
        s.leaves P inp i = s.unitOutFire inp .divider := by
      cases phase : (s.stats i).state <;> simp [phase, Phase.awaits] at awaits <;>
        simp [State.leaves, phase]
    by_cases leaves : s.leaves P inp i = true
    · rw [if_pos leaves, successor_awaits_iff]
      constructor
      · intro phase
        exact .inl ((asks phase).1 leaves)
      · rintro (⟨fires, id⟩ | ⟨awaits, silent⟩)
        · exact asking fires id
        · rw [waits awaits, silent] at leaves
          cases leaves
    · rw [if_neg leaves]
      constructor
      · intro awaits
        rw [waits awaits] at leaves
        exact .inr ⟨awaits, by simpa using leaves⟩
      · rintro (⟨fires, id⟩ | ⟨awaits, -⟩)
        · exact absurd ((asks (asking fires id)).2 ⟨fires, id⟩) leaves
        · exact awaits

theorem Dividing.waitId {s : Tracked w m} (dividing : Dividing s) {i : Fin (m + 1)}
    (awaits : (s.regs.stats i).state.awaits = some .divider) : s.regs.waitId .divider = i := by
  have other : (s.regs.stats (s.regs.waitId .divider)).state.awaits = some .divider := by
    have meets := pick_meets (p := fun i => (s.regs.stats i).state.awaits = some .divider)
      (i := i) (by simp [awaits])
    exact of_decide_eq_true meets
  rw [dividing] at awaits other
  exact Option.some.inj (other.symm.trans awaits)

theorem Dividing.next {s : Tracked w m} {inp : Input w m} (dividing : Dividing s)
    (legal : (tracked w m P).legal s inp) : Dividing (s.next P inp) := by
  intro i
  show (s.regs.nextState P inp i).awaits = some .divider ↔ (if _ then _ else _) = some i
  rw [awaits_next_iff, dividing i]
  by_cases fires : s.regs.unitInFire P inp .divider = true
  · have answered (busy : s.dividing = some i) : s.regs.unitOutFire inp .divider = true := by
      have awaits := (dividing i).2 busy
      have ready : inp.unitReady .divider = true := by
        simp only [State.unitInFire, Bool.and_eq_true] at fires
        exact fires.2
      have valid := (legal.2.2 ready).resolve_left (by simp [busy])
      simp [State.unitOutFire, dividing.waitId awaits, awaits, valid]
    rw [if_pos fires]
    constructor
    · rintro (⟨-, id⟩ | ⟨busy, silent⟩)
      · rw [id]
      · simp [answered busy] at silent
    · intro id
      exact .inl ⟨fires, Option.some.inj id⟩
  · rw [if_neg fires]
    by_cases answers : s.regs.unitOutFire inp .divider = true
    · simp [fires, answers]
    · simp [fires, answers]

/-- The mean that the lanes subtract is what the divider has answered for the row. -/
def Averaged (s : Tracked w m) (i : Fin (m + 1)) : Prop :=
  (s.last i = .mean ∧ (s.regs.stats i).state = .idle) ∨ s.last i = .variance ∨
    s.last i = .invStddev → (s.regs.stats i).mean = s.average i

theorem idle_of_mean {s : Tracked w m} {inp : Input w m} {i : Fin (m + 1)}
    (consistent : Consistent s i) (mean : s.last i = .mean)
    (idle : s.regs.advance P inp i = .idle) :
    (s.regs.stats i).state = .idle ∨ (s.regs.stats i).state = .waitingForMean := by
  have visits := consistent.visits
  rw [mean] at visits
  unfold State.advance at idle
  cases phase : (s.regs.stats i).state <;> simp [phase, NormCmd.visits] at visits ⊢ <;>
    simp [phase, consistent.cmd, mean, Phase.successor, Phase.next] at idle <;>
    split_ifs at idle

theorem Averaged.next {s : Tracked w m} {inp : Input w m} {i : Fin (m + 1)} (averaged : Averaged s i)
    (consistent : Consistent s i) (dividing : Dividing s) (legal : (tracked w m P).legal s inp) :
    Averaged (s.next P inp) i := by
  intro later
  -- the id comes from a state in which it has its mean, or gets it in this cycle
  have before : ((s.last i = .mean ∧ s.regs.advance P inp i = .idle) ∨ s.last i = .variance ∨
      s.last i = .invStddev) := by
    by_cases input : s.regs.isInput P inp i = true
    · have follows := follows_of_isInput legal input
      have idle := advance_of_isInput consistent.visits consistent.cmd input
      simp only [Tracked.next, State.next, State.nextStats, State.nextState, input, if_true] at later
      cases last : s.last i <;> cases cmd : inp.bits.cmd <;>
        simp [last, cmd, NormCmd.follows] at follows <;>
        simp [cmd, State.entry] at later <;> simp [idle]
    · simpa [Tracked.next, State.next, State.nextStats, State.nextState, input] using later
  by_cases waiting : (s.regs.stats i).state = .waitingForMean
  · have awaits : (s.regs.stats i).state.awaits = some .divider := by simp [waiting, Phase.awaits]
    have answered : s.regs.unitOutFire inp .divider = true := by
      have idle : s.regs.advance P inp i = .idle := by
        have visits := consistent.visits
        rcases before with ⟨-, idle⟩ | last | last
        · exact idle
        · simp [waiting, last, NormCmd.visits] at visits
        · simp [waiting, last, NormCmd.visits] at visits
      by_contra silent
      simp [State.advance, State.leaves, waiting, silent] at idle
    show (s.regs.nextStats P inp i).mean = if _ then _ else _
    rw [if_pos ⟨answered, (dividing i).1 awaits, waiting⟩]
    simp [State.nextStats, waiting, State.answer, Phase.awaits, dividing.waitId awaits]
  · show (s.regs.nextStats P inp i).mean = if _ then _ else _
    rw [if_neg (by simp [waiting])]
    have same : (s.regs.nextStats P inp i).mean = (s.regs.stats i).mean := by
      simp [State.nextStats, waiting]
    rw [same]
    apply averaged
    rcases before with ⟨mean, idle⟩ | other
    · exact .inl ⟨mean, (idle_of_mean consistent mean idle).resolve_right waiting⟩
    · exact .inr other

/-- A division is of the sum of the elements of a pass, or of the squares of their differences to the
mean, by their number. -/
structure Division.Right (d : Division w) : Prop where
  sum : d.ofVariance = false → d.sum = d.row.sum
  squares : d.ofVariance = true →
    d.sum = (d.row.map fun x => (x - d.average) * (x - d.average)).sum
  count : d.count.toNat = d.row.length ↔ d.row.length < 2 ^ 16

theorem right_division {s : Tracked w m} {inp : Input w m}
    (consistent : Consistent s (s.regs.askId .divider)) (sums : Sums s (s.regs.askId .divider))
    (averaged : Averaged s (s.regs.askId .divider))
    (fires : s.regs.unitInFire P inp .divider = true) : s.division.Right := by
  simp only [State.unitInFire, FunctionalUnit.waitsForLanes, Bool.true_and, Bool.and_eq_true,
    Bool.not_eq_true', decide_eq_true_eq] at fires
  obtain ⟨⟨asks, drained⟩, -⟩ := fires
  unfold Tracked.division
  generalize s.regs.askId .divider = i at *
  have absent : Absent i s.regs.lanes := by
    intro y mem
    exact absent_of_not_busy drained y (List.mem_cons_of_mem _ mem)
  have state : ((s.regs.stats i).state = .getMean ∧ s.last i = .mean) ∨
      ((s.regs.stats i).state = .getVariance ∧ s.last i = .invStddev) := by
    have visits := consistent.visits
    cases phase : (s.regs.stats i).state <;> simp [phase, Phase.asks] at asks <;>
      cases last : s.last i <;> simp [phase, last, NormCmd.visits] at visits ⊢
  have live : mode (s.last i) (s.regs.stats i).state = .accumulating := by
    rcases state with ⟨phase, last⟩ | ⟨phase, last⟩ <;> simp [mode, phase, last]
  have pending : (s.regs.stats i).pending .getSum = [] := by
    apply Stats.pending_of_ne
    rcases state with ⟨phase, -⟩ | ⟨phase, -⟩ <;> simp [phase]
  obtain ⟨sum, count⟩ := sums.live live
  rw [inFlight_of_absent absent, pending, List.map_nil, List.sum_nil, add_zero, add_zero] at sum
  have length : (s.regs.stats i).count.toNat = (s.row i).length ↔ (s.row i).length < 2 ^ 16 := by
    rw [count, BitVec.toNat_ofNat]
    constructor <;> intro h <;> omega
  rcases state with ⟨phase, last⟩ | ⟨phase, last⟩
  · refine ⟨fun _ => ?_, fun second => by simp [phase] at second, length⟩
    have id : rowTerm (s.last i) (s.regs.stats i).mean = fun d => d := by
      rw [last]
      rfl
    rwa [id, List.map_id'] at sum
  · refine ⟨fun first => by simp [phase] at first, fun _ => ?_, length⟩
    rwa [averaged (.inr (.inr last)), last] at sum

end Gemmini.Normalizer
