import Gemmini.Frontend.Model

/-!
# The utilisation counters

A command of an unroller is in one of the two queues or in the reservation station until it is reported
as completed.  The exception is StC at work on a loop that is to stay in the scratchpad, which only
happens while `is_resadd` is set: the loop may leave before StC is done.
-/

namespace Gemmini.Frontend

open ReservationStation (Queue Cmd Slot CompletesIssued allocFire allocFire_spec issueFire
  issueFire_spec completes afterAlloc)
open LoopMatmul (wire)
open LoopMatmul (Unroller layout)

/-! ### The kind of a command -/

section Kinds

variable {p : LoopConv.Params} (rs1 rs2 : BitVec 64)

theorem slice_typed {k : ℕ} (small : k < 4) (w : BitVec 64) : slice (typed k w) 0 2 = k := by
  have fits : w.toNat / 4 * 4 + k < 2 ^ 64 := by omega
  rw [slice, typed, BitVec.toNat_ofNat, Nat.mod_eq_of_lt fits]
  omega

theorem q_config {k : ℕ} (small : k < 4) :
    (⟨.config, typed k rs1, rs2⟩ : Cmd).q =
      if k = 1 then .ld else if k = 0 then .ex else .st := by
  simp only [Cmd.q, Cmd.isLoad,
    Cmd.isStore, Cmd.isConfig,
    Cmd.configCmdType, slice_typed small]
  interval_cases k <;> rfl

theorem q_load (state : ℕ) : (⟨loadFunct state, rs1, rs2⟩ : Cmd).q = .ld := by
  unfold loadFunct
  split_ifs <;> rfl

theorem q_compute (flip : Bool) :
    (⟨computeFunct flip, rs1, rs2⟩ : Cmd).q = .ex := by
  cases flip <;> rfl

theorem ofMatmul_q (p : LoopMatmul.Params) (s : LoopMatmul.State) (u : Unroller) :
    (ofMatmul rs1 rs2 ((s.event u).cmd p)).q = matmulKind u := by
  cases u with
  | ldA => exact q_load rs1 rs2 0
  | ldB => exact q_load rs1 rs2 1
  | ldD => exact q_load rs1 rs2 2
  | ex =>
    cases comp : s.exComp with
    | false => simp only [LoopMatmul.State.event, comp]; rfl
    | true =>
      simp only [LoopMatmul.State.event, comp]
      exact q_compute rs1 rs2 _
  | stC =>
    cases phase : s.stCPhase with
    | st => simp only [LoopMatmul.State.event, phase]; rfl
    | lnConfig =>
      simp only [LoopMatmul.State.event, phase]
      exact q_config rs1 rs2 (by decide)
    | lnSt => simp only [LoopMatmul.State.event, phase]; rfl
  | stCSpad => rfl

theorem ofConv_q {u : LoopConv.Unroller} {r : LoopConv.Req} {x : u.Pos} {e : LoopConv.OutCmd}
    (emits : (u.spec p).emit r x = some e) : (ofConv rs1 rs2 e).q = convKind u := by
  cases u with
  | ldBias | ldInput | ldWeights =>
    cases x <;> obtain rfl := Option.some.inj emits
    · exact q_config rs1 rs2 (by decide)
    · exact q_load rs1 rs2 _
  | ex =>
    obtain ⟨phase, tap, newWeights⟩ := x
    cases phase with
    | config =>
      obtain rfl := Option.some.inj emits
      exact q_config rs1 rs2 (by decide)
    | pre =>
      obtain ⟨_, made⟩ := Option.ite_none_left_eq_some.mp emits
      obtain rfl := Option.some.inj made
      rfl
    | comp =>
      obtain ⟨_, made⟩ := Option.ite_none_left_eq_some.mp emits
      obtain rfl := Option.some.inj made
      exact q_compute rs1 rs2 _
  | st =>
    cases x <;> obtain rfl := Option.some.inj emits
    · rfl
    · exact q_config rs1 rs2 (by decide)
    · rfl
    · exact q_config rs1 rs2 (by decide)

end Kinds

/-! ### What the unrollers count is what they put out -/

section Unrollers

variable {P : Params} {s : State P} {inp : Input P}

theorem find?_units_eq_some (valid : LoopConv.Unroller → Bool) (u : LoopConv.Unroller) :
    [.st, .ex, .ldBias, .ldWeights, .ldInput].find? valid = some u ↔
      valid u = true ∧ u.ahead.all (fun v => !valid v) = true := by
  cases u <;> cases hst : valid .st <;> cases hex : valid .ex <;> cases hb : valid .ldBias <;>
    cases hw : valid .ldWeights <;> cases hi : valid .ldInput <;>
    simp [LoopConv.Unroller.ahead, List.find?, *]

theorem convFires_iff {u : LoopConv.Unroller} :
    s.convFires inp u = true ↔ (s.convInput inp).outReady = true ∧
      [.st, .ex, .ldBias, .ldWeights, .ldInput].find?
        (s.conv.regs.cmdValid (s.convInput inp)) = some u := by
  rw [find?_units_eq_some]
  simp only [State.convFires, LoopConv.State.outReady, LoopConv.State.cmdValid, Bool.and_eq_true]
  tauto

theorem conv_cmdValid (inv : s.conv.Inv P.loops) {u : LoopConv.Unroller}
    (valid : s.conv.regs.cmdValid (s.convInput inp) u = true) :
    s.conv.regs.loopConfigured = true ∧
      ∃ e, Pipeline.out (s.conv.regs.units u).pipe = some e ∧
        ∀ rs1 rs2, (ofConv rs1 rs2 e).q = convKind u := by
  simp only [LoopConv.State.cmdValid, Bool.and_eq_true] at valid
  obtain ⟨e, out⟩ := Option.isSome_iff_exists.mp valid.1
  have held : e ∈ Pipeline.held (s.conv.regs.units u).pipe := by
    have flow := Pipeline.conserved none (inv.stages u) true
    rw [Pipeline.deqFire, if_pos rfl, out] at flow
    have mem : e ∈ Pipeline.held (s.conv.regs.units u).pipe ++ [] := by
      rw [Pipeline.enqFire, ite_self] at flow
      exact flow ▸ List.mem_append_left _ (by simp)
    simpa using mem
  have busy : s.conv.slots.state.busy u = true := by
    have notIdle : (s.conv.regs.units u).idle = false := by
      by_contra idle
      rw [Bool.not_eq_false] at idle
      have none := Walker.Unit.deqFire_of_idle idle true
      rw [Pipeline.deqFire, if_pos rfl, out] at none
      cases none
    show (!(s.conv.regs.units u).idle) = true
    rw [notIdle]
    rfl
  obtain ⟨n, _, _, serving, _⟩ := inv.slots.working u busy
  refine ⟨inv.loopConfigured ⟨busy, serving⟩, e, out, fun rs1 rs2 => ?_⟩
  obtain ⟨x, emits⟩ := (inv.working u n ⟨busy, serving⟩).made e (List.mem_append_right _ held)
  exact ofConv_q rs1 rs2 emits

/-- A convolution command is counted exactly if it goes out, and under the kind that the reservation
station takes it for. -/
theorem fires_conv (inv : s.conv.Inv P.loops) (q : Queue) :
    s.fires inp .conv q = (s.handedNow inp .conv).any fun c => c.q == q := by
  rw [Bool.eq_iff_iff]
  simp only [State.fires, decide_eq_true_eq, convFires_iff, State.handedNow, Option.any_eq_true,
    Option.ite_none_right_eq_some, Bool.and_eq_true, beq_iff_eq, State.convUnrolled]
  constructor
  · rintro ⟨u, kind, ready, chosen⟩
    obtain ⟨configured, e, out, isKind⟩ :=
      conv_cmdValid inv (find?_units_eq_some _ _ |>.mp chosen).1
    refine ⟨ofConv inp.convRs.1 inp.convRs.2 e, ⟨⟨configured, ready⟩, ?_⟩, ?_⟩
    · rw [chosen, Option.bind_some, out, Option.map_some]
    · rw [isKind, kind]
  · rintro ⟨c, ⟨⟨_, ready⟩, shown⟩, kind⟩
    obtain ⟨u, chosen, shown⟩ := Option.bind_eq_some_iff.mp shown
    obtain ⟨_, e, out, isKind⟩ := conv_cmdValid inv (find?_units_eq_some _ _ |>.mp chosen).1
    rw [out, Option.map_some, Option.some.injEq] at shown
    refine ⟨u, ?_, ready, chosen⟩
    rw [← isKind, shown, kind]

theorem loopConfigured_of_chosen (inv : Slots.Inv layout s.matmul.slots)
    {u : Unroller}
    (chosen : s.matmul.regs.chosen P.loops.toParams s.matmulInput = some u) :
    s.loopConfigured = true := by
  have offers := List.find?_some chosen
  simp only [LoopMatmul.State.offers, Bool.and_eq_true] at offers
  obtain ⟨n, _, _, _, first, info, _⟩ := inv.working u offers.1
  have bound := Slots.Inv.lt_of_getElem? info
  have configured := inv.configured n first (bound.trans_le inv.le_two)
  rw [decide_eq_true bound] at configured
  have configured : (s.matmul.regs.slots.loops
      (Slots.slotOf s.matmul.start n)).configured = true := configured
  unfold State.loopConfigured
  cases h : Slots.slotOf s.matmul.start n <;> simp_all

theorem fires_matmul (inv : Slots.Inv layout s.matmul.slots) (q : Queue) :
    s.fires inp .matmul q = (s.handedNow inp .matmul).any fun c => c.q == q := by
  rw [Bool.eq_iff_iff]
  simp only [State.fires, decide_eq_true_eq, State.matmulFires, LoopMatmul.State.hands,
    State.handedNow, Option.any_eq_true, Option.ite_none_right_eq_some, Bool.and_eq_true,
    beq_iff_eq, State.matmulUnrolled, Option.map_eq_some_iff]
  constructor
  · rintro ⟨u, kind, ready, chosen⟩
    refine ⟨_, ⟨⟨loopConfigured_of_chosen inv chosen, ready⟩, u, chosen, rfl⟩, ?_⟩
    rw [ofMatmul_q, kind]
  · rintro ⟨c, ⟨⟨_, ready⟩, u, chosen, rfl⟩, kind⟩
    refine ⟨u, ?_, ready, chosen⟩
    rw [← kind, ofMatmul_q]

end Unrollers

/-! ### The commands on the way -/

/-- The command is one of unroller `f`, of kind `q`. -/
def GemminiCmd.counts (f : Fsm) (q : Queue) (c : GemminiCmd) : Bool :=
  c.fromFsm f &&
    match c.body with
    | .station x => x.q == q
    | _ => false

open GemminiCmd (counts)

def countIn (f : Fsm) (q : Queue) (l : List GemminiCmd) : ℕ := l.countP (counts f q)

section Flow

variable {P : Params} (s : State P) (inp : Input P) (f : Fsm) (q : Queue)

def State.held : ℕ := ∑ i, ((s.station.entries q i).valid && s.fromFsm f q i).toNat

def State.inFlight : ℕ := countIn f q s.cmds + countIn f q s.unrolled + s.held f q

variable {s inp f q}

@[simp] theorem countIn_append (l l' : List GemminiCmd) :
    countIn f q (l ++ l') = countIn f q l + countIn f q l' :=
  List.countP_append

theorem countIn_toList (o : Option GemminiCmd) :
    countIn f q o.toList = (o.any (counts f q)).toNat := by
  cases o with
  | none => rfl
  | some c =>
    show List.countP (counts f q) [c] = (counts f q c).toNat
    rw [List.countP_singleton]
    cases counts f q c <;> rfl

theorem countIn_next (l : List GemminiCmd) (enq : Option GemminiCmd) (ready : Bool) :
    countIn f q (cmdQueue.next l enq ready) + countIn f q (cmdQueue.deqFire l enq ready).toList =
      countIn f q l + countIn f q (cmdQueue.enqFire l enq ready).toList := by
  have conserved := congrArg (countIn f q) (cmdQueue.conserved l enq ready)
  rw [countIn_append, countIn_append] at conserved
  omega

theorem countIn_convOut :
    countIn f q (cmdQueue.enqFire s.cmds (s.convOut inp) s.cmdReady).toList =
      if f = .conv then ((s.handedNow inp .conv).any fun c => c.q == q).toNat else 0 := by
  have ready : cmdQueue.enqReady s.cmds s.cmdReady = (s.convInput inp).outReady := by
    simp [QueueShape.enqReady, cmdQueue, State.convInput]
  rw [countIn_toList, QueueShape.enqFire, ready, State.convOut, State.handedNow]
  cases (s.convInput inp).outReady with
  | false => simp
  | true =>
    cases s.conv.regs.loopConfigured with
    | true =>
      cases s.convUnrolled inp with
      | none => simp
      | some c => cases f <;> simp [counts]
    | false =>
      rcases inp.raw with _ | _ | x <;> simp [counts]

theorem counts_head_of_kept (kept : s.passing = none) :
    s.cmds.head?.any (counts f q) = false := by
  unfold State.passing at kept
  cases head : s.cmds.head? with
  | none => rfl
  | some c =>
    obtain ⟨body, flags⟩ := c
    rw [head, Option.filter_some] at kept
    cases body with
    | loop x => simp [counts]
    | station x => cases kept
    | aside => cases kept

theorem countIn_matmulOut :
    countIn f q (cmdQueue.enqFire s.unrolled (s.matmulOut inp) (s.unrolledReady inp)).toList =
      countIn f q (cmdQueue.deqFire s.cmds (s.convOut inp) s.cmdReady).toList +
        if f = .matmul then ((s.handedNow inp .matmul).any fun c => c.q == q).toNat else 0 := by
  have ready : cmdQueue.enqReady s.unrolled (s.unrolledReady inp) = s.matmulInput.outReady := by
    simp [QueueShape.enqReady, cmdQueue, State.matmulInput]
  have head : cmdQueue.deq s.cmds (s.convOut inp) = s.cmds.head? := by
    cases s.cmds <;> rfl
  rw [countIn_toList, countIn_toList, QueueShape.enqFire, QueueShape.deqFire, ready, head,
    State.matmulOut, State.handedNow]
  cases passing : s.passing with
  | none =>
    have kept : (if s.cmdReady = true then s.cmds.head? else none).any (counts f q) =
        false := by
      split
      · exact counts_head_of_kept passing
      · rfl
    rw [kept]
    cases s.matmulInput.outReady <;> cases s.loopConfigured <;> cases s.matmulUnrolled inp <;>
      cases f <;> simp [counts]
  | some c =>
    have head : s.cmds.head? = some c := (Option.filter_eq_some_iff.mp passing).1
    rw [head, State.cmdReady, passing]
    cases s.matmulInput.outReady <;> cases s.loopConfigured <;> cases s.matmulUnrolled inp <;>
      cases f <;> simp [counts]

theorem sum_some {n : ℕ} (o : Option (Fin n)) (g : Fin n → Bool) :
    ∑ i, (decide (o = some i) && g i).toNat = (o.any g).toNat := by
  cases o with
  | none => simp
  | some j =>
    rw [Finset.sum_eq_single j]
    · simp
    · intro i _ other
      simp [other.symm]
    · simp

theorem sum_slot (o : Option (Slot P.station))
    (g : (q : Queue) → Fin (P.station.entries q) → Bool) :
    ∑ i, (decide (o = some ⟨q, i⟩) && g q i).toNat =
      (o.any fun slot => slot.1 == q && g slot.1 slot.2).toNat := by
  cases o with
  | none => simp
  | some slot =>
    obtain ⟨q', j⟩ := slot
    by_cases same : q' = q
    · subst same
      have one := sum_some (some j) (g q')
      simpa using one
    · have other : (q' == q) = false := beq_false_of_ne same
      simp [same, other]

def State.taken (s : State P) (inp : Input P) : Option (Slot P.station) :=
  (allocFire s.station (s.stationInput inp)).map fun a => ⟨a.1, a.2.1⟩

theorem nextFromFsm_eq (i : Fin (P.station.entries q)) :
    s.nextFromFsm inp f q i =
      if s.taken inp = some ⟨q, i⟩ then s.unrolled.head?.any (·.fromFsm f) else s.fromFsm f q i := by
  unfold State.nextFromFsm State.taken
  cases allocFire s.station (s.stationInput inp) with
  | none => simp
  | some a =>
    obtain ⟨p, j, e⟩ := a
    simp only [Option.map_some, Option.some.injEq]

theorem countIn_taken :
    countIn f q (cmdQueue.deqFire s.unrolled (s.matmulOut inp) (s.unrolledReady inp)).toList =
      ((s.taken inp).any fun slot => slot.1 == q && s.unrolled.head?.any (·.fromFsm f)).toNat := by
  have head : cmdQueue.deq s.unrolled (s.matmulOut inp) = s.unrolled.head? := by
    cases s.unrolled <;> rfl
  rw [countIn_toList, QueueShape.deqFire, head, State.taken, State.unrolledReady]
  have quiet (none' : (s.stationInput inp).alloc = none) :
      allocFire s.station (s.stationInput inp) = none := by
    simp [allocFire, none']
  cases hu : s.unrolled.head? with
  | none => simp [State.stationInput, hu]
  | some c =>
    obtain ⟨body, flags⟩ := c
    cases body with
    | station x =>
      cases alloc : allocFire s.station (s.stationInput inp) with
      | none => simp
      | some a =>
        obtain ⟨p, j, e⟩ := a
        obtain ⟨x', offered, kind, _⟩ := allocFire_spec alloc
        have same : x = x' := by simpa [State.stationInput, hu] using offered
        subst same
        simp [counts, kind, Bool.and_comm]
    | loop x =>
      rw [quiet (by simp [State.stationInput, hu])]
      simp
    | aside =>
      rw [quiet (by simp [State.stationInput, hu])]
      cases inp.asideReady <;> simp [counts]

variable (legal : CompletesIssued s.station (s.stationInput inp))

include legal

/-- What a cycle does to a slot: its command stays, it completes in one of the two ways, or a new one
comes in. -/
theorem slot_next (i : Fin (P.station.entries q)) :
    (((s.next inp).station.entries q i).valid && (s.next inp).fromFsm f q i).toNat +
        (decide (issueFire s.station (s.stationInput inp) q = some i) &&
          ((s.station.entries q i).bits.completeOnIssue && s.fromFsm f q i)).toNat +
        (decide (inp.completed = some ⟨q, i⟩) && s.fromFsm f q i).toNat =
      ((s.station.entries q i).valid && s.fromFsm f q i).toNat +
        (decide (s.taken inp = some ⟨q, i⟩) && s.unrolled.head?.any (·.fromFsm f)).toNat := by
  have valid' : ((s.next inp).station.entries q i).valid = _ := ReservationStation.nextEntry_valid
  have flag' : (s.next inp).fromFsm f q i = _ := nextFromFsm_eq i
  rw [valid', flag']
  by_cases old : (s.station.entries q i).valid = true
  · have notTaken : s.taken inp ≠ some ⟨q, i⟩ := by
      intro taken
      obtain ⟨⟨p, j, e⟩, alloc, same⟩ := Option.map_eq_some_iff.mp taken
      exact ReservationStation.slot_ne_of_valid alloc old same
    rw [ReservationStation.afterAlloc_of_valid old, if_neg notTaken, old]
    by_cases issues : issueFire s.station (s.stationInput inp) q = some i
    · -- a command that is issued now cannot have been reported yet
      have pending : inp.completed ≠ some ⟨q, i⟩ := by
        intro reported
        have issued := (legal q i reported).2
        rw [(issueFire_spec issues).2.2] at issued
        cases issued
      have quiet : completes (s.stationInput inp) q i = false :=
        decide_eq_false pending
      cases (s.station.entries q i).bits.completeOnIssue <;> cases s.fromFsm f q i <;>
        simp [issues, quiet, pending, notTaken]
    · have same : completes (s.stationInput inp) q i =
        decide (inp.completed = some ⟨q, i⟩) := rfl
      cases hc : decide (inp.completed = some ⟨q, i⟩) <;> cases s.fromFsm f q i <;>
        simp [issues, same, hc, notTaken]
  · have quiet : issueFire s.station (s.stationInput inp) q ≠ some i :=
      fun issues => old (issueFire_spec issues).1
    have pending : inp.completed ≠ some ⟨q, i⟩ := fun reported => old (legal q i reported).1
    have same : completes (s.stationInput inp) q i = false :=
      decide_eq_false pending
    have filled : (afterAlloc s.station (s.stationInput inp) q i).valid =
        decide (s.taken inp = some ⟨q, i⟩) := by
      unfold afterAlloc State.taken
      cases allocFire s.station (s.stationInput inp) with
      | none => simp [old]
      | some a =>
        obtain ⟨p, j, e⟩ := a
        by_cases here : (⟨p, j⟩ : Slot P.station) = ⟨q, i⟩
        · simp only [Option.map_some, here, if_true, decide_true]
        · simp only [Option.map_some, here, if_false, Option.some.injEq, decide_false]
          simpa using old
    rw [if_neg quiet, filled, same]
    by_cases here : s.taken inp = some ⟨q, i⟩ <;> simp [here, quiet, pending, old]

theorem held_next : (s.next inp).held f q + s.completedNow inp f q = s.held f q +
      countIn f q (cmdQueue.deqFire s.unrolled (s.matmulOut inp) (s.unrolledReady inp)).toList := by
  have slots := Finset.sum_congr rfl
    fun (i : Fin (P.station.entries q)) (_ : i ∈ Finset.univ) => slot_next (f := f) legal i
  rw [Finset.sum_add_distrib, Finset.sum_add_distrib, Finset.sum_add_distrib,
    sum_slot inp.completed (s.fromFsm f), sum_slot (s.taken inp) fun _ _ => _, sum_some] at slots
  rw [countIn_taken]
  show (∑ i, _) + (Bool.toNat _ + Bool.toNat _) = (∑ i, _) + _
  rw [← slots]
  exact (add_assoc _ _ _).symm

theorem completedNow_le_held : s.completedNow inp f q ≤ s.held f q := by
  show (s.issueCompleted inp f q).toNat + (s.returned inp f q).toNat ≤ s.held f q
  rw [State.issueCompleted, State.returned, ← sum_some, ← sum_slot, ← Finset.sum_add_distrib,
    State.held]
  apply Finset.sum_le_sum
  intro i _
  have slot := slot_next (f := f) legal i
  by_cases taken : s.taken inp = some ⟨q, i⟩
  · -- a slot that is free has nothing to complete
    obtain ⟨⟨p, j, e⟩, alloc, same⟩ := Option.map_eq_some_iff.mp taken
    obtain ⟨rfl, same⟩ := Sigma.mk.inj same
    obtain rfl := eq_of_heq same
    obtain ⟨_, _, _, _, free⟩ := allocFire_spec alloc
    have quiet : issueFire s.station (s.stationInput inp) p ≠ some j := by
      intro issues
      rw [(issueFire_spec issues).1] at free
      cases free
    have pending : inp.completed ≠ some ⟨p, j⟩ := by
      intro reported
      rw [(legal p j reported).1] at free
      cases free
    simp [quiet, pending]
  · rw [decide_eq_false taken, Bool.false_and, Bool.toNat_false] at slot
    omega

theorem inFlight_next : (s.next inp).inFlight f q + s.completedNow inp f q =
      s.inFlight f q + ((s.handedNow inp f).any fun c => c.q == q).toNat := by
  have first := countIn_next (f := f) (q := q) s.cmds (s.convOut inp) s.cmdReady
  have second := countIn_next (f := f) (q := q) s.unrolled (s.matmulOut inp) (s.unrolledReady inp)
  have third := held_next (f := f) (q := q) legal
  rw [countIn_convOut] at first
  rw [countIn_matmulOut] at second
  show countIn f q (cmdQueue.next s.cmds (s.convOut inp) s.cmdReady) +
    countIn f q (cmdQueue.next s.unrolled (s.matmulOut inp) (s.unrolledReady inp)) +
    (s.next inp).held f q + _ = countIn f q s.cmds + countIn f q s.unrolled + s.held f q + _
  cases f <;> simp only [reduceCtorEq, if_true, if_false] at first second <;> omega

end Flow

/-! ### Whole runs -/

section Runs

variable {P : Params} {s : State P} {inp : Input P}

def StoredOnce (s : State P) (_ : Input P) : Prop :=
  s.matmul.regs.reqFire .stC = true → (s.matmul.regs.requested .stC).spadOnly = false

instance (s : State P) (inp : Input P) : Decidable (StoredOnce s inp) :=
  inferInstanceAs (Decidable (_ → _))

structure Inv (s : State P) : Prop where
  conv : s.conv.Inv P.loops
  slots : Slots.Inv layout s.matmul.slots
  utilization : ∀ f q, s.utilization f q = s.inFlight f q
  bound : ∀ f q, s.utilization f q ≤ P.station.entries q
  handed : ∀ f q, s.handed f q = s.utilization f q + s.completed f q

theorem Inv.init (h : (machine P).init s) : Inv s := by
  obtain ⟨conv, cmds, matmul, unrolled, station, utilization, handed, completed⟩ := h
  obtain ⟨initial, start, first, infos, serving, _⟩ := matmul
  have none : ∀ f q, s.inFlight f q = 0 := by
    intro f q
    simp [State.inFlight, cmds, unrolled, countIn, State.held, station.entries]
  constructor
  · exact LoopConv.Tracked.Inv.init conv
  · exact .init initial.free initial.idle start.symm first infos serving
  · simp [utilization, none]
  · simp [utilization]
  · simp [utilization, handed, completed]

theorem StoredOnce.mayFire (once : StoredOnce s inp) {u : Unroller}
    (fires : s.matmul.regs.reqFire u = true) :
    s.matmul.regs.slots.mayFire layout u = true := by
  have stored := once
  unfold StoredOnce at stored
  cases u <;>
    simp_all [LoopMatmul.State.reqFire, LoopMatmul.State.gate, Slots.State.mayFire,
      layout, Unroller.stage, Unroller.serves,
      LoopMatmul.State.requested]

theorem utilization_lt_of_fires {f : Fsm} {q : Queue} (fires : s.fires inp f q = true) :
    s.utilization f q < P.station.entries q := by
  have free : s.overloaded f q = false := by
    cases f with
    | conv =>
      obtain ⟨u, rfl, hands⟩ : ∃ u, convKind u = q ∧ s.convFires inp u = true :=
        of_decide_eq_true fires
      simp only [State.convFires, LoopConv.State.cmdValid, Bool.and_eq_true,
        Bool.not_eq_true'] at hands
      cases u <;> exact hands.1.2
    | matmul =>
      obtain ⟨u, rfl, hands⟩ : ∃ u, matmulKind u = q ∧ s.matmulFires u = true :=
        of_decide_eq_true fires
      simp only [State.matmulFires, LoopMatmul.State.hands, Bool.and_eq_true,
        beq_iff_eq] at hands
      have offers := List.find?_some hands.2
      simp only [LoopMatmul.State.offers, Bool.and_eq_true] at offers
      cases u <;> simp only [Bool.and_eq_true, Bool.not_eq_true'] at offers
      case ex | stC => exact offers.2.1.1
      all_goals exact offers.2.1
  simpa [State.overloaded] using free

theorem Inv.fires_eq (inv : Inv s) (f : Fsm) (q : Queue) :
    s.fires inp f q = (s.handedNow inp f).any fun c => c.q == q := by
  cases f with
  | conv => exact fires_conv inv.conv q
  | matmul => exact fires_matmul inv.slots q

theorem Inv.nextUtilization_eq (inv : Inv s)
    (legal : CompletesIssued s.station (s.stationInput inp)) (f : Fsm)
    (q : Queue) :
    (s.next inp).inFlight f q ≤ P.station.entries q ∧
      s.nextUtilization inp f q = (s.next inp).inFlight f q := by
  have flow := inFlight_next (f := f) (q := q) legal
  rw [← inv.fires_eq, ← inv.utilization] at flow
  have bound : (s.next inp).inFlight f q ≤ P.station.entries q := by
    have old := inv.bound f q
    cases fires : s.fires inp f q with
    | false =>
      rw [fires, Bool.toNat_false] at flow
      omega
    | true =>
      have room := utilization_lt_of_fires fires
      rw [fires, Bool.toNat_true] at flow
      omega
  refine ⟨bound, ?_⟩
  have value : (s.utilization f q : ℤ) + (s.fires inp f q).toNat - s.completedNow inp f q =
      ((s.next inp).inFlight f q : ℤ) := by omega
  have width : P.station.entries q + 1 ≤ 2 ^ log2Up (P.station.entries q + 1) :=
    le_two_pow_log2Up _
  rw [State.nextUtilization, value, wire, ← Nat.cast_ofNat, ← Nat.cast_pow, ← Int.natCast_mod,
    Int.toNat_natCast]
  exact Nat.mod_eq_of_lt (by omega)

theorem Inv.next (inv : Inv s)
    (legal : CompletesIssued s.station (s.stationInput inp))
    (once : StoredOnce s inp) : Inv (s.next inp) := by
  constructor
  · exact inv.conv.next
  · exact inv.slots.next fun u fires => once.mayFire fires
  · exact fun f q => (inv.nextUtilization_eq legal f q).2
  · intro f q
    obtain ⟨bound, eq⟩ := inv.nextUtilization_eq (f := f) (q := q) legal
    exact eq.trans_le bound
  · intro f q
    have eq := (inv.nextUtilization_eq (f := f) (q := q) legal).2
    have flow := inFlight_next (f := f) (q := q) legal
    have handed := inv.handed f q
    rw [← inv.utilization] at flow
    show s.handed f q + _ = s.nextUtilization inp f q + (s.completed f q + s.completedNow inp f q)
    omega

/-- In every run in which StC takes up no loop that is to stay in the scratchpad, each counter is the
number of commands of its kind that its unroller has put out and that have not been reported as
completed; these are the ones in the two queues and in the reservation station.  The counter is at most
the size of the table, and what is reported as completed is at most the counter. -/
theorem utilization_counts (reach : ((machine P).restrict StoredOnce).Reachable s) (f : Fsm)
    (q : Queue) :
    s.handed f q = s.utilization f q + s.completed f q ∧ s.utilization f q = s.inFlight f q ∧
      s.utilization f q ≤ P.station.entries q ∧
      ∀ inp, (machine P).legal s inp → s.completedNow inp f q ≤ s.utilization f q := by
  have inv : Inv s := by
    apply reach.invariant
    · exact fun _ => Inv.init
    · exact fun _ _ _ inv legal => inv.next legal.1 legal.2
  refine ⟨inv.handed f q, inv.utilization f q, inv.bound f q, fun inp legal => ?_⟩
  have held := completedNow_le_held (f := f) (q := q) legal
  rw [inv.utilization, State.inFlight]
  omega

end Runs

/-! ### Two runs of a small front end -/

def small : Params where
  loops := LoopConv.smallParams
  station :=
    { geometry := ⟨4, 16, 2, 16⟩, blockRows := 4, blockCols := 4, mvinColsBits := 5,
      mvinRowsBits := 3, mvoutColsBits := 5, mvoutRowsBits := 3, aStrideBits := 16,
      cStrideBits := 16, blockStrideBits := 6, pixelRepeatsBits := 3,
      hasFirstLayerOptimizations := true, entriesLd := 2, entriesEx := 2, entriesSt := 2 }

def blankOp : ReservationStation.OpT :=
  let addr : LocalAddr := ⟨false, false, false, 0, false, 0⟩
  ⟨addr, addr, false⟩

def smallStart : State small where
  conv := LoopConv.smallStart
  cmds := []
  matmul := LoopMatmul.smallStart 2 1 1
  unrolled := []
  station :=
    { entries := fun q _ =>
        ⟨false, ⟨q, false, ⟨false, blankOp⟩, false, ⟨false, blankOp⟩, false, false,
          ⟨.load, 0, 0⟩, fun _ _ => false⟩⟩
      aStride := 0
      cStride := 0
      aTranspose := false
      ldBlockStrides := fun _ => 0
      poolingIsEnabled := false
      ldPixelRepeats := fun _ => 0
      solitaryPreload := false }
  fromFsm := fun _ _ _ => false
  utilization := fun _ _ => 0
  handed := fun _ _ => 0
  completed := fun _ _ => 0

theorem smallStart_init : (machine small).init smallStart :=
  ⟨LoopConv.smallStart_init, rfl, LoopMatmul.smallStart_init (by decide), rfl,
    ⟨fun _ _ => rfl, rfl, rfl, rfl, rfl, rfl, rfl, rfl⟩, rfl, rfl, rfl⟩

/-- A cycle with a command of the core and the controllers at rest; `asideReady` takes one that is not
for the reservation station. -/
def smallCycle (raw : Option RawCmd) (asideReady : Bool) : Input small where
  raw := raw
  convRs := (0, 0)
  matmulRs := (0, 0)
  asideReady := asideReady
  issueReady := fun _ => false
  completed := none
  dontCare := fun _ _ => blankOp

def plainProduct : List (Input small) :=
  smallCycle (some (.other (.loop ⟨.loopWs, 0, 0⟩))) true :: List.replicate 4 (smallCycle none true)

theorem utilization_of_plainProduct :
    let s := (machine small).run smallStart plainProduct
    ((machine small).restrict StoredOnce).LegalRun smallStart plainProduct ∧
      s.utilization .matmul .ld = 2 ∧ s.handed .matmul .ld = 2 + s.completed .matmul .ld ∧
      s.inFlight .matmul .ld = 2 := by
  have start : ((machine small).restrict StoredOnce).Reachable smallStart := .init smallStart_init
  have legal : ((machine small).restrict StoredOnce).LegalRun smallStart plainProduct := by
    decide
  have reach := start.run plainProduct legal
  rw [Machine.restrict_run] at reach
  have two : ((machine small).run smallStart plainProduct).utilization .matmul .ld = 2 := by
    decide +kernel
  obtain ⟨handed, inFlight, _⟩ := utilization_counts reach .matmul .ld
  rw [two] at handed inFlight
  exact ⟨legal, two, handed, inFlight.symm⟩

/-- A residual addition that skips its loads is to stay in the scratchpad.  StC hands out the first of
its two stores.  As StCSpad is idle, the loop leaves; then a flush is taken, and StC hands out its
second store. -/
def storeWithoutLoop : List (Input small) :=
  [smallCycle (some (.other .aside)) false,
    smallCycle (some (.other (.loop
      ⟨.loopWs, 0, 1 <<< 2 ||| 1 <<< 3 ||| 1 <<< 4 ||| 1 <<< 5 ||| 1 <<< 9⟩))) false] ++
    List.replicate 4 (smallCycle none false) ++ [smallCycle none true, smallCycle none false]

/-- The second store is counted although it did not go out. -/
theorem lost_store_counted :
    let s := (machine small).run smallStart storeWithoutLoop
    (machine small).Reachable s ∧ s.utilization .matmul .st = 2 ∧ s.handed .matmul .st = 1 ∧
      s.completed .matmul .st = 0 := by
  have start : (machine small).Reachable smallStart := .init smallStart_init
  refine ⟨start.run storeWithoutLoop (by decide +kernel), ?_, ?_, ?_⟩ <;> decide +kernel

end Gemmini.Frontend
