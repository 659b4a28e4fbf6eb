import Gemmini.Execute.Controller

/-!
# The rows of a step

While a step is fed, its three operands run through their rows in lockstep: the fire counters never
differ by more than a row, and the step ends with the last row of the last one.  What a step feeds does
not change before it ends, although commands arrive behind those it is decoded from.
-/

namespace Gemmini.Execute

open Lockstep

variable {E : Type} {P : Params}

/-! ### The number of rows -/

section Total

theorem dim_lt_pow : P.array.dim < 2 ^ log2Up (P.array.dim + 1) :=
  Nat.lt_of_succ_le (le_two_pow_log2Up _)

def Plan.Sized (P : Params) (pl : Plan) : Prop :=
  ∀ l, ∀ o ∈ pl.operands.get l, o.rows ≤ P.array.dim

theorem Plan.Sized.totalRows_bounds {pl : Plan} (four : 4 ≤ P.array.dim) (sized : pl.Sized P) :
    4 ≤ pl.totalRows P ∧ pl.totalRows P ≤ P.array.dim := by
  have default_le (l : Lane) : ((pl.operands.get l).map (·.rows)).getD 1 ≤ P.array.dim := by
    cases h : pl.operands.get l with
    | none => exact (show 1 ≤ 4 by decide).trans four
    | some o => exact sized l o h
  unfold Plan.totalRows
  dsimp only
  split_ifs with reduced
  · have le : max (max ((pl.operands.a.map (·.rows)).getD 1) ((pl.operands.b.map (·.rows)).getD 1)) 4 ≤
        P.array.dim := max_le (max_le (default_le .a) (default_le .b)) four
    rw [Nat.mod_eq_of_lt (le.trans_lt dim_lt_pow)]
    exact ⟨le_max_right _ _, le⟩
  · exact ⟨four, le_rfl⟩

/-- A number of rows, as the counters of the controller and of the array take it. -/
structure IsTotal (P : Params) (total : ℕ) : Prop where
  four : 4 ≤ total
  le : total ≤ P.array.dim

theorem IsTotal.nextRow_eq {total c : ℕ} (h : IsTotal P total) (lt : c < total) :
    State.nextRow P total c = Counter.wrap total c := by
  have le := h.le
  rw [State.nextRow, Odometer.wrappingAdd_one (by omega) (le.trans dim_lt_pow.le) lt]
  refine Nat.mod_eq_of_lt (lt_of_lt_of_le ?_ (le_two_pow_log2Up P.array.dim))
  split_ifs <;> omega

theorem IsTotal.lastOf_eq {total : ℕ} (h : IsTotal P total) : State.lastOf P total = total - 1 := by
  have four := h.four
  have le := h.le
  have lt := dim_lt_pow (P := P)
  rw [State.lastOf, show total + 2 ^ log2Up (P.array.dim + 1) - 1 =
    total - 1 + 2 ^ log2Up (P.array.dim + 1) by omega, Nat.add_mod_right,
    Nat.mod_eq_of_lt (by omega)]

end Total

/-! ### What a step is decoded from -/

section Decode

variable {s s' : State E} {k : Performing} {r : Config} {heads heads' : ℕ → Issued} {l : Lane}

theorem decode_lane (i : ℕ) (f : Bool) (l : Lane) :
    (decode P r heads i f k).lanes.get l = operandOf P r k l (wordOf P r heads l) := Lanes.get_of _ l

theorem decode_operand (i : ℕ) (f : Bool) (l : Lane) :
    (decode P r heads i f k).plan.operands.get l =
      if (operandOf P r k l (wordOf P r heads l)).garbage then none
      else some (operandOf P r k l (wordOf P r heads l)) := by
  rw [Step.plan, Lanes.get_of, decode_lane]

def State.Issuable (P : Params) (s : State E) : Performing → Prop
  | .singlePreload => doPreloads (s.head 0) = true ∧ 1 < s.cmds.length
  | .singleMul => doComputes (s.head 0) = true ∧ 0 < s.cmds.length
  | .mulPre => doComputes (s.head 0) = true ∧ doPreloads (s.head 1) = true ∧ 1 < s.cmds.length ∧
      (s.thirdInstructionNeeded P = true → 2 < s.cmds.length)

theorem not_doPreloads {c : Issued} (compute : doComputes c = true) : doPreloads c = false := by
  rw [doComputes, Bool.or_eq_true, decide_eq_true_iff, decide_eq_true_iff] at compute
  rw [doPreloads, decide_eq_false_iff_not]
  rcases compute with h | h <;> rw [h] <;> decide

theorem issue_conditions (issue : s.action P = .issue k) : s.headValid 0 = true ∧
    match k with
    | .singlePreload => doPreloads (s.head 0) = true ∧ s.headValid 1 = true ∧
        (P.rawHazardsAreImpossible = true ∨ s.rawHazardPre P = false)
    | .mulPre => doComputes (s.head 0) = true ∧ s.headValid 1 = true ∧ doPreloads (s.head 1) = true ∧
        (s.thirdInstructionNeeded P = false ∨ s.headValid 2 = true ∧ s.rawHazardMulpre P = false)
    | .singleMul => doComputes (s.head 0) = true := by
  unfold State.action at issue
  dsimp only at issue
  split at issue
  next c₀ =>
    refine ⟨c₀, ?_⟩
    split at issue
    · cases issue
    · split at issue
      next c₂ =>
        cases issue
        simp only [Bool.and_eq_true, Bool.or_eq_true, Bool.not_eq_true'] at c₂
        exact ⟨c₂.1.1, c₂.1.2, c₂.2⟩
      next =>
        split at issue
        next c₃ =>
          cases issue
          simp only [Bool.and_eq_true, Bool.or_eq_true, Bool.not_eq_true'] at c₃
          exact ⟨c₃.1.1.1, c₃.1.1.2, c₃.1.2, c₃.2⟩
        next =>
          split at issue
          next c₄ =>
            cases issue
            exact c₄
          next => split at issue <;> cases issue
  next => split at issue <;> cases issue

theorem issuable_of_action (issue : s.action P = .issue k) : s.Issuable P k := by
  obtain ⟨valid, conditions⟩ := issue_conditions issue
  cases k with
  | singlePreload => exact ⟨conditions.1, of_decide_eq_true conditions.2.1⟩
  | singleMul => exact ⟨conditions, of_decide_eq_true valid⟩
  | mulPre =>
    obtain ⟨compute, second, preload, third⟩ := conditions
    refine ⟨compute, preload, of_decide_eq_true second, fun needed => ?_⟩
    rw [needed] at third
    exact of_decide_eq_true (third.resolve_left (by decide)).1

theorem preloadCmdPlace_of_preload (h : doPreloads (heads 0) = true) : preloadCmdPlace heads = 0 :=
  if_pos h

theorem preloadCmdPlace_of_compute (h : doComputes (heads 0) = true) : preloadCmdPlace heads = 1 := by
  rw [preloadCmdPlace, not_doPreloads h]
  rfl

theorem placeOf_singleMul (compute : doComputes (heads 0) = true)
    (fed : startInputting P r .singleMul l = true) : placeOf P r heads l = 0 := by
  have place := preloadCmdPlace_of_compute compute
  cases l with
  | a =>
    have straight : aShouldBeFedIntoTransposer P.dataflow r.toRegs = false := by
      simpa [startInputting, passes] using fed
    simp [placeOf, aAddressPlace, place, straight]
  | b =>
    have straight : bShouldBeFedIntoTransposer P.dataflow r.toRegs = false := by
      simpa [startInputting, passes] using fed
    simp [placeOf, bAddressPlace, place, straight]
  | d => exact absurd fed (by simp [startInputting])

theorem placeOf_lt (can : s.Issuable P k) (fed : startInputting P s.config k l = true) :
    placeOf P s.config s.head l < s.cmds.length := by
  cases k with
  | singlePreload =>
    have place := preloadCmdPlace_of_preload can.1
    have long := can.2
    cases l <;> simp only [placeOf, aAddressPlace, bAddressPlace, place, if_true] <;> omega
  | singleMul =>
    rw [placeOf_singleMul can.1 fed]
    exact can.2
  | mulPre =>
    have place := preloadCmdPlace_of_compute can.1
    obtain ⟨-, -, long, third⟩ := can
    by_contra no
    have ge := Nat.not_lt.mp no
    have far : 1 < placeOf P s.config s.head l := by omega
    have needed : s.thirdInstructionNeeded P = true := by
      cases l with
      | a => simp [State.thirdInstructionNeeded, show 1 < aAddressPlace P s.config s.head from far]
      | b => simp [State.thirdInstructionNeeded, show 1 < bAddressPlace P s.config s.head from far]
      | d => simp [State.thirdInstructionNeeded, show 1 < preloadCmdPlace s.head from far]
    have := third needed
    cases l <;> simp only [placeOf, aAddressPlace, bAddressPlace, place] at ge <;>
      (try split_ifs at ge) <;> omega

theorem placeOf_eq (first : heads' 0 = heads 0) (l : Lane) :
    placeOf P r heads' l = placeOf P r heads l := by
  have preload : preloadCmdPlace heads' = preloadCmdPlace heads := by
    rw [preloadCmdPlace, preloadCmdPlace, first]
  cases l with
  | a => rw [placeOf, placeOf, aAddressPlace, aAddressPlace, preload]
  | b => rw [placeOf, placeOf, bAddressPlace, bAddressPlace, preload]
  | d => exact preload

variable {new : List Issued} (cmds : s'.cmds = s.cmds ++ new)

include cmds

theorem head_append {i : ℕ} (lt : i < s.cmds.length) : s'.head i = s.head i := by
  rw [State.head, State.head, cmds, List.getD_eq_getElem?_getD, List.getD_eq_getElem?_getD,
    List.getElem?_append_left lt]

variable (config : s'.config = s.config) (can : s.Issuable P k)

include cmds config can

theorem plan_append (i : ℕ) (f f' : Bool) :
    (decode P s'.config s'.head i f' k).plan = (decode P s.config s.head i f k).plan := by
  have long : 0 < s.cmds.length := by
    cases k <;> simp only [State.Issuable] at can <;> omega
  have first : s'.head 0 = s.head 0 := head_append cmds long
  have operand (l : Lane) : (decode P s'.config s'.head i f' k).plan.operands.get l =
      (decode P s.config s.head i f k).plan.operands.get l := by
    rw [decode_operand, decode_operand, config]
    cases fed : startInputting P s.config k l with
    | false =>
      have blank (x : BitVec 64) : (operandOf P s.config k l x).garbage = true := by
        show (_ || !startInputting P s.config k l) = true
        rw [fed, Bool.not_false, Bool.or_true]
      rw [if_pos (blank _), if_pos (blank _)]
    | true =>
      have same := head_append cmds (placeOf_lt can fed)
      have word : wordOf P s.config s'.head l = wordOf P s.config s.head l := by
        cases l <;> simp only [wordOf] <;> rw [placeOf_eq first, same]
      rw [word]
  have owner (l : Lane) : (decode P s'.config s'.head i f' k).plan.owner.get l =
      (decode P s.config s.head i f k).plan.owner.get l := by
    show (Lanes.of _).get l = (Lanes.of _).get l
    rw [Lanes.get_of, Lanes.get_of, config, placeOf_eq first]
  exact Plan.mk.injEq .. ▸ ⟨rfl, config, Lanes.ext_get owner, Lanes.ext_get operand⟩

theorem issuable_append : s'.Issuable P k := by
  have longer : s.cmds.length ≤ s'.cmds.length := by
    rw [cmds, List.length_append]
    exact Nat.le_add_right _ _
  cases k with
  | singlePreload =>
    obtain ⟨preload, long⟩ := can
    rw [← head_append cmds (by omega)] at preload
    exact ⟨preload, long.trans_le longer⟩
  | singleMul =>
    obtain ⟨compute, long⟩ := can
    rw [← head_append cmds long] at compute
    exact ⟨compute, long.trans_le longer⟩
  | mulPre =>
    obtain ⟨compute, preload, long, third⟩ := can
    have first : s'.head 0 = s.head 0 := head_append cmds (by omega)
    refine ⟨first ▸ compute, head_append cmds long ▸ preload, long.trans_le longer, fun needed => ?_⟩
    have same : s'.thirdInstructionNeeded P = s.thirdInstructionNeeded P := by
      have place := fun l => placeOf_eq (P := P) (r := s.config) first l
      unfold State.thirdInstructionNeeded
      rw [config, show aAddressPlace P s.config s'.head = _ from place .a,
        show bAddressPlace P s.config s'.head = _ from place .b,
        show preloadCmdPlace s'.head = _ from place .d]
      rfl
    exact (third (same ▸ needed)).trans_le longer

end Decode

/-! ### Lockstep -/

/-- How far the operands of a step are: no one is more than a row ahead, and not all are done. -/
structure Progress (P : Params) (s : State E) (total : ℕ) (n : Lane → ℕ) : Prop where
  isTotal : IsTotal P total
  le : ∀ l, n l ≤ total
  together : Together n
  fire : ∀ l, s.fire.get l = Counter.after total (n l)
  offset : s.aAddrOffset = s.fire.a.counter * s.config.aAddrStride
  unfinished : ∃ l, n l < total

namespace Progress

variable {s : State E} {inp : Input E} {st : Step} {n : Lane → ℕ} {l o : Lane}

def moves (P : Params) (s : State E) (inp : Input E) (st : Step) (l : Lane) : Bool :=
  s.fires P inp st l && s.cntlReady P inp

theorem valid_of_moves (moved : moves P s inp st l = true) : s.valid P st l = true := by
  rw [moves, State.fires, Bool.and_eq_true, Bool.and_eq_true] at moved
  exact moved.1.1

section Step

variable (h : Progress P s (st.totalRows P) n)

include h

theorem three : 3 ≤ st.totalRows P :=
  (show 3 ≤ 4 by decide).trans h.isTotal.four

theorem counter_lt (l : Lane) : (s.fire.get l).counter < st.totalRows P := by
  have := h.three
  rw [h.fire l, Counter.after]
  dsimp only
  split_ifs <;> omega

theorem oneAhead_iff : s.oneAhead P st l o = true ↔ n l = n o + 1 := by
  rw [State.oneAhead, Bool.and_eq_true, beq_iff_eq, h.isTotal.nextRow_eq (h.counter_lt o), h.fire l,
    h.fire o]
  exact Counter.ahead_iff h.three (h.le l) (h.le o) (h.together l o) (h.together o l)

theorem le_of_valid (valid : s.valid P st l = true) (o : Lane) : n l ≤ n o := by
  by_cases same : o = l
  · rw [same]
  · have free := List.any_eq_false.mp (Bool.not_eq_true' _ ▸ valid) o (Lane.mem_others.mpr same)
    rw [Bool.not_eq_true, State.mustWaitFor, Bool.or_eq_false_iff] at free
    have notAhead : n l ≠ n o + 1 := fun ahead => by
      rw [h.oneAhead_iff.mpr ahead] at free
      exact Bool.noConfusion free.2
    have := h.together l o
    omega

theorem lt_of_valid (valid : s.valid P st l = true) : n l < st.totalRows P := by
  obtain ⟨o, lt⟩ := h.unfinished
  exact (h.le_of_valid valid o).trans_lt lt

theorem advance_le (l : Lane) : n l + (moves P s inp st l).toNat ≤ st.totalRows P := by
  cases moved : moves P s inp st l with
  | false => exact h.le l
  | true => exact h.lt_of_valid (valid_of_moves moved)

theorem finished_iff : s.aboutToFireAllRows P inp st = true ↔
      ∀ l, n l + (moves P s inp st l).toNat = st.totalRows P := by
  have below : ∀ l, moves P s inp st l = true → n l < st.totalRows P := fun l moved =>
    h.lt_of_valid (valid_of_moves moved)
  rw [← h.together.finished_iff h.three h.le below, State.aboutToFireAllRows, Bool.and_eq_true,
    Bool.and_eq_true, decide_eq_true_iff, h.isTotal.lastOf_eq]
  have started : (s.fire.a.started || s.fire.b.started || s.fire.d.started) = true ↔
      ∃ l, (Counter.after (st.totalRows P) (n l)).started = true := by
    simp only [← h.fire, Bool.or_eq_true]
    rw [Lane.exists_iff]
    rfl
  rw [started]
  simp only [h.fire, moves, Bool.and_eq_true]
  constructor
  · rintro ⟨⟨rows, some'⟩, ready⟩
    exact ⟨fun l => (rows l).imp (And.imp_right fun fires => ⟨fires, ready⟩) id, some'⟩
  · rintro ⟨rows, some'⟩
    refine ⟨⟨fun l => (rows l).imp (And.imp_right And.left) id, some'⟩, ?_⟩
    -- if the control queue were full, every register would be at zero, so every operand done
    by_contra full
    obtain ⟨o, lt⟩ := h.unfinished
    obtain ⟨i, begun⟩ := some'
    rw [Counter.after_started, decide_eq_true_iff] at begun
    have zero (l : Lane) : (Counter.after (st.totalRows P) (n l)).counter = 0 :=
      (rows l).resolve_left fun last => full last.2.2
    have first := zero o
    rw [Counter.after_counter_of_lt lt] at first
    have done := zero i
    have near := h.together i o
    have three := h.three
    rw [Counter.after_counter_of_lt (by omega)] at done
    omega

variable (cur : s.current P = some st) (firing : State.isFiring st = true)

include cur firing

theorem nextFire_eq (goesOn : s.aboutToFireAllRows P inp st = false) (l : Lane) :
    s.nextFire P inp l = Counter.after (st.totalRows P) (n l + (moves P s inp st l).toNat) := by
  rw [State.nextFire, cur]
  simp only [firing, Bool.not_true, Bool.false_eq_true, if_false, goesOn, Bool.not_false,
    Bool.and_true]
  rw [← moves]
  cases moved : moves P s inp st l with
  | false => rw [if_neg Bool.false_ne_true, h.fire l, Bool.toNat_false, Nat.add_zero]
  | true =>
    rw [if_pos rfl, h.isTotal.nextRow_eq (h.counter_lt l), h.fire l, Bool.toNat_true,
      Counter.after_succ (h.lt_of_valid (valid_of_moves moved))]

theorem nextFire_last (last : s.aboutToFireAllRows P inp st = true) (l : Lane) :
    s.nextFire P inp l = ⟨0, false⟩ := by
  have all := h.finished_iff.mp last l
  rw [State.nextFire, cur]
  simp only [firing, Bool.not_true, Bool.false_eq_true, if_false, last, Bool.and_false]
  rw [← moves]
  cases moved : moves P s inp st l with
  | false =>
    rw [moved, Bool.toNat_false, Nat.add_zero] at all
    rw [if_neg Bool.false_ne_true, h.fire l, all, Counter.after_counter_self]
  | true =>
    rw [moved, Bool.toNat_true] at all
    have row := h.fire l
    rw [if_pos rfl, h.isTotal.nextRow_eq (h.counter_lt l), row,
      Counter.after_counter_of_lt (by omega), Counter.wrap, if_neg (by omega)]

theorem nextOffset_eq (stride : s.config.aAddrStride < 2 ^ 16) :
    s.nextOffset P inp = (s.nextFire P inp .a).counter * s.config.aAddrStride := by
  have lt : s.fire.a.counter < st.totalRows P := h.counter_lt .a
  have le := h.isTotal.le
  rw [State.nextOffset, State.nextFire, cur]
  simp only [firing, Bool.not_true, Bool.false_eq_true, if_false, Lanes.get]
  cases moved : (s.fires P inp st .a && s.cntlReady P inp) with
  | false => simpa only [Bool.false_eq_true, if_false] using h.offset
  | true =>
    simp only [if_true, h.isTotal.lastOf_eq, h.isTotal.nextRow_eq lt, Counter.wrap]
    by_cases last : s.fire.a.counter = st.totalRows P - 1
    · rw [if_pos last, if_neg (by omega), Nat.zero_mul]
    · have wide : (s.fire.a.counter + 1) * s.config.aAddrStride < 2 ^ (16 + log2Up P.array.dim) := by
        rw [Nat.pow_add, Nat.mul_comm (2 ^ 16)]
        refine Nat.mul_lt_mul_of_le_of_lt ?_ stride (Nat.two_pow_pos _)
        exact (show s.fire.a.counter + 1 ≤ P.array.dim by omega).trans (le_two_pow_log2Up _)
      rw [if_neg last, if_pos (by omega), h.offset, ← Nat.succ_mul, Nat.mod_eq_of_lt wide]

end Step

theorem zero {total : ℕ} (isTotal : IsTotal P total) (fire : ∀ l, s.fire.get l = ⟨0, false⟩)
    (offset : s.aAddrOffset = 0) : Progress P s total fun _ => 0 where
  isTotal := isTotal
  le _ := Nat.zero_le _
  together _ _ := Nat.zero_le _
  fire l := by
    have := isTotal.four
    rw [fire l, Counter.after, if_pos (by omega)]
    rfl
  offset := by
    have : s.fire.a.counter = 0 := congrArg Counter.counter (fire .a)
    rw [offset, this, Nat.zero_mul]
  unfinished := ⟨.a, by have := isTotal.four; omega⟩

end Progress

/-! ### The rows fired in a run -/

def rowsOf (P : Params) (plans : List Plan) : ℕ := (plans.map (·.totalRows P)).sum

@[simp] theorem rowsOf_append (plans : List Plan) (pl : Plan) :
    rowsOf P (plans ++ [pl]) = rowsOf P plans + pl.totalRows P := by
  simp [rowsOf]

/-- What the source asserts: at most one operand is fed into the transposer, and operands are at most a
block. -/
structure WellFormed (P : Params) (s : State E) : Prop where
  transposer : (aShouldBeFedIntoTransposer P.dataflow s.config.toRegs).toNat +
    (bShouldBeFedIntoTransposer P.dataflow s.config.toRegs).toNat +
    (dShouldBeFedIntoTransposer P.dataflow s.config.toRegs).toNat ≤ 1
  sized : ∀ st ∈ s.current P, st.plan.Sized P

instance (pl : Plan) : Decidable (pl.Sized P) := by
  unfold Plan.Sized
  infer_instance

instance (s : State E) : Decidable (WellFormed P s) :=
  decidable_of_iff (_ ∧ _) ⟨fun h => ⟨h.1, h.2⟩, fun h => ⟨h.1, h.2⟩⟩

/-- How far the operands of the step of a cycle are, and the rows fired before it. -/
structure Stepping (P : Params) (s : State E) (st : Step) (earlier : List Plan) (n : Lane → ℕ) :
    Prop where
  current : s.current P = some st
  can : s.Issuable P st.performing
  serial : (if s.control = .waitingForCmd then s.steps.length else s.steps.length - 1) =
    earlier.length
  steps : s.control = .waitingForCmd ∧ s.steps = earlier ∨
    s.control = .compute ∧ s.steps = earlier ++ [st.plan]
  fresh : s.control = .waitingForCmd → ∀ l, n l = 0
  progress : Progress P s (st.totalRows P) n
  fired : ∀ l, s.fired.get l = rowsOf P earlier + n l

/-- Between steps the counters are at rest and all rows are fired; within one, the operands are in
lockstep. -/
structure Rows (P : Params) (s : State E) : Prop where
  stride : s.config.aAddrStride < 2 ^ 16
  idle : s.control ≠ .compute → (∀ l, s.fire.get l = ⟨0, false⟩) ∧ s.aAddrOffset = 0 ∧
    ∀ l, s.fired.get l = rowsOf P s.steps
  busy : s.control = .compute → ∃ st earlier n, Stepping P s st earlier n

variable {s : State E} {inp : Input E} {st : Step} {earlier : List Plan} {n : Lane → ℕ}

theorem current_eq_some {k : Performing} (h : s.performing P = some k) :
    s.current P = some (decode P s.config s.head s.retired s.inPropFlush k) := by
  rw [State.current, h, Option.map_some]

theorem performing_of_current (h : s.current P = some st) :
    s.performing P = some st.performing ∧
      st = decode P s.config s.head s.retired s.inPropFlush st.performing := by
  obtain ⟨k, hk, rfl⟩ := Option.map_eq_some_iff.mp h
  exact ⟨hk, rfl⟩

theorem control_of_current (h : s.current P = some st) :
    s.control = .waitingForCmd ∧ s.action P = .issue st.performing ∨
      s.control = .compute ∧ s.perform = st.performing := by
  have performing := (performing_of_current h).1
  unfold State.performing at performing
  cases control : s.control with
  | waitingForCmd =>
    rw [control] at performing
    dsimp only at performing
    cases action : s.action P with
    | issue k =>
      rw [action] at performing
      exact .inl ⟨rfl, congrArg _ (Option.some.inj performing)⟩
    | config | flush | stay => rw [action] at performing; cases performing
  | compute =>
    rw [control] at performing
    exact .inr ⟨rfl, Option.some.inj performing⟩
  | flush | flushing => rw [control] at performing; cases performing

theorem Rows.stepping (h : Rows P s) (four : 4 ≤ P.array.dim) (wf : WellFormed P s)
    (current : s.current P = some st) : ∃ earlier n, Stepping P s st earlier n := by
  have bounds := (wf.sized st current).totalRows_bounds four
  rcases control_of_current current with ⟨control, action⟩ | ⟨control, -⟩
  · obtain ⟨fire, offset, fired⟩ := h.idle (by rw [control]; decide)
    exact ⟨s.steps, fun _ => 0, {
      current
      can := issuable_of_action action
      serial := if_pos control
      steps := .inl ⟨control, rfl⟩
      fresh := fun _ _ => rfl
      progress := .zero ⟨bounds.1, bounds.2⟩ fire offset
      fired }⟩
  · obtain ⟨st', earlier, n, stepping⟩ := h.busy control
    obtain rfl : st' = st := Option.some.inj (stepping.current ▸ current)
    exact ⟨earlier, n, stepping⟩

theorem WellFormed.isFiring (wf : WellFormed P s) (current : s.current P = some st) :
    State.isFiring st = true := by
  obtain ⟨-, eq⟩ := performing_of_current current
  have lane (l : Lane) : (st.lanes.get l).inputting = startInputting P s.config st.performing l := by
    rw [eq, decode_lane]
    rfl
  show ((st.lanes.get .a).inputting || (st.lanes.get .b).inputting ||
    (st.lanes.get .d).inputting) = true
  rw [lane, lane, lane]
  cases st.performing with
  | singlePreload | mulPre => simp [startInputting, passes]
  | singleMul =>
    have one := wf.transposer
    simp only [startInputting, passes, Bool.or_false]
    cases ha : aShouldBeFedIntoTransposer P.dataflow s.config.toRegs <;>
      cases hb : bShouldBeFedIntoTransposer P.dataflow s.config.toRegs
    · rfl
    · rfl
    · rfl
    · rw [ha, hb] at one
      simp only [Bool.toNat_true] at one
      omega

namespace Stepping

variable (h : Stepping P s st earlier n)

include h

theorem compute_of_last (last : s.aboutToFireAllRows P inp st = true) : s.control = .compute := by
  rcases h.steps with ⟨control, -⟩ | ⟨control, -⟩
  · have all := h.progress.finished_iff.mp last .a
    have four := h.progress.isTotal.four
    have le : (Progress.moves P s inp st .a).toNat ≤ 1 := Bool.toNat_le _
    rw [h.fresh control .a] at all
    omega
  · exact control

theorem finishes_eq (compute : s.control = .compute) :
    s.finishes P inp = s.aboutToFireAllRows P inp st := by
  rw [State.finishes, compute, h.current]

variable [Zero E]

theorem fired_next (l : Lane) :
    (s.next P inp).fired.get l = s.fired.get l + (Progress.moves P s inp st l).toNat := by
  show (Lanes.of _).get l = _
  rw [Lanes.get_of, State.enq, h.current, Progress.moves]
  cases s.cntlReady P inp with
  | false => rw [if_neg Bool.false_ne_true, Option.any_none, Bool.and_false]
  | true =>
    rw [if_pos rfl, Option.map_some, Option.any_some, Bool.and_true]
    exact congrArg (s.fired.get l + Bool.toNat ·) (Lanes.get_of _ l)

theorem config_next : (s.next P inp).config = s.config := by
  apply if_neg
  rintro ⟨control, action⟩
  rcases control_of_current h.current with ⟨-, issue⟩ | ⟨compute, -⟩
  · rw [issue] at action
    cases action
  · rw [control] at compute
    cases compute

theorem steps_next : (s.next P inp).steps = earlier ++ [st.plan] := by
  rcases h.steps with ⟨control, steps⟩ | ⟨control, steps⟩ <;>
    simp only [State.next, control, h.current, steps]

theorem goesOn (more : s.aboutToFireAllRows P inp st = false) :
    (s.next P inp).control = .compute ∧ (s.next P inp).perform = st.performing ∧
      (s.next P inp).cmds = s.cmds ++ s.newCmd P inp ∧ (s.next P inp).retired = s.retired := by
  unfold State.next
  dsimp only
  rcases control_of_current h.current with ⟨control, action⟩ | ⟨control, perform⟩
  · have pops : s.pops P inp = 0 := by
      rw [State.pops, control]
      exact if_neg (by rw [action]; exact State.Action.noConfusion)
    rw [State.nextControl, control, action, pops, List.drop_zero]
    exact ⟨rfl, rfl, rfl, rfl⟩
  · have pops : s.pops P inp = 0 := by
      rw [State.pops, control]
      dsimp only
      rw [h.finishes_eq control, more, if_neg Bool.false_ne_true]
    rw [State.nextControl, control, pops, List.drop_zero]
    dsimp only
    rw [h.finishes_eq control, more, if_neg Bool.false_ne_true]
    exact ⟨rfl, perform, rfl, rfl⟩

theorem ends (last : s.aboutToFireAllRows P inp st = true) :
    (s.next P inp).control = .waitingForCmd := by
  have compute := h.compute_of_last last
  show s.nextControl P inp = _
  rw [State.nextControl, compute]
  dsimp only
  rw [h.finishes_eq compute, last, if_pos rfl]

theorem step (wf : WellFormed P s) (stride : s.config.aAddrStride < 2 ^ 16)
    (more : s.aboutToFireAllRows P inp st = false) :
    ∃ st', st'.plan = st.plan ∧ Stepping P (s.next P inp) st' earlier
      fun l => n l + (Progress.moves P s inp st l).toNat := by
  obtain ⟨control, perform, cmds, retired⟩ := h.goesOn more
  have config : (s.next P inp).config = s.config := h.config_next
  have firing := wf.isFiring h.current
  have performing : (s.next P inp).performing P = some st.performing := by
    rw [State.performing, control, perform]
  have same : (decode P (s.next P inp).config (s.next P inp).head (s.next P inp).retired
      (s.next P inp).inPropFlush st.performing).plan = st.plan := by
    rw [retired, plan_append cmds config h.can s.retired s.inPropFlush,
      ← (performing_of_current h.current).2]
  have fire (l : Lane) : (s.next P inp).fire.get l =
      Counter.after (st.totalRows P) (n l + (Progress.moves P s inp st l).toNat) :=
    (Lanes.get_of _ l).trans (h.progress.nextFire_eq h.current firing more l)
  refine ⟨_, same, current_eq_some performing, ?_, ?_, .inr ⟨control, ?_⟩, ?_, ?_, fun l => ?_⟩
  · exact issuable_append cmds config h.can
  · rw [if_neg (by rw [control]; decide), h.steps_next, List.length_append, List.length_singleton,
      Nat.add_sub_cancel]
  · rw [h.steps_next, same]
  · intro waiting
    rw [control] at waiting
    cases waiting
  · rw [Step.totalRows, same]
    exact {
      isTotal := h.progress.isTotal
      le := h.progress.advance_le
      together := h.progress.together.advance fun l moved o =>
        h.progress.le_of_valid (Progress.valid_of_moves moved) o
      fire
      offset := by
        rw [config]
        exact (h.progress.nextOffset_eq h.current firing stride).trans
          (congrArg (Counter.counter · * _) (Lanes.get_of (s.nextFire P inp) .a).symm)
      unfinished := by
        by_contra all
        push Not at all
        refine absurd more (Bool.not_eq_false _ ▸ h.progress.finished_iff.mpr fun l => ?_)
        exact le_antisymm (h.progress.advance_le l) (all l) }
  · rw [h.fired_next, h.fired, Nat.add_assoc]

end Stepping

theorem Rows.init (h : s.Init) : Rows P s where
  stride := h.aAddrStride
  idle _ := ⟨h.fire, h.aAddrOffset, fun l => by rw [h.fired l, h.steps]; rfl⟩
  busy control := by
    rw [h.control] at control
    cases control

theorem configure_stride {r : Config} {c : ReservationStation.Cmd} (h : r.aAddrStride < 2 ^ 16) :
    (r.configure P c).aAddrStride < 2 ^ 16 := by
  show (r.toRegs.configure P.dataflow c).aAddrStride < 2 ^ 16
  rw [Regs.configure]
  by_cases ex : IsConfigEx c
  · rw [if_pos ex]
    exact Nat.mod_lt _ (Nat.two_pow_pos 16)
  · rw [if_neg ex]
    exact h

theorem next_of_no_current [Zero E] (none' : s.current P = none) (inp : Input E) :
    s.control ≠ .compute ∧ (s.next P inp).control ≠ .compute ∧
      (∀ l, (s.next P inp).fired.get l = s.fired.get l) ∧ (s.next P inp).steps = s.steps := by
  have performing := Option.map_eq_none_iff.mp none'
  refine ⟨fun control => ?_, fun control => ?_, fun l => ?_, ?_⟩
  · rw [State.performing, control] at performing
    cases performing
  · change s.nextControl P inp = .compute at control
    unfold State.nextControl at control
    unfold State.performing at performing
    cases now : s.control <;> rw [now] at control performing <;> dsimp only at control performing
    · cases action : s.action P with
      | issue k => rw [action] at performing; cases performing
      | config | flush | stay => rw [action] at control; cases control
    · cases performing
    · split_ifs at control
    · split_ifs at control
  · show (Lanes.of _).get l = _
    rw [Lanes.get_of, State.enq, none']
    split_ifs <;> rfl
  · unfold State.next
    dsimp only
    rw [none']
    cases s.control <;> rfl

theorem Rows.next [Zero E] (h : Rows P s) (four : 4 ≤ P.array.dim) (wf : WellFormed P s) :
    Rows P (s.next P inp) := by
  have stride : (s.next P inp).config.aAddrStride < 2 ^ 16 := by
    show (if _ then _ else _ : Config).aAddrStride < _
    split_ifs
    · exact configure_stride h.stride
    · exact h.stride
  cases current : s.current P with
  | none =>
    obtain ⟨now, next, fired, steps⟩ := next_of_no_current current inp
    obtain ⟨fire, -, done⟩ := h.idle now
    refine ⟨stride, fun _ => ⟨fun l => ?_, ?_, fun l => ?_⟩, fun control => absurd control next⟩
    · show (Lanes.of _).get l = _
      rw [Lanes.get_of, State.nextFire, current]
      exact congrArg _ (congrArg Counter.started (fire l))
    · show s.nextOffset P inp = 0
      rw [State.nextOffset, current]
    · rw [fired, steps, done]
  | some st =>
    obtain ⟨earlier, n, stepping⟩ := h.stepping four wf current
    have firing := wf.isFiring current
    cases last : s.aboutToFireAllRows P inp st with
    | false =>
      obtain ⟨st', -, step⟩ := stepping.step wf h.stride last
      have control := (stepping.goesOn last).1
      exact ⟨stride, fun no => absurd control no, fun _ => ⟨st', earlier, _, step⟩⟩
    | true =>
      have control := stepping.ends last
      have fire (l : Lane) : s.nextFire P inp l = ⟨0, false⟩ :=
        stepping.progress.nextFire_last current firing last l
      refine ⟨stride, fun _ => ⟨fun l => ?_, ?_, fun l => ?_⟩, fun busy => ?_⟩
      · exact (Lanes.get_of _ l).trans (fire l)
      · show s.nextOffset P inp = 0
        rw [stepping.progress.nextOffset_eq current firing h.stride, fire .a, Nat.zero_mul]
      · rw [stepping.fired_next, stepping.fired, stepping.steps_next, rowsOf_append, Nat.add_assoc,
          stepping.progress.finished_iff.mp last l]
        rfl
      · rw [control] at busy
        cases busy

end Gemmini.Execute
