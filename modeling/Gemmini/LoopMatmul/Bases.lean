import Gemmini.Lib.Turns
import Gemmini.LoopMatmul.Ordering

/-!
# The accumulator bases

LdD, the execute unit and the stores each keep the half of the accumulator for their next loop, and move
it on at different times and on different conditions.
-/

namespace Gemmini.LoopMatmul

open Slots (valueAfter)

/-- The bases move on together: LdD looks only at the C address, and a skipped stage does not move its
base. -/
def Cfg.InStep (c : Cfg) (skips : Stage → Bool) : Prop :=
  c.moves = (c.cDramAddr != 0) ∧
    (c.moves = true → skips .ldd = false ∧ skips .ex = false ∧ skips .st = false)

instance (c : Cfg) (skips : Stage → Bool) : Decidable (c.InStep skips) :=
  inferInstanceAs (Decidable (_ ∧ _))

def Event.base : Event → Option ℕ
  | ldD req _ _ => some req.addrStart
  | preload req _ => some req.cAddrStart
  | compute req _ => some req.cAddrStart
  | stC req _ => some req.addrStart
  | normConfig req _ => some req.addrStart
  | normStC req _ => some req.addrStart
  | stCSpad req _ _ => some req.srcAddr
  | ldA .. => none
  | ldB .. => none

/-- The accumulator base for loop `n`, as the loops before it have moved it. -/
def Tracked.baseFor (p : Params) (t : Tracked) (n : ℕ) : ℕ :=
  valueAfter Cfg.moves (fun b => nextBase p b true) 0 (t.infos.take n)

def Stage.hasBase : Stage → Bool
  | .ldd | .ex | .st => true
  | _ => false

def State.base (s : State) : Stage → ℕ
  | .ldd => s.ldDAddrStart
  | .ex => s.exCAddrStart
  | _ => s.stCAddrStart

def State.held (s : State) : Unroller → Option ℕ
  | .ldD => some s.ldD.req.addrStart
  | .ex => some s.exReq.cAddrStart
  | .stC => some s.stCReq.addrStart
  | .stCSpad => some s.stCSpad.req.srcAddr
  | _ => none

section Registers

variable {p : Params} {s : State} {inp : Input} {u : Unroller}

theorem State.event_base (s : State) (u : Unroller) : (s.event u).base = s.held u := by
  cases u <;> simp only [State.event, State.held] <;> (try split) <;> rfl

theorem State.held_of_fire (fires : s.reqFire u = true) (matmul : s.isResadd = false)
    (base : u.stage.hasBase = true) : (s.next p inp).held u = some (s.base u.stage) := by
  cases u <;> simp only [Unroller.stage, Stage.hasBase, Bool.false_eq_true] at base <;>
    simp [State.held, State.next, Walker.next, State.given, fires, matmul, State.base,
      Unroller.stage, Cfg.ldDReq, Cfg.exReq, Cfg.stCReq, Cfg.stCSpadReq]

theorem State.held_next (waits : s.reqFire u = false) : (s.next p inp).held u = s.held u := by
  cases u <;> simp only [State.held, State.next, Walker.next, State.given, waits,
    Bool.false_eq_true, if_false] <;> split <;> rfl

theorem State.hasBase_of_held {b : ℕ} (h : s.held u = some b) : u.stage.hasBase = true := by
  cases u <;> simp_all [State.held] <;> rfl

theorem nextBase_of (moves : Bool) (b : ℕ) :
    nextBase p b moves = if moves then nextBase p b true else b := by
  cases moves <;> rfl

theorem State.base_rests {k : Stage} (base : k.hasBase = true)
    (rests : ∀ u : Unroller, u.stage = k → s.reqFire u = false) :
    (s.next p inp).base k = s.base k := by
  cases k <;> simp only [Stage.hasBase, Bool.false_eq_true] at base <;>
    simp only [State.base, State.next]
  case ldd => simp [rests .ldD rfl, nextBase]
  case ex => simp [rests .ex rfl, nextBase]
  case st => simp [rests .stC rfl, rests .stCSpad rfl, nextBase]

theorem State.base_moves {c : Cfg} {skips : Stage → Bool} (base : u.stage.hasBase = true)
    (fires : s.reqFire u = true) (requested : s.requested u = c) (inStep : c.InStep skips) :
    (s.next p inp).base u.stage =
      if c.moves then nextBase p (s.base u.stage) true else s.base u.stage := by
  rw [← nextBase_of]
  cases u <;> simp only [Unroller.stage, Stage.hasBase, Bool.false_eq_true] at base <;>
    simp only [State.base, State.next, Unroller.stage]
  case ldD => rw [fires, requested, Bool.true_and, ← inStep.1]
  case ex => rw [fires, requested, Bool.true_and]
  case stC => rw [fires, requested, Bool.true_or, Bool.true_and]
  case stCSpad =>
    have same : s.requested .stC = c := requested
    rw [fires, same, Bool.or_true, Bool.true_and]

end Registers

/-! ### The bases of a run -/

namespace Tracked

variable {p : Params} {t : Tracked} {inp : Input}

/-- The base registers, the requests and the commands handed out have the base of their loop. -/
structure BasesAgree (p : Params) (t : Tracked) : Prop where
  registers : ∀ {k n}, k.hasBase = true → t.slots.Frontier k n → t.regs.base k = t.baseFor p n
  requests : ∀ {u n b}, t.slots.WorksOn u n → t.regs.held u = some b → b = t.baseFor p n
  log : ∀ {n e b}, (n, e) ∈ t.log → e.base = some b → b = t.baseFor p n

theorem baseFor_next {n : ℕ} (bound : n ≤ t.infos.length) :
    (t.next p inp).baseFor p n = t.baseFor p n := by
  unfold baseFor
  congr 1
  exact List.take_append_of_le_length bound

theorem BasesAgree.init (h : (matmuls p).init t) : t.BasesAgree p := by
  obtain ⟨initial, start, first, infos, serving, _, _, log⟩ := h
  have base : ∀ n, t.baseFor p n = 0 := by
    intro n
    rw [baseFor, infos, List.take_nil]
    rfl
  refine ⟨fun {k n} base' _ => ?_, fun works => ?_, fun mem => by simp [log] at mem⟩
  · rw [base]
    cases k <;> simp only [Stage.hasBase, Bool.false_eq_true] at base'
    · exact initial.ldDAddrStart
    · exact initial.exCAddrStart
    · exact initial.stCAddrStart
  · have := initial.idle _ ▸ works.1
    cases this

theorem BasesAgree.next_registers (h : t.BasesAgree p) (inv : t.Inv p)
    (inStep : ∀ x ∈ (t.next p inp).infos, x.1.InStep x.2) {k : Stage} {n : ℕ}
    (base : k.hasBase = true) (frontier : (t.next p inp).slots.Frontier k n) :
    (t.next p inp).regs.base k = (t.next p inp).baseFor p n := by
  refine inv.slots.next_value inv.legal (fun n => h.registers base) ?_ ?_ ?_ ?_ frontier
  · rintro u n c skips rfl fires takes info
    have old : (c, skips) ∈ (t.next p inp).infos :=
      List.mem_append_left _ (List.mem_of_getElem? info)
    exact State.base_moves base fires (inv.requested_eq takes info) (inStep _ old)
  · exact fun rests => State.base_rests base rests
  · intro n c skips info skipped
    obtain ⟨_, moving⟩ := inStep _ (List.mem_of_getElem? info)
    cases hmoves : c.moves with
    | false => rfl
    | true =>
      cases k <;> simp_all [Stage.hasBase]
  · intro c
    cases k <;> simp only [Stage.hasBase, Bool.false_eq_true] at base
    · exact ⟨.ldD, rfl, rfl⟩
    · exact ⟨.ex, rfl, rfl⟩
    · cases spad : c.spadOnly with
      | false => exact ⟨.stC, rfl, by simp [layout, Unroller.serves, spad]⟩
      | true => exact ⟨.stCSpad, rfl, by simp [layout, Unroller.serves, spad]⟩

theorem BasesAgree.next_requests (h : t.BasesAgree p) (inv : t.Inv p) {u : Unroller} {n b : ℕ}
    (works : (t.next p inp).slots.WorksOn u n) (held : (t.next p inp).regs.held u = some b) :
    b = (t.next p inp).baseFor p n := by
  rcases Slots.Tracked.WorksOn.next_cases inv.slots inv.legal works with
    ⟨fires, takes⟩ | ⟨waits, _, works⟩
  · have base := State.hasBase_of_held held
    have given : (t.next p inp).regs.held u = some (t.regs.base u.stage) :=
      State.held_of_fire fires inv.matmul base
    cases given.symm.trans held
    rw [baseFor_next takes.lt_length.le]
    exact h.registers base takes.frontier
  · have same : (t.next p inp).regs.held u = t.regs.held u := State.held_next waits
    rw [baseFor_next (inv.lt_length works).le]
    exact h.requests works (same.symm.trans held)

theorem BasesAgree.next (h : t.BasesAgree p) (inv : t.Inv p) (recorded : t.Recorded p)
    (inStep : ∀ x ∈ (t.next p inp).infos, x.1.InStep x.2) : (t.next p inp).BasesAgree p := by
  refine ⟨h.next_registers inv inStep, h.next_requests inv, fun {n e b} mem base => ?_⟩
  rw [baseFor_next (recorded.lt_of_mem_next inv mem).le]
  rw [log_next, List.mem_append] at mem
  rcases mem with old | new
  · exact h.log old base
  · obtain ⟨u, _, works, rfl⟩ := handed_spec (Option.mem_toList.mp new)
    rw [State.event_base] at base
    exact h.requests works base

theorem basesAgree_of_reachable (reach : (matmuls p).Reachable t)
    (inStep : ∀ x ∈ t.infos, x.1.InStep x.2) : t.BasesAgree p := by
  revert inStep
  refine reach.invariant (P := fun t => (∀ x ∈ t.infos, x.1.InStep x.2) → t.BasesAgree p)
    (fun t h _ => .init h) fun t inp reach ih _ inStep => ?_
  have sound := sound_of_reachable reach
  exact (ih fun x hx => inStep x (List.mem_append_left _ hx)).next sound.inv sound.recorded inStep

end Tracked

/-! ### The two halves -/

/-- The banks of the accumulator hold whole blocks, and the block size is even. -/
structure Params.HasHalves (p : Params) : Prop where
  even : 2 ∣ p.blockSize
  blocks : p.blockSize ∣ p.geometry.accBankEntries
  rows : 0 < p.maxAccAddr

section Halves

variable {p : Params}

theorem Params.HasHalves.two_half (h : p.HasHalves) : 2 * (p.maxAccAddr / 2) = p.maxAccAddr :=
  Nat.mul_div_cancel' ((h.even.trans h.blocks).mul_left _)

theorem nextBase_halves (h : p.HasHalves) {b : ℕ} (hb : b = 0 ∨ b = p.maxAccAddr / 2) :
    nextBase p b true = if b = 0 then p.maxAccAddr / 2 else 0 := by
  have two := h.two_half
  have pos := h.rows
  rw [nextBase, if_pos rfl, Odometer.floorAdd_eq_of_le (le_two_pow_log2Up _), Odometer.limit,
    if_neg pos.ne']
  rcases hb with rfl | rfl
  · rw [if_neg (by omega), if_pos rfl, Nat.zero_add]
  · rw [if_pos (by omega), if_neg (by omega)]

theorem baseFor_half (h : p.HasHalves) (t : Tracked) (n : ℕ) :
    t.baseFor p n = 0 ∨ t.baseFor p n = p.maxAccAddr / 2 := by
  induction n with
  | zero => exact .inl rfl
  | succ n ih =>
    cases info : t.infos[n]? with
    | none =>
      have same : t.infos.take (n + 1) = t.infos.take n := by
        rw [List.take_add_one, info, Option.toList_none, List.append_nil]
      rw [Tracked.baseFor, same]
      exact ih
    | some x =>
      obtain ⟨c, skips⟩ := x
      have step : t.baseFor p (n + 1) =
          if c.moves then nextBase p (t.baseFor p n) true else t.baseFor p n :=
        Slots.valueAfter_take_succ info
      rw [step, nextBase_halves h ih]
      grind

end Halves

/-- If the bases move on together, all commands of a loop that refer to the accumulator have the same
base, the start of one of the halves; and while a loop is in flight, the next one uses the other half
exactly if the result of the first is stored. -/
theorem same_accumulator_base {p : Params} (h : p.HasHalves) {t : Tracked}
    (reach : (matmuls p).Reachable t) (inStep : ∀ x ∈ t.infos, x.1.InStep x.2) :
    (∀ n e e' b b', (n, e) ∈ t.log → (n, e') ∈ t.log → e.base = some b → e'.base = some b' →
      b = b' ∧ (b = 0 ∨ b = p.maxAccAddr / 2)) ∧
    (∀ m n e e' b b' c skips, t.first ≤ m → m < n → (m, e) ∈ t.log → (n, e') ∈ t.log →
      e.base = some b → e'.base = some b' → t.infos[m]? = some (c, skips) →
      (b = b' ↔ c.moves = false)) := by
  have agree := Tracked.basesAgree_of_reachable reach inStep
  have sound := Tracked.sound_of_reachable reach
  constructor
  · intro n e e' b b' mem mem' base base'
    rw [agree.log mem base, agree.log mem' base']
    exact ⟨rfl, baseFor_half h t n⟩
  · intro m n e e' b b' c skips first lt mem mem' base base' info
    have := sound.recorded.bound mem'
    have le_two : t.infos.length ≤ t.first + 2 := sound.inv.slots.le_two
    obtain rfl : n = m + 1 := by omega
    rw [agree.log mem base, agree.log mem' base']
    have step : t.baseFor p (m + 1) =
        if c.moves then nextBase p (t.baseFor p m) true else t.baseFor p m :=
      Slots.valueAfter_take_succ info
    have half := h.two_half
    have pos := h.rows
    rw [step, nextBase_halves h (baseFor_half h t m)]
    rcases baseFor_half h t m with zero | upper
    · cases c.moves with
      | false => simp
      | true =>
        simp [zero]
        omega
    · cases c.moves with
      | false => simp
      | true =>
        simp [upper]
        omega

def twoProducts : Tracked :=
  (matmuls smallParams).run (smallStart 1 1 1)
    (.flow (some ⟨.loopWs, 0, 0⟩) :: .flow (some ⟨.loopWs, 0, 0⟩) :: List.replicate 10 (.flow none))

theorem two_products_bases : twoProducts.log.length = 10 ∧
    ∀ n e e' b b', (n, e) ∈ twoProducts.log → (n, e') ∈ twoProducts.log → e.base = some b →
      e'.base = some b' → b = b' ∧ (b = 0 ∨ b = smallParams.maxAccAddr / 2) := by
  have reach : (matmuls smallParams).Reachable twoProducts :=
    Machine.Reachable.run (M := matmuls smallParams)
      (.init (smallStart_init (by decide))) _ (by decide)
  refine ⟨by decide +kernel, ?_⟩
  exact (same_accumulator_base ⟨by decide, by decide, by decide⟩ reach (by decide +kernel)).1

def biasBehind : Tracked :=
  (matmuls smallParams).run (smallStart 1 1 1)
    (.flow (some ⟨.loopWs, 0, 32⟩) :: .flow (some ⟨.configAddrsDC, 512, 256⟩) ::
      .flow (some ⟨.loopWs, 0, 0⟩) :: List.replicate 8 (.flow none))

/-- The bias of the second product goes to the lower half, its sums to the upper one. -/
theorem bias_in_other_half : (machine smallParams).Reachable biasBehind ∧
    biasBehind.infos.length = 2 ∧
    ∃ a ∈ biasBehind.log, ∃ a' ∈ biasBehind.log, a.1 = 1 ∧ a'.1 = 1 ∧ a.2.base = some 0 ∧
      a'.2.base = some (smallParams.maxAccAddr / 2) ∧ smallParams.maxAccAddr / 2 ≠ 0 := by
  have reach : (matmuls smallParams).Reachable biasBehind :=
    Machine.Reachable.run (M := matmuls smallParams)
      (.init (smallStart_init (by decide))) _ (by decide)
  exact ⟨reach.of_restrict, by decide +kernel, by decide +kernel⟩

end Gemmini.LoopMatmul
