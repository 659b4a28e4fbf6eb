import Gemmini.LoopConv.Model

/-!
# What the units have handed out for each loop

A unit has not begun a loop and handed out nothing for it, or works on it and has handed out the first
of its commands, or is done with it and has handed out all.
-/

namespace Gemmini.LoopConv

open Walker (Total)

/-- The commands of unit `u` for loop `n`, in the order in which they went out. -/
def handedOf (log : List Entry) (u : Unroller) (n : ℕ) : List OutCmd :=
  log.filterMap fun
    | .cmd m v e => if m = n ∧ v = u then some e else none
    | .forward _ _ => none

theorem handedOf_append (log log' : List Entry) (u : Unroller) (n : ℕ) :
    handedOf (log ++ log') u n = handedOf log u n ++ handedOf log' u n :=
  List.filterMap_append

def Unroller.hasBase : Unroller → Bool
  | ldBias | ex | st => true
  | _ => false

/-! ### One cycle of the slots -/

section Cycle

variable {p : Params} {s : State} {inp : Input} {u : Unroller}

theorem State.mayFire_of_reqFire (fires : s.reqFire u = true) :
    s.slots.mayFire layout u = true := by
  simp only [State.reqFire, State.reqValid, Bool.and_eq_true, Bool.not_eq_true'] at fires
  obtain ⟨⟨⟨notStarted, configured⟩, _⟩, idle⟩ := fires
  have busy : s.slots.busy u = false := by simp [State.slots, idle]
  have notStarted : (s.slots.loops (s.slots.requesting u)).started u = false := notStarted
  have configured : (s.slots.loops (s.slots.requesting u)).configured = true := configured
  simp [Slots.State.mayFire, layout, busy, notStarted, configured]

theorem State.nextUnit_of_fire (fires : s.reqFire u = true) :
    s.nextUnit p inp u =
      (s.units u).next (u.spec p) (s.gate u) (s.outReady inp u) (some (s.req u)) := by
  rw [State.nextUnit, fires, if_pos rfl]

theorem State.nextUnit_of_waits (waits : s.reqFire u = false) :
    s.nextUnit p inp u = (s.units u).next (u.spec p) (s.gate u) (s.outReady inp u) none := by
  rw [State.nextUnit, waits, if_neg Bool.false_ne_true]

theorem State.req_nextUnit (waits : s.reqFire u = false) :
    (s.nextUnit p inp u).req = (s.units u).req := by
  rw [State.nextUnit_of_waits waits]
  rfl

theorem State.slots_next (stages : ∀ u, (s.units u).pipe ≠ []) :
    (s.next p inp).slots = s.slots.next layout (s.slotsInput p inp) := by
  have busy : ∀ u, (!(s.nextUnit p inp u).idle) =
      (s.reqFire u || (!(s.units u).idle && !(s.nextUnit p inp u).idle)) := by
    intro u
    cases fires : s.reqFire u with
    | true => rw [State.nextUnit_of_fire fires, Walker.Unit.idle_next_some]; rfl
    | false =>
      cases idle : (s.units u).idle with
      | true => simp [State.nextUnit_of_waits fires, Walker.Unit.idle_next idle (stages u)]
      | false => simp
  have loopId : ∀ u, (s.nextUnit p inp u).req.loopId =
      if s.reqFire u then s.slots.requesting u else (s.units u).req.loopId := by
    intro u
    cases fires : s.reqFire u with
    | true => rw [State.nextUnit_of_fire fires]; rfl
    | false => rw [State.nextUnit_of_waits fires]; rfl
  have busy := funext busy
  have loopId := funext loopId
  rw [Slots.State.next]
  exact congrArg₂ (Slots.State.mk (s.slots.nextSlot layout (s.slotsInput p inp))
    (if s.slots.frees then !s.head else s.head)) busy loopId

end Cycle

/-! ### The invariant -/

namespace Tracked

/-- The accumulator base of loop `n`. -/
def accBase (p : Params) (t : Tracked) (n : ℕ) : ℕ :=
  Slots.valueAfter Cfg.moves (fun b => nextBase p b true) 0 (t.infos.take n)

/-- The request that a unit is given for loop `n` with configuration `c`. -/
def reqOf (p : Params) (t : Tracked) (u : Unroller) (n : ℕ) (c : Cfg) : Req where
  cfg := c
  base := if u.hasBase then t.accBase p n else 0
  loopId := Slots.slotOf false n

structure Inv (p : Params) (t : Tracked) : Prop where
  slots : Slots.Inv layout t.slots
  stages : ∀ u, (t.regs.units u).pipe ≠ []
  noSkips : ∀ (n : ℕ) c skips k, t.infos[n]? = some (c, skips) → skips k = false
  loads : ∀ n u, u.isLoad = true → t.slots.Begun .ex n → t.slots.Begun u n
  execute : ∀ n, t.slots.Begun .st n → t.slots.Begun .ex n
  registers : ∀ u n, u.hasBase = true → t.slots.Frontier u n → t.regs.addrStart u = t.accBase p n
  requests : ∀ (u : Unroller) (n : ℕ) c skips, t.slots.WorksOn u n → t.infos[n]? = some (c, skips) →
    (t.regs.units u).req = t.reqOf p u n c
  fresh : ∀ u n, ¬t.slots.Begun u n → handedOf t.log u n = []
  working : ∀ u n, t.slots.WorksOn u n →
    (t.regs.units u).Owes (u.spec p) (handedOf t.log u n)
  settled : ∀ (u : Unroller) (n : ℕ) c skips, t.infos[n]? = some (c, skips) → t.slots.Begun u n →
    ¬t.slots.WorksOn u n → Total (u.spec p) (t.reqOf p u n c) (handedOf t.log u n)

variable {p : Params} {t : Tracked} {inp : Input}

theorem Inv.init (h : (machine p).init t) : t.Inv p := by
  obtain ⟨initial, first, infos, serving, log⟩ := h
  have idle : ∀ u, (t.regs.units u).idle = true := by
    intro u
    obtain ⟨pos, pipe⟩ := initial.idle u
    simp [Walker.Unit.idle, pos, pipe, Pipeline.busy]
  have notBegun : ∀ u n, ¬t.slots.Begun u n := by
    rintro u n (left | ⟨bound, _⟩)
    · simp [Tracked.slots, first] at left
    · simp [Tracked.slots, infos] at bound
  have notWorks : ∀ u n, ¬t.slots.WorksOn u n := by
    rintro u n ⟨busy, _⟩
    simp [Tracked.slots, State.slots, idle] at busy
  refine
    { slots := Slots.Inv.init initial.free (fun u => by simp [Tracked.slots, State.slots, idle])
        initial.head first infos serving
      stages := fun u => by simp [(initial.idle u).2]
      noSkips := fun n c skips k info => by simp [infos] at info
      loads := fun n u _ begun => absurd begun (notBegun _ _)
      execute := fun n begun => absurd begun (notBegun _ _)
      registers := ?_
      requests := fun u n c skips works => absurd works (notWorks u n)
      fresh := fun u n _ => by simp [log, handedOf]
      working := fun u n works => absurd works (notWorks u n)
      settled := fun u n c skips _ begun => absurd begun (notBegun u n) }
  intro u n base _
  have zero : t.accBase p n = 0 := by
    rw [accBase, infos, List.take_nil]
    rfl
  rw [zero]
  cases u with
  | ldBias => exact initial.ldBiasAddrStart
  | ex => exact initial.exCAddrStart
  | st => exact initial.stAddrStart
  | ldInput => cases base
  | ldWeights => cases base

/-! ### One cycle -/

theorem slots_next (inv : t.Inv p) :
    (t.next p inp).slots = t.slots.next layout (t.regs.slotsInput p inp) := by
  have step : (t.regs.next p inp).slots = _ := State.slots_next inv.stages
  simp only [Tracked.slots, Tracked.next, step]
  rfl

theorem Inv.legal {u : Unroller} (fires : (t.regs.slotsInput p inp).fire u = true) :
    t.slots.state.mayFire layout u = true :=
  State.mayFire_of_reqFire fires

theorem Inv.not_idle {u : Unroller} {n : ℕ} (works : t.slots.WorksOn u n) :
    (t.regs.units u).idle = false := by
  simpa [Tracked.slots, State.slots] using works.1

theorem Inv.loopConfigured (inv : t.Inv p) {u : Unroller} {n : ℕ} (works : t.slots.WorksOn u n) :
    t.regs.loopConfigured = true := by
  obtain ⟨first, bound, _⟩ := works.in_flight inv.slots
  have configured : (t.slots.slot n).configured = true :=
    (inv.slots.configured n first (bound.trans_le inv.slots.le_two)).trans (decide_eq_true bound)
  have configured : (t.regs.loops (Slots.slotOf false n)).configured = true := configured
  unfold State.loopConfigured
  cases h : Slots.slotOf false n <;> simp_all

theorem deqFire_of_not_worksOn {u : Unroller} {n : ℕ} (notWorks : ¬t.slots.WorksOn u n)
    (serving : t.serving u = some n) (ready : Bool) :
    Pipeline.deqFire (t.regs.units u).pipe ready = none := by
  refine Walker.Unit.deqFire_of_idle ?_ ready
  by_contra busy
  exact notWorks ⟨by simpa [Tracked.slots, State.slots] using busy, serving⟩

theorem Inv.handedOf_output (inv : t.Inv p) (u : Unroller) (n : ℕ) :
    handedOf (t.output inp) u n =
      if t.serving u = some n then
        (Pipeline.deqFire (t.regs.units u).pipe (t.regs.outReady inp u)).toList
      else [] := by
  cases configured : t.regs.loopConfigured with
  | false =>
    have none : handedOf (t.output inp) u n = [] := by
      cases h : t.regs.forwarded inp <;> simp [output, configured, handedOf, h]
    rw [none]
    split
    · rename_i serving
      rw [deqFire_of_not_worksOn (fun works => ?_) serving]
      · rfl
      · rw [inv.loopConfigured works] at configured
        cases configured
    · rfl
  | true =>
    -- only the unit's own entry counts
    have own : ∀ v, ((t.handed inp v).bind fun
        | .cmd m w e => if m = n ∧ w = u then some e else none
        | .forward _ _ => none) =
        if v = u ∧ t.serving v = some n then
          Pipeline.deqFire (t.regs.units v).pipe (t.regs.outReady inp v)
        else none := by
      intro v
      unfold handed
      cases Pipeline.deqFire (t.regs.units v).pipe (t.regs.outReady inp v) with
      | none => simp
      | some e =>
        cases serving : t.serving v with
        | none => simp
        | some m => simp [and_comm]
    simp only [output, configured, if_true, handedOf, List.filterMap_filterMap, own]
    by_cases serving : t.serving u = some n
    · cases hdeq : Pipeline.deqFire (t.regs.units u).pipe (t.regs.outReady inp u) <;>
        cases u <;> simp [serving, hdeq]
    · cases u <;> simp [serving]

theorem log_next (t : Tracked) : (t.next p inp).log = t.log ++ t.output inp := rfl

theorem Inv.req_eq (inv : t.Inv p) {u : Unroller} {n : ℕ} {c : Cfg} {skips : Unroller → Bool}
    (takes : Slots.Inv.TakesUp layout t.slots u n) (info : t.infos[n]? = some (c, skips)) :
    t.regs.req u = t.reqOf p u n c := by
  have slot : t.regs.slots.requesting u = Slots.slotOf false n := takes.slot
  have cfg : (t.regs.loops (Slots.slotOf false n)).cfg = c :=
    (inv.slots.info n c skips takes.first_le info).1
  have base : t.regs.addrStart u = if u.hasBase then t.accBase p n else 0 := by
    cases base : u.hasBase with
    | true => exact inv.registers u n base takes.frontier
    | false => cases u <;> first | rfl | cases base
  simp [State.req, reqOf, slot, cfg, base]

theorem accBase_next {n : ℕ} (bound : n ≤ t.infos.length) :
    (t.next p inp).accBase p n = t.accBase p n := by
  unfold accBase
  congr 1
  exact List.take_append_of_le_length bound

theorem reqOf_next {n : ℕ} (bound : n ≤ t.infos.length) (u : Unroller) (c : Cfg) :
    (t.next p inp).reqOf p u n c = t.reqOf p u n c := by
  rw [reqOf, reqOf, accBase_next bound]

theorem addrStart_of_waits {u : Unroller} (waits : t.regs.reqFire u = false) :
    (t.regs.next p inp).addrStart u = t.regs.addrStart u := by
  cases u <;> simp [State.addrStart, State.next, waits, nextBase]

theorem addrStart_of_fire {u : Unroller} (base : u.hasBase = true) (fires : t.regs.reqFire u = true) :
    (t.regs.next p inp).addrStart u =
      if (t.regs.req u).cfg.moves then nextBase p (t.regs.addrStart u) true
      else t.regs.addrStart u := by
  cases moves : (t.regs.req u).cfg.moves <;> cases u <;>
    simp only [Unroller.hasBase, Bool.false_eq_true] at base <;>
    simp [State.addrStart, State.next, fires, moves, nextBase]

namespace Inv

theorem next_slots (inv : t.Inv p) : Slots.Inv layout (t.next p inp).slots :=
  slots_next inv ▸ inv.slots.next fun _ => legal

theorem begun_next (inv : t.Inv p) {u : Unroller} {n : ℕ} (begun : t.slots.Begun u n) :
    (t.next p inp).slots.Begun u n :=
  slots_next inv ▸ begun.next inv.slots

theorem info_cases (inv : t.Inv p) {n : ℕ} {x : Cfg × (Unroller → Bool)}
    (info : (t.next p inp).infos[n]? = some x) :
    t.infos[n]? = some x ∨ (n = t.infos.length ∧ ∀ k, x.2 k = false) := by
  rcases Slots.Inv.next_infos_cases (L := layout) (t := t.slots) info with old | ⟨last, now⟩
  · exact .inl old
  · refine .inr ⟨last, ?_⟩
    obtain ⟨_, f, config, _⟩ := inv.slots.configuredNow_spec now
    change inp.config p = _ at config
    unfold Input.config at config
    split at config
    · split at config
      · rw [Option.some.injEq, Slots.Config.run.injEq] at config
        exact fun k => congrFun config.2.symm k
      · cases config
    · cases config

theorem next_noSkips (inv : t.Inv p) (n : ℕ) (c : Cfg) (skips : Unroller → Bool) (k : Unroller)
    (info : (t.next p inp).infos[n]? = some (c, skips)) : skips k = false := by
  rcases inv.info_cases info with old | ⟨_, none⟩
  · exact inv.noSkips n c skips k old
  · exact none k

theorem takesUp_of_begun (inv : t.Inv p) {u : Unroller} {n : ℕ} (notYet : ¬t.slots.Begun u n)
    (begun : (t.next p inp).slots.Begun u n) :
    t.regs.reqFire u = true ∧ Slots.Inv.TakesUp layout t.slots u n := by
  have bound := begun.lt_length inv.next_slots
  have info : (t.next p inp).infos[n]? = some _ := List.getElem?_eq_getElem bound
  rw [slots_next inv] at begun
  exact inv.slots.takesUp_of_begun (fun _ => legal) info (inv.next_noSkips n _ _ u info) rfl notYet
    begun

theorem begun_of_fire {u v : Unroller} {n : ℕ} (takes : Slots.Inv.TakesUp layout t.slots u n)
    (started : (t.regs.loops (t.regs.slots.requesting u)).started v = true) : t.slots.Begun v n := by
  have slot : t.regs.slots.requesting u = Slots.slotOf false n := takes.slot
  rw [slot] at started
  exact .inr ⟨takes.lt_length, started⟩

section

variable (inv : t.Inv p)
include inv

theorem next_loads (n : ℕ) (u : Unroller) (load : u.isLoad = true)
    (begun : (t.next p inp).slots.Begun .ex n) : (t.next p inp).slots.Begun u n := by
  refine inv.begun_next ?_
  by_cases before : t.slots.Begun .ex n
  · exact inv.loads n u load before
  · obtain ⟨fires, takes⟩ := inv.takesUp_of_begun before begun
    simp only [State.reqFire, State.reqValid, Bool.and_eq_true] at fires
    obtain ⟨⟨_, ⟨bias, input⟩, weights⟩, _⟩ := fires
    cases u with
    | ldBias => exact begun_of_fire takes bias
    | ldInput => exact begun_of_fire takes input
    | ldWeights => exact begun_of_fire takes weights
    | ex => cases load
    | st => cases load

theorem next_execute (n : ℕ) (begun : (t.next p inp).slots.Begun .st n) :
    (t.next p inp).slots.Begun .ex n := by
  refine inv.begun_next ?_
  by_cases before : t.slots.Begun .st n
  · exact inv.execute n before
  · obtain ⟨fires, takes⟩ := inv.takesUp_of_begun before begun
    simp only [State.reqFire, State.reqValid, Bool.and_eq_true] at fires
    exact begun_of_fire takes fires.1.2

theorem next_registers (u : Unroller) (n : ℕ) (base : u.hasBase = true)
    (frontier : (t.next p inp).slots.Frontier u n) :
    (t.next p inp).regs.addrStart u = (t.next p inp).accBase p n := by
  rw [slots_next inv] at frontier
  refine inv.slots.next_value (fun _ => legal) (fun n => inv.registers u n base) ?_ ?_ ?_ ?_ frontier
  · rintro v n c skips rfl fires takes info
    have cfg : (t.regs.req v).cfg = c := by
      rw [inv.req_eq takes info]
      rfl
    exact (addrStart_of_fire base fires).trans (by rw [show layout.stage v = v from rfl, cfg])
  · exact fun rests => addrStart_of_waits (rests u rfl)
  · intro n c skips info skipped
    rw [inv.next_noSkips n c skips u info] at skipped
    cases skipped
  · exact fun _ => ⟨u, rfl, rfl⟩

theorem worksOn_cases {u : Unroller} {n : ℕ} (works : (t.next p inp).slots.WorksOn u n) :
    (t.regs.reqFire u = true ∧ Slots.Inv.TakesUp layout t.slots u n) ∨
      (t.regs.reqFire u = false ∧ t.slots.WorksOn u n) := by
  rw [slots_next inv] at works
  exact (works.next_cases inv.slots fun _ => legal).imp_right fun h => ⟨h.1, h.2.2⟩

theorem next_requests (u : Unroller) (n : ℕ) (c : Cfg) (skips : Unroller → Bool)
    (works : (t.next p inp).slots.WorksOn u n) (info : (t.next p inp).infos[n]? = some (c, skips)) :
    ((t.next p inp).regs.units u).req = (t.next p inp).reqOf p u n c := by
  rcases inv.worksOn_cases works with ⟨fires, takes⟩ | ⟨waits, works⟩
  · have old := (inv.info_cases info).resolve_right fun new => takes.lt_length.ne new.1
    rw [reqOf_next takes.lt_length.le, ← inv.req_eq takes old]
    exact congrArg Walker.Unit.req (State.nextUnit_of_fire fires)
  · have bound := (works.in_flight inv.slots).2.1
    have old := (inv.info_cases info).resolve_right fun new => bound.ne new.1
    rw [reqOf_next bound.le, ← inv.requests u n c skips works old]
    exact State.req_nextUnit waits

theorem handedOf_next {u : Unroller} {n : ℕ} (notWorks : ¬t.slots.WorksOn u n) :
    handedOf (t.next p inp).log u n = handedOf t.log u n := by
  rw [log_next, handedOf_append, inv.handedOf_output]
  split
  · rename_i serving
    rw [deqFire_of_not_worksOn notWorks serving]
    simp
  · simp

theorem owes_next {u : Unroller} {n : ℕ} (works : t.slots.WorksOn u n) (waits : t.regs.reqFire u = false) :
    (t.regs.nextUnit p inp u).Owes (u.spec p) (handedOf (t.next p inp).log u n) := by
  have serving : t.serving u = some n := works.2
  rw [log_next, handedOf_append, inv.handedOf_output, if_pos serving,
    State.nextUnit_of_waits waits]
  exact (inv.working u n works).next (inv.stages u) _ _

end

theorem not_fires (works : t.slots.WorksOn u n) : t.regs.reqFire u = false := by
  rw [State.reqFire, not_idle works, Bool.and_false]

section

variable (inv : t.Inv p) (u : Unroller) (n : ℕ)
include inv u n

theorem next_fresh (notBegun : ¬(t.next p inp).slots.Begun u n) : handedOf (t.next p inp).log u n = [] := by
  have before : ¬t.slots.Begun u n := fun begun => notBegun (inv.begun_next begun)
  rw [inv.handedOf_next fun works => before (works.begun inv.slots)]
  exact inv.fresh u n before

theorem next_working (works : (t.next p inp).slots.WorksOn u n) :
    ((t.next p inp).regs.units u).Owes (u.spec p) (handedOf (t.next p inp).log u n) := by
  rcases inv.worksOn_cases works with ⟨fires, takes⟩ | ⟨waits, works⟩
  · have before : ¬t.slots.Begun u n := takes.not_begun
    rw [inv.handedOf_next fun works => before (works.begun inv.slots), inv.fresh u n before]
    have idle : (t.regs.units u).idle = true := by
      simpa [Tracked.slots, State.slots] using takes.idle
    change (t.regs.nextUnit p inp u).Owes _ _
    rw [State.nextUnit_of_fire fires]
    exact Walker.Unit.owes_start idle (inv.stages u) _ _ _
  · exact inv.owes_next works waits

theorem next_settled (c : Cfg) (skips : Unroller → Bool) (info : (t.next p inp).infos[n]? = some (c, skips))
    (begun : (t.next p inp).slots.Begun u n) (notWorks : ¬(t.next p inp).slots.WorksOn u n) :
    Total (u.spec p) ((t.next p inp).reqOf p u n c) (handedOf (t.next p inp).log u n) := by
  by_cases before : t.slots.Begun u n
  · have bound := before.lt_length inv.slots
    have old := (inv.info_cases info).resolve_right fun new => bound.ne new.1
    rw [reqOf_next bound.le]
    by_cases works : t.slots.WorksOn u n
    · -- the unit has just become idle
      have waits := not_fires works
      have idle : (t.regs.nextUnit p inp u).idle = true := by
        by_contra busy
        refine notWorks ⟨by simpa [Tracked.slots, State.slots, Tracked.next, State.next] using busy, ?_⟩
        rw [slots_next inv]
        exact (if_neg (by simp [State.slotsInput, waits])).trans works.2
      have total := (inv.owes_next works waits).total_of_idle idle
      rwa [State.req_nextUnit waits, inv.requests u n c skips works old] at total
    · rw [inv.handedOf_next works]
      exact inv.settled u n c skips old before works
  · obtain ⟨fires, takes⟩ := inv.takesUp_of_begun before begun
    have works : (t.slots.next layout (t.regs.slotsInput p inp)).WorksOn u n := takes.worksOn fires
    rw [← slots_next inv] at works
    exact absurd works notWorks

end

theorem next (inv : t.Inv p) : (t.next p inp).Inv p where
  slots := inv.next_slots
  stages u := by
    have same : ((t.next p inp).regs.units u).pipe.length = (t.regs.units u).pipe.length :=
      Pipeline.length_next _ _ _
    rw [← List.length_pos_iff, same, List.length_pos_iff]
    exact inv.stages u
  noSkips := inv.next_noSkips
  loads := inv.next_loads
  execute := inv.next_execute
  registers := inv.next_registers
  requests := inv.next_requests
  fresh := inv.next_fresh
  working := inv.next_working
  settled := inv.next_settled

end Inv

theorem inv_of_reachable (reach : (machine p).Reachable t) : t.Inv p :=
  reach.invariant (fun _ => Inv.init) fun _ _ _ inv _ => inv.next

end Tracked

end Gemmini.LoopConv
