import Gemmini.LoopMatmul.Bases

/-!
# A loop depends on its own configuration

The registers of a slot outlive the loop in it.  A loop that gives all its configuration anew, and its
scratchpad addresses unless no loop has given any, ends up with registers, and so with requests, that
its own commands and its slot determine.
-/

namespace Gemmini.LoopMatmul

open Slots (slotOf)

/-! ### Configurations that commands determine -/

/-- The registers that the commands in `F` set agree. -/
structure Cfg.Same (F : Funct → Prop) (c d : Cfg) : Prop where
  bounds : F .configBounds → c.maxK = d.maxK ∧ c.maxJ = d.maxJ ∧ c.maxI = d.maxI ∧
    c.padK = d.padK ∧ c.padJ = d.padJ ∧ c.padI = d.padI
  addrsAB : F .configAddrsAB → c.aDramAddr = d.aDramAddr ∧ c.bDramAddr = d.bDramAddr
  addrsDC : F .configAddrsDC → c.dDramAddr = d.dDramAddr ∧ c.cDramAddr = d.cDramAddr
  stridesAB : F .configStridesAB → c.aDramStride = d.aDramStride ∧ c.bDramStride = d.bDramStride
  stridesDC : F .configStridesDC → c.dDramStride = d.dDramStride ∧ c.cDramStride = d.cDramStride
  spadAB : F .configSpadAB → c.aAddrStart = d.aAddrStart ∧ c.bAddrEnd = d.bAddrEnd
  loopWs : F .loopWs → c.exAccumulate = d.exAccumulate ∧ c.fullC = d.fullC ∧ c.lowD = d.lowD ∧
    c.act = d.act ∧ c.aExSpadId = d.aExSpadId ∧ c.bExSpadId = d.bExSpadId ∧
    c.aTranspose = d.aTranspose ∧ c.bTranspose = d.bTranspose ∧ c.incAccAddr = d.incAccAddr ∧
    c.cSpadAddr = d.cSpadAddr
  spadOnly : F .loopWs → c.spadOnly = d.spadOnly
  resadd : c.resaddAddrStart = d.resaddAddrStart

section Same

variable {p : Params} {F : Funct → Prop} {c d : Cfg}

theorem Cmd.edit_same (x : Cmd) (h : c.Same F d) :
    (x.edit p c).Same (fun f => f = x.funct ∨ F f) (x.edit p d) := by
  obtain ⟨funct, rs1, rs2⟩ := x
  obtain ⟨h1, h2, h3, h4, h5, h6, h7, h8, h9⟩ := h
  cases funct <;> constructor <;> simp [Cmd.edit] <;> assumption

def Cfg.after (p : Params) (cmds : List Cmd) (c : Cfg) : Cfg :=
  cmds.foldl (fun c x => x.edit p c) c

theorem Cfg.after_same (cmds : List Cmd) (h : c.Same F d) :
    (c.after p cmds).Same (fun f => f ∈ cmds.map Cmd.funct ∨ F f) (d.after p cmds) := by
  induction cmds generalizing c d F with
  | nil => simpa [Cfg.after] using h
  | cons x cmds ih =>
    have := ih (x.edit_same (p := p) h)
    simpa [Cfg.after, or_assoc, or_left_comm] using this

theorem Cfg.Same.of_forall (h : c.Same F d) (all : ∀ f, f ≠ .configSpadC → F f) :
    c.Same (fun _ => True) d :=
  ⟨fun _ => h.bounds (all _ (by decide)), fun _ => h.addrsAB (all _ (by decide)),
    fun _ => h.addrsDC (all _ (by decide)), fun _ => h.stridesAB (all _ (by decide)),
    fun _ => h.stridesDC (all _ (by decide)), fun _ => h.spadAB (all _ (by decide)),
    fun _ => h.loopWs (all _ (by decide)), fun _ => h.spadOnly (all _ (by decide)), h.resadd⟩

theorem Cfg.eq_of_same (h : c.Same (fun _ => True) d) : c = d := by
  obtain ⟨h1, h2, h3, h4, h5, h6, h7, h8, h9⟩ := h
  cases c
  cases d
  simp_all

end Same

/-! ### What a loop starts from -/

def GivesSpad (cmds : List Cmd) : Prop := .configSpadAB ∈ cmds.map Cmd.funct

instance (cmds : List Cmd) : Decidable (GivesSpad cmds) := inferInstanceAs (Decidable (_ ∈ _))

/-- The addresses of slot `i` are those out of reset, as far as they have not been given. -/
structure Cfg.Reset (p : Params) (earlier : List Cmd) (i : Bool) (c : Cfg) : Prop where
  resadd : c.resaddAddrStart = i.toNat * (p.maxAccAddr / 2)
  spad : ¬GivesSpad earlier → c.aAddrStart = i.toNat * (p.maxAddr / 2) ∧
    c.bAddrEnd = (i.toNat + 1) * (p.maxAddr / 2)

section Reset

variable {p : Params} {earlier later : List Cmd} {i : Bool} {c : Cfg}

theorem Cfg.Reset.append (h : c.Reset p earlier i) : c.Reset p (earlier ++ later) i :=
  ⟨h.resadd, fun none => h.spad fun gives => none (by simp_all [GivesSpad])⟩

theorem Cfg.Reset.edit (h : c.Reset p earlier i) (x : Cmd) :
    (x.edit p c).Reset p (earlier ++ [x]) i := by
  obtain ⟨resadd, spad⟩ : c.Reset p (earlier ++ [x]) i := h.append
  obtain ⟨funct, rs1, rs2⟩ := x
  refine ⟨by cases funct <;> exact resadd, fun none => ?_⟩
  cases funct <;> first | exact spad none | exact absurd (by simp [GivesSpad]) none

end Reset

/-- The configuration that a loop in slot `i` gets from its own commands. -/
def ownCfg (p : Params) (i : Bool) (cmds : List Cmd) : Cfg :=
  Cfg.after p cmds
    { maxK := 0, maxJ := 0, maxI := 0, padK := 0, padJ := 0, padI := 0, aDramAddr := 0,
      bDramAddr := 0, dDramAddr := 0, cDramAddr := 0, aDramStride := 0, bDramStride := 0,
      dDramStride := 0, cDramStride := 0, cSpadAddr := 0, incAccAddr := false, spadOnly := false,
      aTranspose := false, bTranspose := false, act := 0, lowD := false, fullC := false,
      exAccumulate := false, aExSpadId := 0, bExSpadId := 0
      aAddrStart := i.toNat * (p.maxAddr / 2)
      bAddrEnd := (i.toNat + 1) * (p.maxAddr / 2)
      resaddAddrStart := i.toNat * (p.maxAccAddr / 2) }

/-- All the commands that configure a loop, apart from the scratchpad addresses. -/
def Complete (cmds : List Cmd) : Prop :=
  ∀ f : Funct, f ≠ .configSpadAB → f ≠ .configSpadC → f ∈ cmds.map Cmd.funct

/-- Complete commands determine the configuration in a slot whose addresses are those out of reset, or
that they give themselves. -/
theorem after_eq_ownCfg {p : Params} {earlier : List Cmd} {i : Bool} {c : Cfg}
    {cmds : List Cmd} (h : c.Reset p earlier i) (complete : Complete cmds)
    (spad : GivesSpad cmds ∨ ¬GivesSpad earlier) :
    c.after p cmds = ownCfg p i cmds := by
  refine Cfg.eq_of_same (Cfg.Same.of_forall (Cfg.after_same (F := fun f => f = .configSpadAB ∧
    ¬GivesSpad cmds) cmds ?_) ?_)
  · constructor
    case spadAB => exact fun notGiven => h.spad (spad.resolve_left notGiven.2)
    case resadd => exact h.resadd
    all_goals simp
  · intro f other
    by_cases addresses : f = .configSpadAB
    · subst addresses
      exact (em (GivesSpad cmds)).imp_right fun notGiven => ⟨rfl, notGiven⟩
    · exact .inl (complete f addresses other)

/-! ### Which commands a loop gets -/

namespace Tracked

variable {p : Params} {t : Tracked} {inp : Input}

structure Configured (p : Params) (t : Tracked) : Prop where
  length : t.givens.length = t.infos.length
  slots : ∀ i, ((t.regs.slots.loops i).cfg).Reset p (t.givens.flatten ++ t.pending) i
  being : ∃ c : Cfg, c.Reset p t.givens.flatten (slotOf t.start t.infos.length) ∧
    (t.slots.slot t.infos.length).cfg = c.after p t.pending
  full : t.infos.length = t.first + 2 → t.pending = []
  loops : ∀ {n c skips cmds}, t.infos[n]? = some (c, skips) → t.givens[n]? = some cmds →
    ∃ d : Cfg, d.Reset p (t.givens.take n).flatten (slotOf t.start n) ∧ c = d.after p cmds

theorem Configured.init (h : (matmuls p).init t) : t.Configured p := by
  obtain ⟨initial, start, first, infos, serving, givens, pending, log⟩ := h
  have reset : ∀ i earlier, ((t.regs.slots.loops i).cfg).Reset p earlier i := fun i _ =>
    ⟨initial.resaddAddrStart i, fun _ => ⟨initial.aAddrStart i, initial.bAddrEnd i⟩⟩
  refine ⟨by simp [givens, infos], fun i => reset i _, ⟨_, reset _ _, ?_⟩, fun _ => pending,
    fun info => by simp [infos] at info⟩
  rw [pending]
  rfl

theorem next_cfg (i : Bool) : ((t.next p inp).regs.slots.loops i).cfg =
    let c := (t.regs.slots.loops i).cfg
    let c := if i = t.regs.slots.being then (t.regs.takenCmd inp).elim c (·.edit p c) else c
    if i = t.regs.slots.head ∧ t.regs.slots.frees = true then layout.clear c else c := by
  change (t.regs.slots.nextSlot layout (t.regs.slotsInput p inp) i).cfg = _
  have configure : ((if i = t.regs.slots.being then (t.regs.slots.loops i).configure
      (t.regs.slots.taken (t.regs.slotsInput p inp)) else t.regs.slots.loops i)).cfg =
      if i = t.regs.slots.being then (t.regs.takenCmd inp).elim (t.regs.slots.loops i).cfg
        (·.edit p (t.regs.slots.loops i).cfg) else (t.regs.slots.loops i).cfg := by
    split
    · unfold Slots.State.taken State.takenCmd
      split
      · rfl
      · simp only [State.slotsInput, Input.config]
        cases inp.cmd with
        | none => rfl
        | some x =>
          simp only [Option.map_some, Cmd.config, Option.elim_some]
          split <;> rfl
    · rfl
  unfold Slots.State.nextSlot
  dsimp only
  by_cases freed : i = t.regs.slots.head ∧ t.regs.slots.frees = true
  · rw [if_pos freed, if_pos freed, ← configure]
  · rw [if_neg freed, if_neg freed, ← configure]

theorem configuredNow_eq : t.slots.configuredNow (t.regs.slotsInput p inp) =
    (t.regs.takenRun inp).map fun x =>
      (x.edit p (t.regs.slots.loops t.regs.slots.being).cfg, x.skips) := by
  have state : t.slots.state = t.regs.slots := rfl
  simp only [Slots.Tracked.configuredNow, Slots.State.taken, State.takenRun, State.takenCmd, state,
    State.slotsInput, Input.config]
  by_cases configured : (t.regs.slots.loops t.regs.slots.being).configured = true
  · simp [configured]
  · simp only [configured, Bool.false_eq_true, if_false]
    cases inp.cmd with
    | none => rfl
    | some x =>
      by_cases run : x.funct = .loopWs
      · simp [Cmd.config, run]
      · simp [Cmd.config, run]

theorem infos_next : (t.next p inp).infos = t.infos ++ ((t.regs.takenRun inp).map fun x =>
    (x.edit p (t.regs.slots.loops t.regs.slots.being).cfg, x.skips)).toList := by
  rw [← configuredNow_eq]
  rfl

theorem givens_next : (t.next p inp).givens =
    t.givens ++ (t.regs.takenRun inp).toList.map fun x => t.pending ++ [x] := rfl

theorem pending_next : (t.next p inp).pending = if (t.regs.takenRun inp).isSome then []
    else t.pending ++ (t.regs.takenCmd inp).toList := rfl

theorem Inv.room_of_taken (inv : t.Inv p) {x : Cmd} (taken : t.regs.takenCmd inp = some x) :
    t.infos.length < t.first + 2 := by
  by_contra full
  have le_two : t.infos.length ≤ t.first + 2 := inv.slots.le_two
  have none : t.regs.slots.taken (t.regs.slotsInput p inp) = none :=
    inv.slots.taken_of_full (show t.infos.length = t.first + 2 by omega)
  simp only [State.takenCmd, Option.ite_none_left_eq_some] at taken
  simp [Slots.State.taken, State.slotsInput, Input.config, taken.1, taken.2] at none

theorem Inv.taken_none (inv : t.Inv p) (full : t.first + 2 ≤ t.infos.length) :
    t.regs.takenCmd inp = none := by
  rw [Option.eq_none_iff_forall_not_mem]
  intro x taken
  exact absurd (inv.room_of_taken taken) (by omega)

theorem infos_of_no_run (run : t.regs.takenRun inp = none) : (t.next p inp).infos = t.infos := by
  rw [infos_next, run]
  simp

theorem commands_next : (t.next p inp).givens.flatten ++ (t.next p inp).pending =
    t.givens.flatten ++ t.pending ++ (t.regs.takenCmd inp).toList := by
  rw [givens_next, pending_next]
  unfold State.takenRun
  cases t.regs.takenCmd inp with
  | none => simp
  | some x => by_cases run : x.funct = .loopWs <;> simp [Option.filter, run]

theorem Configured.next_slots (h : t.Configured p) (i : Bool) :
    (((t.next p inp).regs.slots.loops i).cfg).Reset p
      ((t.next p inp).givens.flatten ++ (t.next p inp).pending) i := by
  have edited : (if i = t.regs.slots.being then (t.regs.takenCmd inp).elim
      (t.regs.slots.loops i).cfg (·.edit p (t.regs.slots.loops i).cfg)
      else (t.regs.slots.loops i).cfg).Reset p
      ((t.next p inp).givens.flatten ++ (t.next p inp).pending) i := by
    rw [commands_next]
    split
    · cases t.regs.takenCmd inp with
      | none => exact (h.slots i).append
      | some x => exact (h.slots i).edit x
    · exact (h.slots i).append
  rw [next_cfg]
  dsimp only
  split
  · exact ⟨edited.resadd, edited.spad⟩
  · exact edited

section

variable (h : t.Configured p) (inv : t.Inv p)
include h inv

theorem Configured.next_being :
    ∃ c : Cfg, c.Reset p (t.next p inp).givens.flatten
        (slotOf (t.next p inp).start (t.next p inp).infos.length) ∧
      ((t.next p inp).slots.slot (t.next p inp).infos.length).cfg =
        c.after p (t.next p inp).pending := by
  by_cases fresh : (t.next p inp).pending = []
  · -- a slot for which nothing has been given yet
    refine ⟨_, ?_, by rw [fresh]; rfl⟩
    rw [← List.append_nil (t.next p inp).givens.flatten, ← fresh]
    exact h.next_slots _
  cases run : t.regs.takenRun inp with
  | some x =>
    refine absurd ?_ fresh
    rw [pending_next, run]
    rfl
  | none =>
    have infos : (t.next p inp).infos = t.infos := infos_of_no_run run
    have givens : (t.next p inp).givens = t.givens := by
      rw [givens_next, run]
      simp
    have pending : (t.next p inp).pending = t.pending ++ (t.regs.takenCmd inp).toList := by
      rw [pending_next, run]
      rfl
    have le_two : t.infos.length ≤ t.first + 2 := inv.slots.le_two
    by_cases before : t.infos.length < t.first + 2
    · obtain ⟨c, reset, hc⟩ := h.being
      rw [infos, givens, pending]
      refine ⟨c, reset, ?_⟩
      have being : t.regs.slots.being = slotOf t.start t.infos.length :=
        inv.slots.being_eq before
      have stays : ¬(slotOf t.start t.infos.length = t.regs.slots.head ∧
          t.regs.slots.frees = true) := by
        rintro ⟨same, frees⟩
        have head : t.regs.slots.head = slotOf t.start t.first := inv.slots.head
        have parity := Slots.mod_two_of_slotOf_eq (same.trans head)
        have bound : t.first < t.infos.length := (inv.slots.frees_spec frees).1
        omega
      change ((t.next p inp).regs.slots.loops (slotOf t.start t.infos.length)).cfg = _
      change (t.regs.slots.loops (slotOf t.start t.infos.length)).cfg = _ at hc
      rw [next_cfg]
      dsimp only
      rw [if_neg stays, if_pos being.symm, hc]
      cases t.regs.takenCmd inp with
      | none => simp
      | some x => simp [Cfg.after]
    · refine absurd ?_ fresh
      rw [pending, inv.taken_none (by omega), h.full (by omega)]
      rfl

theorem Configured.next_full (full : (t.next p inp).infos.length = (t.next p inp).first + 2) :
    (t.next p inp).pending = [] := by
  cases run : t.regs.takenRun inp with
  | some x =>
    rw [pending_next, run]
    rfl
  | none =>
    rw [infos_of_no_run run] at full
    have first : t.first ≤ (t.next p inp).first := by
      change t.first ≤ if t.regs.slots.frees then t.first + 1 else t.first
      split <;> omega
    have le_two : t.infos.length ≤ t.first + 2 := inv.slots.le_two
    rw [pending_next, run, inv.taken_none (by omega), h.full (by omega)]
    rfl

theorem Configured.next_loops {n : ℕ} {c : Cfg} {skips : Stage → Bool} {cmds : List Cmd}
    (info : (t.next p inp).infos[n]? = some (c, skips)) (given : (t.next p inp).givens[n]? = some cmds) :
    ∃ d : Cfg, d.Reset p ((t.next p inp).givens.take n).flatten (slotOf t.start n) ∧
      c = d.after p cmds := by
  rcases Nat.lt_or_ge n t.infos.length with old | new
  · have bound : n < t.givens.length := h.length ▸ old
    rw [givens_next, List.getElem?_append_left bound] at given
    rw [givens_next, List.take_append_of_le_length bound.le]
    exact h.loops (Inv.info_of_next old info) given
  · rw [infos_next] at info
    rw [givens_next] at given ⊢
    cases run : t.regs.takenRun inp with
    | none =>
      rw [run] at info
      rw [List.getElem?_append_right new] at info
      simp at info
    | some x =>
      rw [run, List.getElem?_append_right new] at info
      have last : n = t.infos.length := by
        have := (List.getElem?_eq_some_iff.mp info).1
        simp at this
        omega
      rw [run, List.getElem?_append_right (h.length ▸ new), last, h.length] at given
      rw [last] at info ⊢
      simp only [Option.map_some, Option.toList_some, Nat.sub_self, List.getElem?_cons_zero,
        Option.some.injEq, Prod.mk.injEq, List.map_cons] at info given
      obtain ⟨rfl, _⟩ := info
      subst given
      have taken : t.regs.takenCmd inp = some x := (Option.filter_eq_some_iff.mp run).1
      have room := inv.room_of_taken taken
      obtain ⟨d, reset, hd⟩ := h.being
      refine ⟨d, ?_, ?_⟩
      · rw [List.take_append_of_le_length (by rw [h.length]), List.take_of_length_le (by rw [h.length])]
        exact reset
      · have being : t.regs.slots.being = slotOf t.start t.infos.length :=
          inv.slots.being_eq room
        change (t.regs.slots.loops (slotOf t.start t.infos.length)).cfg = _ at hd
        rw [being, hd]
        simp [Cfg.after]

theorem Configured.next : (t.next p inp).Configured p where
  length := by
    rw [givens_next, infos_next]
    cases t.regs.takenRun inp <;> simp [h.length]
  slots := h.next_slots
  being := h.next_being inv
  full := h.next_full inv
  loops := h.next_loops inv

end

theorem configured_of_reachable (reach : (matmuls p).Reachable t) : t.Configured p :=
  reach.invariant (fun _ h => .init h) fun _ _ reach h _ => h.next (sound_of_reachable reach).inv

end Tracked

/-! ### Commands and gates of a loop -/

def Event.unroller : Event → Unroller
  | ldA .. => .ldA
  | ldB .. => .ldB
  | ldD .. => .ldD
  | preload .. | compute .. => .ex
  | stC .. | normConfig .. | normStC .. => .stC
  | stCSpad .. => .stCSpad

/-- The first command that a unit has for a loop with configuration `c` at an accumulator base. -/
def Cfg.firstEvent (p : Params) (c : Cfg) (base : ℕ) : Unroller → Event
  | .ldA => .ldA (c.ldAReq p false) 0 0
  | .ldB => .ldB (c.ldBReq p false) 0 0
  | .ldD => .ldD (c.ldDReq p base) 0 0
  | .ex => .preload (c.exReq p false base) ⟨0, 0, 0⟩
  | .stC =>
    let req := c.stCReq p false base
    if req.normalizes then .normConfig req ⟨0, 0, 0, 0, 0⟩ else .stC req ⟨0, 0, 0, 0, 0⟩
  | .stCSpad => .stCSpad (c.stCSpadReq p false base) 0 0

/-- The command that the same unit has after this one, if it is not the last of the loop. -/
def Event.next (p : Params) : Event → Option Event
  | ldA req i k =>
    let q := req.counters p i k
    let q' := q.next 16 req.maxI req.maxK
    if q.wraps 16 req.maxI req.maxK then none else some (.ldA req q'.x q'.y)
  | ldB req k j =>
    let q := req.counters p k j
    let q' := q.next 16 req.maxJ req.maxK
    if q.wraps 16 req.maxJ req.maxK then none else some (.ldB req q'.y q'.x)
  | ldD req i j =>
    let q := req.counters p i j
    let q' := q.next 16 req.maxI req.maxJ
    if q.wraps 16 req.maxI req.maxJ then none else some (.ldD req q'.x q'.y)
  | preload req b => some (.compute req b)
  | compute req b => if req.wraps b then none else some (.preload req (req.next b))
  | stC req c =>
    if (req.counters p c).wraps 16 req.maxI req.maxJ then none else some (.stC req (req.stNext p c))
  | normConfig req c => some (.normStC req c)
  | normStC req c =>
    let c' := req.lnNext p c
    if c' == ⟨0, 0, 0, 0, 0⟩ then none
    else some (if c'.j = 0 then .normConfig req c' else .normStC req c')
  | stCSpad req i j =>
    let q := req.counters i j
    let q' := q.next 16 req.maxI req.maxJ
    if q.wraps 16 req.maxI req.maxJ then none else some (.stCSpad req q'.x q'.y)

/-- The commands of a unit from `e` on, by their number. -/
def Event.stream (p : Params) (e : Event) (k : ℕ) : Option Event := (·.bind (next p))^[k] (some e)

section Stream

variable {p : Params} {s : State} {inp : Input} {u : Unroller}

@[simp]
theorem State.unroller_event (s : State) (u : Unroller) : (s.event u).unroller = u := by
  cases u <;> simp only [State.event] <;> (try split) <;> rfl

theorem State.event_of_fire {c : Cfg} {base : ℕ} (fires : s.reqFire u = true)
    (holds : (s.next p inp).Holds p c u) (held : ∀ b, (s.next p inp).held u = some b → b = base) :
    (s.next p inp).event u = c.firstEvent p base u := by
  cases u <;> simp only [State.Holds] at holds <;> simp only [State.held] at held <;>
    (try rw [held _ rfl] at holds) <;> simp only [State.event, Cfg.firstEvent, ← holds] <;>
    simp [State.next, Walker.next, State.given, fires]
  case stC => split_ifs <;> rfl

theorem State.event_of_waits (waits : s.reqFire u = false) (rests : s.hands p inp u = false) :
    (s.next p inp).event u = s.event u := by
  cases u <;> simp [State.event, State.next, Walker.next, State.given, waits, rests]

theorem State.event_next (waits : s.reqFire u = false) (hands : s.hands p inp u = true)
    (goes : s.done p inp u = false) : (s.event u).next p = some ((s.next p inp).event u) := by
  cases u <;> simp only [State.done, hands, Bool.true_and, Bool.or_eq_false_iff] at goes
  case ex =>
    cases comp : s.exComp <;> simp_all [State.event, Event.next, State.next]
  case stC =>
    cases phase : s.stCPhase <;> simp_all [State.event, Event.next, State.next, State.stCNext]
    split <;> rfl
  all_goals
    simp [State.event, Event.next, State.next, Walker.next, State.given, waits, hands, goes]

end Stream

/-- How far the units have come: the counters of the loads `(i, k)` and `(j, k)`, whether LdD is at
work, and the block of the execute unit. -/
structure Progress where
  ldA : Option (ℕ × ℕ)
  ldB : Option (ℕ × ℕ)
  ldD : Bool
  ex : Option Block

namespace Progress

variable (q : Progress) (b : Block)

/-- `ld_ahead`, from the progress of the loop. -/
def ldAhead : Bool :=
  (q.ldA.all fun x => x.2 > b.k || (x.2 == b.k && x.1 > b.i)) &&
    (q.ldB.all fun x => x.2 > b.k || (q.ldA.any (·.2 == b.k) && x.1 > b.j)) && !q.ldD

def seen : Seen := q.ex.elim ⟨true, ⟨0, 0, 0⟩⟩ fun b => ⟨false, b⟩

end Progress

namespace Tracked

variable {p : Params} {t : Tracked} {n : ℕ}

instance (t : Slots.Tracked Cfg Stage Unroller) (u : Unroller) (n : ℕ) : Decidable (t.WorksOn u n) :=
  inferInstanceAs (Decidable (_ ∧ _))

/-- The progress of loop `n`. -/
def progress (t : Tracked) (n : ℕ) : Progress where
  ldA := if t.slots.WorksOn .ldA n then some (t.regs.ldA.inner, t.regs.ldA.outer) else none
  ldB := if t.slots.WorksOn .ldB n then some (t.regs.ldB.inner, t.regs.ldB.outer) else none
  ldD := t.slots.WorksOn .ldD n
  ex := if t.slots.WorksOn .ex n then some t.regs.exBlock else none

theorem Inv.away_eq (inv : t.Inv p) {u v : Unroller} (works : t.slots.WorksOn v n) :
    t.regs.away u v = !decide (t.slots.WorksOn u n) := by
  rw [Bool.eq_iff_iff, inv.away_iff works]
  simp

theorem Inv.ldAhead_eq (inv : t.Inv p) (works : t.slots.WorksOn .ex n)
    (together : t.slots.WorksOn .ldB n → t.slots.WorksOn .ldA n) :
    t.regs.ldAhead = (t.progress n).ldAhead t.regs.exBlock := by
  simp only [State.ldAhead, Progress.ldAhead, progress, inv.away_eq works]
  by_cases a : t.slots.WorksOn .ldA n <;> by_cases b : t.slots.WorksOn .ldB n <;>
    simp_all

theorem exAhead_seen (seen seen' : Seen) {act maxK i j blocks : ℕ}
    (completed : seen.completed = seen'.completed)
    (block : seen.completed = false → seen.block = seen'.block) :
    exAhead seen false act maxK i j blocks = exAhead seen' false act maxK i j blocks := by
  cases h : seen.completed with
  | true => simp [exAhead, h, ← completed]
  | false => simp [exAhead, h, ← completed, block h]

theorem Inv.seen_eq (inv : t.Inv p) {u : Unroller} (works : t.slots.WorksOn u n)
    {act maxK i j blocks : ℕ} :
    exAhead ⟨t.regs.away .ex u, t.regs.exBlock⟩ false act maxK i j blocks =
      exAhead (t.progress n).seen false act maxK i j blocks := by
  apply exAhead_seen <;> simp only [progress, Progress.seen, inv.away_eq works]
  · split <;> simp_all
  · intro busy
    simp_all

/-- What a unit has handed out for loop `n`. -/
def commandsOf (t : Tracked) (u : Unroller) (n : ℕ) : List Event :=
  t.log.filterMap fun x => if x.1 = n ∧ x.2.unroller = u then some x.2 else none

theorem commandsOf_next {inp : Input} {u : Unroller} : (t.next p inp).commandsOf u n =
    t.commandsOf u n ++ if t.regs.hands p inp u = true ∧ t.slots.WorksOn u n then [t.regs.event u] else [] := by
  rw [commandsOf, log_next, List.filterMap_append]
  congr 1
  split
  · rename_i now
    have handed : t.handed p inp = some (n, t.regs.event u) := by
      obtain ⟨hands, works⟩ := now
      simp only [State.hands, Bool.and_eq_true, beq_iff_eq] at hands
      have serving : t.serving u = some n := works.2
      simp [Tracked.handed, hands.1, hands.2, serving]
    simp [handed]
  · rename_i other
    refine List.filterMap_eq_nil_iff.mpr fun x mem => if_neg ?_
    rintro ⟨rfl, same⟩
    obtain ⟨v, hands, works, event⟩ := handed_spec (Option.mem_toList.mp mem)
    rw [event, State.unroller_event] at same
    exact other (same ▸ ⟨hands, works⟩)

/-- The commands of a unit for loop `n` are the first of the commands from `e` on, the next one is that on
its output, and there is none before it has taken up the loop. -/
structure Follows (p : Params) (t : Tracked) (u : Unroller) (n : ℕ) (e : Event) : Prop where
  commands : ∀ k x, (t.commandsOf u n)[k]? = some x → e.stream p k = some x
  now : t.slots.WorksOn u n → e.stream p (t.commandsOf u n).length = some (t.regs.event u)
  unbegun : ¬t.slots.Begun u.stage n → t.commandsOf u n = []

theorem Follows.next {inp : Input} {u : Unroller} {e : Event} (h : t.Follows p u n e) (inv : t.Inv p)
    (fresh : t.regs.reqFire u = true → (t.next p inp).slots.WorksOn u n → (t.next p inp).regs.event u = e) :
    (t.next p inp).Follows p u n e := by
  refine ⟨fun k x => ?_, fun works' => ?_, fun unbegun => ?_⟩
  · rw [commandsOf_next]
    split
    · rename_i now
      rw [List.getElem?_append]
      split
      · exact h.commands k x
      · intro new
        obtain ⟨last, rfl⟩ : k = (t.commandsOf u n).length ∧ t.regs.event u = x := by
          rw [List.getElem?_singleton] at new
          split at new
          · exact ⟨by omega, Option.some.inj new⟩
          · cases new
        exact last ▸ h.now now.2
    · rw [List.append_nil]
      exact h.commands k x
  · rcases Slots.Tracked.WorksOn.next_cases inv.slots inv.legal works' with
      ⟨fires, takes⟩ | ⟨waits, goes, works⟩
    · have none : t.commandsOf u n = [] := h.unbegun (by
        rintro (left | ⟨-, started⟩)
        · exact absurd takes.first_le (by omega)
        · cases takes.notStarted.symm.trans started)
      have idle : ¬t.slots.WorksOn u n := fun works => by
        have := takes.idle ▸ works.1
        cases this
      rw [commandsOf_next, none, if_neg fun now => idle now.2, fresh fires works']
      rfl
    · rw [commandsOf_next]
      cases hands : t.regs.hands p inp u with
      | true =>
        rw [if_pos ⟨rfl, works⟩, List.length_append, Event.stream, List.length_singleton,
          Function.iterate_succ_apply']
        exact (congrArg (·.bind (Event.next p)) (h.now works)).trans (State.event_next waits hands goes)
      | false =>
        rw [if_neg (by simp), List.append_nil]
        exact (h.now works).trans (congrArg some (State.event_of_waits waits hands).symm)
  · have before : ¬t.slots.Begun u.stage n := fun begun => unbegun (begun.next inv.slots)
    rw [commandsOf_next, h.unbegun before, if_neg fun now => before (now.2.begun inv.slots)]
    rfl

theorem follows_of_reachable (reach : (matmuls p).Reachable t)
    (inStep : ∀ x ∈ t.infos, x.1.InStep x.2) {c : Cfg} {skips : Stage → Bool}
    (info : t.infos[n]? = some (c, skips)) (u : Unroller) :
    t.Follows p u n (c.firstEvent p (t.baseFor p n) u) := by
  revert inStep n c skips
  apply reach.invariant
  · rintro t ⟨_, _, _, infos, _⟩ n _ c skips info
    simp [infos] at info
  · intro t inp reach ih legal n inStep c skips info
    have sound := sound_of_reachable reach
    have before : ∀ x ∈ t.infos, x.1.InStep x.2 := fun x hx => inStep x (List.mem_append_left _ hx)
    have agree : (t.next p inp).BasesAgree p :=
      (basesAgree_of_reachable reach before).next sound.inv sound.recorded inStep
    change (t.next p inp).Follows p u n _
    refine Follows.next ?_ sound.inv fun fires works => ?_
    · rcases Nat.lt_or_ge n t.infos.length with old | new
      · change t.Follows p u n (c.firstEvent p ((t.next p inp).baseFor p n) u)
        rw [baseFor_next old.le]
        exact ih before (Inv.info_of_next old info)
      · have none : t.commandsOf u n = [] := by
          refine List.filterMap_eq_nil_iff.mpr fun x mem => if_neg fun same => ?_
          have := sound.recorded.bound mem
          omega
        exact ⟨by simp [none], fun works => absurd (sound.inv.lt_length works) (by omega), fun _ => none⟩
    · exact State.event_of_fire fires ((sound.inv.next legal.2).holds works info) fun b => agree.requests works

theorem baseFor_of_moves (h : p.HasHalves) (moves : ∀ x ∈ t.infos, x.1.moves = true)
    (bound : n ≤ t.infos.length) :
    t.baseFor p n = if slotOf t.start n = t.start then 0 else p.maxAccAddr / 2 := by
  induction n with
  | zero => simp [baseFor, slotOf, Slots.valueAfter]
  | succ n ih =>
    have info := List.getElem?_eq_getElem (show n < t.infos.length by omega)
    have step : t.baseFor p (n + 1) = if (t.infos[n].1).moves then nextBase p (t.baseFor p n) true
        else t.baseFor p n := Slots.valueAfter_take_succ info
    rw [step, if_pos (moves _ (List.getElem_mem _)), nextBase_halves h (baseFor_half h t n),
      ih (by omega), Slots.slotOf_succ]
    cases slotOf t.start n <;> cases t.start <;> simp

end Tracked

/-- In a run with matrix multiplications only, in which every loop gives all its configuration (and its
scratchpad addresses unless none have been given), is in step and stores its result: what a unit hands
out for a loop is the beginning of the commands that the loop's own configuration and its slot
determine, and it waits only for units on the same loop. -/
theorem loop_isolated {p : Params} (h : p.HasHalves) {t : Tracked}
    (reach : (matmuls p).Reachable t)
    (own : ∀ n cmds, t.givens[n]? = some cmds →
      Complete cmds ∧ (GivesSpad cmds ∨ ¬GivesSpad (t.givens.take n).flatten))
    (stores : ∀ x ∈ t.infos, x.1.InStep x.2 ∧ x.1.moves = true) :
    (∀ u n cmds, t.givens[n]? = some cmds →
      let i := slotOf t.start n
      let base := if i = t.start then 0 else p.maxAccAddr / 2
      ∀ k e, (t.commandsOf u n)[k]? = some e →
        ((ownCfg p i cmds).firstEvent p base u).stream p k = some e) ∧
    (∀ n, t.slots.WorksOn .ex n → (t.slots.WorksOn .ldB n → t.slots.WorksOn .ldA n) →
      t.regs.ldAhead = (t.progress n).ldAhead t.regs.exBlock) ∧
    (∀ n, t.slots.WorksOn .stC n → t.regs.stCAhead p =
      exAhead (t.progress n).seen false t.regs.stCReq.act t.regs.stCReq.maxK t.regs.stCCounters.i
        t.regs.stCCounters.j (t.regs.stCReq.blocks p t.regs.stCCounters)) ∧
    (∀ n, t.slots.WorksOn .stCSpad n → t.regs.stCSpadAhead =
      exAhead (t.progress n).seen false t.regs.stCSpad.req.act t.regs.stCSpad.req.maxK
        t.regs.stCSpad.inner t.regs.stCSpad.outer (t.regs.stCSpad.req.blocks t.regs.stCSpad.outer)) := by
  have sound := Tracked.sound_of_reachable reach
  have configured := Tracked.configured_of_reachable reach
  refine ⟨fun u n cmds given => ?_, fun n works => sound.inv.ldAhead_eq works,
    fun n works => ?_, fun n works => ?_⟩
  · have bound : n < t.infos.length := configured.length ▸ (List.getElem?_eq_some_iff.mp given).1
    have info : t.infos[n]? = some (t.infos[n].1, t.infos[n].2) := List.getElem?_eq_getElem bound
    obtain ⟨complete, spad⟩ := own n cmds given
    obtain ⟨d, reset, hd⟩ := configured.loops info given
    have made := (Tracked.follows_of_reachable reach (fun x hx => (stores x hx).1) info u).commands
    rw [hd, after_eq_ownCfg reset complete spad,
      Tracked.baseFor_of_moves h (fun x hx => (stores x hx).2) bound.le] at made
    exact made
  · obtain ⟨c, skips, info⟩ : ∃ c skips, t.infos[n]? = some (c, skips) :=
      ⟨_, _, List.getElem?_eq_getElem (sound.inv.lt_length works)⟩
    have holds : t.regs.stCReq = _ := sound.inv.holds works info
    have notResadd : t.regs.stCReq.isResadd = false := by
      rw [holds]
      rfl
    rw [State.stCAhead, notResadd, State.seenByStC, sound.inv.matmul]
    exact sound.inv.seen_eq works
  · obtain ⟨c, skips, info⟩ : ∃ c skips, t.infos[n]? = some (c, skips) :=
      ⟨_, _, List.getElem?_eq_getElem (sound.inv.lt_length works)⟩
    have holds : t.regs.stCSpad.req = _ := sound.inv.holds works info
    have notResadd : t.regs.stCSpad.req.isResadd = false := by
      rw [holds]
      rfl
    rw [State.stCSpadAhead, notResadd, State.seenByStCSpad]
    exact sound.inv.seen_eq works

def productCmds : List Cmd :=
  [⟨.configBounds, 0, 1 <<< 32 ||| 1 <<< 16 ||| 1⟩, ⟨.configAddrsAB, 64, 128⟩,
    ⟨.configAddrsDC, 0, 256⟩, ⟨.configStridesAB, 4, 4⟩, ⟨.configStridesDC, 4, 4⟩, ⟨.loopWs, 0, 0⟩]

theorem productCmds_complete : Complete productCmds := by
  intro f notAB notC
  cases f <;> first | contradiction | decide

/-- The loads of two products have gone out, and the execute unit has begun with the second. -/
def fullProducts : Tracked :=
  (matmuls smallParams).run (smallStart 1 1 1) ((productCmds ++ productCmds).map (.stall ∘ some) ++
    List.replicate 3 (.stall none) ++ List.replicate 4 (.flow none))

theorem full_products_isolated :
    fullProducts.first = 0 ∧ (fullProducts.commandsOf .ex 0).length = 2 ∧
      (fullProducts.commandsOf .ex 1).length = 1 ∧
      ∀ u n, n < 2 → ∀ k e, (fullProducts.commandsOf u n)[k]? = some e →
        ((ownCfg smallParams (n == 1) productCmds).firstEvent smallParams (n * 16) u).stream smallParams k =
          some e := by
  have reach : (matmuls smallParams).Reachable fullProducts :=
    Machine.Reachable.run (M := matmuls smallParams)
      (.init (smallStart_init (by decide))) _ (by decide)
  -- the run is evaluated once for all that is read off it
  obtain ⟨givens, stores, counts⟩ : fullProducts.givens = [productCmds, productCmds] ∧
      (∀ x ∈ fullProducts.infos, x.1.InStep x.2 ∧ x.1.moves = true) ∧
      fullProducts.first = 0 ∧ (fullProducts.commandsOf .ex 0).length = 2 ∧
        (fullProducts.commandsOf .ex 1).length = 1 := by decide +kernel
  have own : ∀ n cmds, fullProducts.givens[n]? = some cmds →
      Complete cmds ∧ (GivesSpad cmds ∨ ¬GivesSpad (fullProducts.givens.take n).flatten) := by
    intro n cmds given
    have mem := List.mem_of_getElem? given
    rw [givens] at mem ⊢
    obtain rfl : cmds = productCmds := by simpa using mem
    refine ⟨productCmds_complete, .inr fun gives => absurd ?_ (by decide : ¬GivesSpad (productCmds ++ productCmds))⟩
    obtain ⟨x, hx, same⟩ := List.mem_map.mp gives
    exact List.mem_map.mpr ⟨x, by simpa using (List.take_sublist n _).flatten.subset hx, same⟩
  have isolated := (loop_isolated ⟨by decide, by decide, by decide⟩ reach own stores).1
  refine ⟨counts.1, counts.2.1, counts.2.2, fun u n small => ?_⟩
  have given : fullProducts.givens[n]? = some productCmds := by
    rw [givens]
    interval_cases n <;> rfl
  have follows := isolated u n productCmds given
  interval_cases n <;> exact follows

def threeProducts (cmd : Option Cmd) : Tracked :=
  (machine smallParams).run (smallStart 1 1 1)
    (Input.flow cmd :: (productCmds ++ productCmds).map (Input.flow ∘ some) ++
      (List.replicate 4 none ++ productCmds.map some ++ List.replicate 4 none).map Input.flow)

def heldProduct (cmd : Option Cmd) : Tracked :=
  (machine smallParams).run (smallStart 1 1 2)
    [.stall (some ⟨.loopWs, 0, 0⟩), .stall none, .stall none, .stall none, .stall none, .stall cmd]

/-- The third product loads A to other rows if the first one was given scratchpad addresses, and a
residual addition behind a product lets StC go on with it. -/
theorem other_loops_matter :
    ((∀ cmd, (machine smallParams).Reachable (threeProducts cmd)) ∧
      (threeProducts (some ⟨.configSpadAB, 8, 56⟩)).givens[2]? = some productCmds ∧
      (threeProducts none).givens[2]? = some productCmds ∧
      ∃ r r', (2, .ldA r 0 0) ∈ (threeProducts (some ⟨.configSpadAB, 8, 56⟩)).log ∧
        (2, .ldA r' 0 0) ∈ (threeProducts none).log ∧ r.addrStart = 8 ∧ r'.addrStart = 0) ∧
    ((∀ cmd, (machine smallParams).Reachable (heldProduct cmd)) ∧
      (heldProduct (some ⟨.loopWs, 0, 4⟩)).givens[0]? = (heldProduct none).givens[0]? ∧
      (heldProduct (some ⟨.loopWs, 0, 4⟩)).log = (heldProduct none).log ∧
      (heldProduct (some ⟨.loopWs, 0, 4⟩)).serving .stC = some 0 ∧
      (heldProduct none).serving .stC = some 0 ∧
      (heldProduct (some ⟨.loopWs, 0, 4⟩)).regs.stCAhead smallParams = true ∧
      (heldProduct none).regs.stCAhead smallParams = false) := by
  refine ⟨⟨fun cmd => ?_, ?_⟩, fun cmd => ?_, by decide +kernel⟩
  · exact Machine.Reachable.run (M := machine smallParams)
      (.init (smallStart_init (by decide))) _ (by trivial)
  · simp only [← exists_and_left]
    exact ⟨⟨1, 1, 0, 0, 64, 4, false, 8, false⟩, ⟨1, 1, 0, 0, 64, 4, false, 0, false⟩, by decide +kernel⟩
  · exact Machine.Reachable.run (M := machine smallParams)
      (.init (smallStart_init (by decide))) _ (by trivial)

end Gemmini.LoopMatmul
