import Gemmini.Lib.Handout
import Gemmini.LoopMatmul.Model

/-!
# The units at work

While no residual addition is configured, each unit holds the request of the loop that it works on, and
keeps its counters inside the bounds of its loop.
-/

namespace Gemmini.LoopMatmul

open Odometer (limit limit_pos floorAdd_eq)

def Input.Matmul (inp : Input) : Prop :=
  ∀ x, inp.cmd = some x → x.funct = .loopWs → x.resadd = false

instance (inp : Input) : Decidable inp.Matmul :=
  match h : inp.cmd with
  | none => isTrue (by simp [Input.Matmul, h])
  | some x =>
    decidable_of_iff (x.funct = .loopWs → x.resadd = false) (by simp [Input.Matmul, h])

def matmuls (p : Params) : Machine Tracked Input := (machine p).restrict fun _ inp => inp.Matmul

instance (p : Params) (t : Tracked) (inp : Input) : Decidable ((machine p).legal t inp) :=
  inferInstanceAs (Decidable True)

instance (p : Params) (t : Tracked) (inp : Input) : Decidable ((matmuls p).legal t inp) :=
  inferInstanceAs (Decidable (((machine p).restrict fun _ inp => inp.Matmul).legal t inp))

section Config

variable {p : Params}

theorem slice_lt (x : BitVec 64) (lo bits : ℕ) : slice x lo bits < 2 ^ bits := by
  unfold slice
  exact Nat.mod_lt _ (Nat.two_pow_pos bits)

theorem Cmd.edit_fits (x : Cmd) {c : Cfg} (h : c.Fits) : (x.edit p c).Fits := by
  obtain ⟨hi, hj, hk⟩ := h
  rcases x with ⟨_ | _, _, _⟩ <;> constructor <;>
    first | assumption | exact slice_lt _ _ _

end Config

section Requests

variable (p : Params) (s : State) (inp : Input)

/-- The unit holds the request of a loop with configuration `c`, at some accumulator base. -/
def State.Holds (c : Cfg) : Unroller → Prop
  | .ldA => s.ldA.req = c.ldAReq p false
  | .ldB => s.ldB.req = c.ldBReq p false
  | .ldD => s.ldD.req = c.ldDReq p s.ldD.req.addrStart
  | .ex => s.exReq = c.exReq p false s.exReq.cAddrStart
  | .stC => s.stCReq = c.stCReq p false s.stCReq.addrStart
  | .stCSpad => s.stCSpad.req = c.stCSpadReq p false s.stCSpad.req.srcAddr

variable {p s inp}

theorem State.holds_of_fire {u : Unroller} (fires : s.reqFire u = true)
    (matmul : s.isResadd = false) : (s.next p inp).Holds p (s.requested u) u := by
  cases u <;> simp [State.Holds, State.next, Walker.next, State.given, fires, matmul] <;> rfl

theorem State.Holds.next {u : Unroller} {c : Cfg} (h : s.Holds p c u)
    (waits : s.reqFire u = false) : (s.next p inp).Holds p c u := by
  cases u <;> simp only [State.Holds, State.next, Walker.next, State.given, waits] at h ⊢
  case ex => exact h
  case stC => exact h
  all_goals
    simp only [Bool.false_eq_true, if_false]
    split <;> exact h

theorem State.mayFire_of_reqFire (matmul : s.isResadd = false) {u : Unroller}
    (fires : s.reqFire u = true) : s.slots.mayFire layout u = true := by
  cases u <;>
    simp_all [State.reqFire, State.gate, Slots.State.mayFire, layout, Unroller.stage,
      Unroller.serves]

end Requests

/-! ### The invariant of the requests -/

def Unroller.needs : Unroller → Stage → Bool
  | .ex, k => k == .lda || k == .ldb || k == .ldd
  | .stC, k => k == .ex
  | .stCSpad, k => k == .ex
  | _, _ => false

/-- The slots are as they should be, and the units hold the requests of their loops. -/
structure Tracked.Inv (p : Params) (t : Tracked) : Prop where
  slots : Slots.Inv layout t.slots
  matmul : t.regs.isResadd = false
  fits : ∀ i, (t.regs.slots.loops i).cfg.Fits
  infoFits : ∀ {n : ℕ} {c : Cfg} {skips}, t.infos[n]? = some (c, skips) → c.Fits
  holds : ∀ {u n c skips}, t.slots.WorksOn u n → t.infos[n]? = some (c, skips) →
    t.regs.Holds p c u
  needs : ∀ {u n k}, t.slots.WorksOn u n → u.needs k = true → t.slots.Begun k n

namespace Tracked.Inv

variable {p : Params} {t : Tracked} {inp : Input}

theorem init (h : (matmuls p).init t) : t.Inv p := by
  obtain ⟨initial, start, first, infos, serving, _⟩ := h
  have idle : ∀ {u n}, ¬t.slots.WorksOn u n := fun h => by
    have := initial.idle _ ▸ h.1
    cases this
  exact ⟨.init initial.free initial.idle start.symm first infos serving, initial.isResadd,
    initial.fits, fun h => by simp [infos] at h, fun h => absurd h idle, fun h => absurd h idle⟩

theorem legal (inv : t.Inv p) : ∀ u, (t.regs.slotsInput p inp).fire u = true →
    t.slots.state.mayFire layout u = true :=
  fun _ => State.mayFire_of_reqFire inv.matmul

theorem requested_eq (inv : t.Inv p) {u : Unroller} {n : ℕ} {c : Cfg} {skips : Stage → Bool}
    (takes : Slots.Inv.TakesUp layout t.slots u n) (info : t.infos[n]? = some (c, skips)) :
    t.regs.requested u = c := by
  rw [← (inv.slots.info n c skips takes.first_le info).1]
  exact congrArg (fun i => (t.regs.slots.loops i).cfg) takes.slot

theorem info_of_next {n : ℕ} {x : Cfg × (Stage → Bool)}
    (old : n < t.infos.length) (info : (t.next p inp).infos[n]? = some x) :
    t.infos[n]? = some x :=
  (Slots.Inv.next_infos_cases (L := layout) info).resolve_right fun h => by
    have : n = t.infos.length := h.1
    omega

variable (inv : t.Inv p)
include inv

theorem lt_length {u : Unroller} {n : ℕ} (works : t.slots.WorksOn u n) :
    n < t.infos.length :=
  (inv.slots.served u n works.2).1

theorem next_matmul (matmul : inp.Matmul) : (t.next p inp).regs.isResadd = false := by
  change (t.regs.takenRun inp).elim t.regs.isResadd Cmd.resadd = false
  cases hrun : t.regs.takenRun inp with
  | none => exact inv.matmul
  | some x =>
    simp only [State.takenRun, State.takenCmd, Option.filter_eq_some_iff, beq_iff_eq,
      Option.ite_none_left_eq_some] at hrun
    exact matmul x hrun.1.2 hrun.2

theorem next_fits (i : Bool) : ((t.next p inp).regs.slots.loops i).cfg.Fits := by
  refine Slots.State.nextSlot_cfg layout t.regs.slots (t.regs.slotsInput p inp) inv.fits
    (fun c h => ⟨h.maxI, h.maxJ, h.maxK⟩) ?_ i
  intro f c config h
  simp only [State.slotsInput, Input.config, Option.map_eq_some_iff, Cmd.config] at config
  rcases config with ⟨x, _, config⟩ | ⟨_, x, _, config⟩ <;> split at config <;> cases config <;>
    exact x.edit_fits h

theorem next_infoFits {n : ℕ} {c : Cfg} {skips : Stage → Bool}
    (info : (t.next p inp).infos[n]? = some (c, skips)) : c.Fits := by
  rcases Slots.Inv.next_infos_cases (L := layout) info with old | ⟨_, now⟩
  · exact inv.infoFits old
  · obtain ⟨_, f, hconfig, rfl⟩ := inv.slots.configuredNow_spec now
    simp only [State.slotsInput, Input.config] at hconfig
    cases hcmd : inp.cmd with
    | none => simp [hcmd] at hconfig
    | some x =>
      simp only [hcmd, Option.map_some, Cmd.config, Option.some.injEq] at hconfig
      split at hconfig
      · cases hconfig
        exact x.edit_fits (inv.fits _)
      · cases hconfig

theorem next_holds {u : Unroller} {n : ℕ} {c : Cfg} {skips : Stage → Bool}
    (works : (t.next p inp).slots.WorksOn u n) (info : (t.next p inp).infos[n]? = some (c, skips)) :
    (t.next p inp).regs.Holds p c u := by
  rcases Slots.Tracked.WorksOn.next_cases inv.slots inv.legal works with
    ⟨fires, takes⟩ | ⟨waits, _, works⟩
  · rw [← inv.requested_eq takes (info_of_next takes.lt_length info)]
    exact State.holds_of_fire fires inv.matmul
  · exact (inv.holds works (info_of_next (inv.lt_length works) info)).next waits

theorem begun_of_fire {u : Unroller} {n : ℕ} {k : Stage}
    (fires : t.regs.reqFire u = true) (takes : Slots.Inv.TakesUp layout t.slots u n)
    (needs : u.needs k = true) : t.slots.Begun k n := by
  refine .inr ⟨takes.lt_length, ?_⟩
  have slot : t.slots.slot n = t.regs.slots.loops (t.regs.slots.requesting u.stage) :=
    congrArg t.regs.slots.loops takes.slot.symm
  rw [slot]
  have gate : t.regs.gate u = true := by
    simp only [State.reqFire, Bool.and_eq_true] at fires
    exact fires.2
  cases u <;> cases k <;> simp_all [Unroller.needs, State.gate, inv.matmul]

theorem next_needs {u : Unroller} {n : ℕ} {k : Stage}
    (works : (t.next p inp).slots.WorksOn u n) (needs : u.needs k = true) :
    (t.next p inp).slots.Begun k n := by
  rcases Slots.Tracked.WorksOn.next_cases inv.slots inv.legal works with
    ⟨fires, takes⟩ | ⟨_, _, works⟩
  · exact (inv.begun_of_fire fires takes needs).next inv.slots
  · exact (inv.needs works needs).next inv.slots

theorem next (matmul : inp.Matmul) : (t.next p inp).Inv p where
  slots := inv.slots.next inv.legal
  matmul := inv.next_matmul matmul
  fits := inv.next_fits
  infoFits := inv.next_infoFits
  holds := inv.next_holds
  needs := inv.next_needs

end Tracked.Inv

/-! ### The command output -/

section Output

variable {p : Params} {s : State} {inp : Input} {u : Unroller}

theorem State.offers_of_hands (h : s.hands p inp u = true) : s.offers p inp u = true := by
  simp only [State.hands, Bool.and_eq_true, beq_iff_eq] at h
  exact List.find?_some h.2

theorem State.busy_of_hands (h : s.hands p inp u = true) : s.slots.busy u = true := by
  have := State.offers_of_hands h
  simp only [State.offers, Bool.and_eq_true] at this
  exact this.1

end Output

/-! ### The load units -/

def Unroller.isLoad : Unroller → Bool
  | .ldA | .ldB | .ldD => true
  | _ => false

def Cfg.bounds (c : Cfg) : Unroller → ℕ × ℕ
  | .ldA => (c.maxI, c.maxK)
  | .ldB => (c.maxJ, c.maxK)
  | _ => (c.maxI, c.maxJ)

def Cfg.HasPiece (c : Cfg) (u : Unroller) (x : ℕ × ℕ) : Prop :=
  x.1 < (c.bounds u).1 ∧ x.2 < (c.bounds u).2

def Cfg.active (c : Cfg) : Unroller → Prop
  | .ldA => c.aDramAddr ≠ 0
  | .ldB => c.bDramAddr ≠ 0
  | _ => c.dDramAddr ≠ 0

section Loads

variable (p : Params) (s : State)

def State.pair : Unroller → Odometer.Pair
  | .ldA => s.ldA.req.counters p s.ldA.inner s.ldA.outer
  | .ldB => s.ldB.req.counters p s.ldB.outer s.ldB.inner
  | _ => s.ldD.req.counters p s.ldD.inner s.ldD.outer

def State.bounds : Unroller → ℕ × ℕ
  | .ldA => (s.ldA.req.maxI, s.ldA.req.maxK)
  | .ldB => (s.ldB.req.maxJ, s.ldB.req.maxK)
  | _ => (s.ldD.req.maxI, s.ldD.req.maxJ)

def State.dead : Unroller → Bool
  | .ldA => s.ldA.req.dramAddr == 0
  | .ldB => s.ldB.req.dramAddr == 0
  | _ => s.ldD.req.dramAddr == 0

variable {p s} {u : Unroller} {c : Cfg}

theorem State.Holds.bounds_eq (h : s.Holds p c u) (load : u.isLoad = true) :
    s.bounds u = c.bounds u := by
  cases u <;> simp only [Unroller.isLoad, Bool.false_eq_true] at load <;>
    simp only [State.Holds] at h <;> simp only [State.bounds] <;> rw [h] <;> rfl

theorem State.Holds.alive (h : s.Holds p c u) (load : u.isLoad = true) (act : c.active u) :
    s.dead u = false := by
  cases u <;> simp only [Unroller.isLoad, Bool.false_eq_true] at load <;>
    simp only [State.Holds] at h <;> simp only [State.dead] <;> rw [h] <;>
    simpa [Cfg.active, Cfg.ldAReq, Cfg.ldBReq, Cfg.ldDReq] using act

theorem Cfg.Fits.bounds (h : c.Fits) (u : Unroller) :
    (c.bounds u).1 < 2 ^ 16 ∧ (c.bounds u).2 < 2 ^ 16 := by
  obtain ⟨hi, hj, hk⟩ := h
  cases u <;> simp only [Cfg.bounds] <;> omega

theorem Tracked.counts (t : Tracked) (inp : Input) (load : u.isLoad = true) :
    Slots.Counts t.slots (t.regs.slotsInput p inp) u 16 (t.regs.bounds u).1 (t.regs.bounds u).2
      (t.regs.pair p u) ((t.next p inp).regs.pair p u) (t.regs.hands p inp u) (t.regs.dead u) where
  done := by
    cases u <;> simp only [Unroller.isLoad, Bool.false_eq_true] at load <;> rfl
  live h := by
    have offers := State.offers_of_hands h
    cases u <;> simp only [Unroller.isLoad, Bool.false_eq_true] at load <;>
      simp_all [State.offers, State.dead]
  fresh h := by
    change t.regs.reqFire u = true at h
    cases u <;> simp only [Unroller.isLoad, Bool.false_eq_true] at load <;>
      simp [Tracked.next, State.next, State.pair, Walker.next, State.given, h, LdAReq.counters,
        LdBReq.counters, LdDReq.counters]
  keeps h := by
    change t.regs.reqFire u = false at h
    cases u <;> simp only [Unroller.isLoad, Bool.false_eq_true] at load <;>
      simp only [Tracked.next, State.next, State.pair, Walker.next, State.given, h,
        Bool.false_eq_true, if_false] <;>
      split
    all_goals rfl

theorem State.Holds.start (h : s.Holds p c u) (load : u.isLoad = true)
    (zero : (s.pair p u).x = 0 ∧ (s.pair p u).y = 0) (inner : 0 < (c.bounds u).1)
    (outer : 0 < (c.bounds u).2) :
    (s.pair p u).Within (limit 16 (c.bounds u).1) (limit 16 (c.bounds u).2) := by
  have lengths : 0 < p.maxBlockLen ∧ 0 < p.maxBlockLenAcc := by
    simp [Params.maxBlockLen, Params.maxBlockLenAcc]
  have steps : 0 < (s.pair p u).dx ∧ 0 < (s.pair p u).dy := by
    cases u <;> simp only [Unroller.isLoad, Bool.false_eq_true] at load <;>
      simp only [State.Holds] at h <;> simp only [State.pair] <;> rw [h] <;>
      simp only [Cfg.bounds] at inner outer
    case ldA =>
      simp only [LdAReq.counters, LdAReq.iBlocks, LdAReq.kBlocks, LdAReq.maxBlocks, LdAReq.maxCol,
        Cfg.ldAReq]
      by_cases transpose : c.aTranspose = true
      · simp [transpose, maxBlocksOf_pos lengths.1 inner]
      · simp [transpose, maxBlocksOf_pos lengths.1 outer]
    case ldB =>
      simp only [LdBReq.counters, LdBReq.jBlocks, LdBReq.kBlocks, LdBReq.maxBlocks, LdBReq.maxCol,
        Cfg.ldBReq]
      by_cases transpose : c.bTranspose = true
      · simp [transpose, maxBlocksOf_pos lengths.1 outer]
      · simp [transpose, maxBlocksOf_pos lengths.1 inner]
    case ldD =>
      refine ⟨Nat.one_pos, maxBlocksOf_pos ?_ outer⟩
      split
      · exact lengths.1
      · exact lengths.2
  generalize s.pair p u = q at zero steps
  obtain ⟨x, y, dx, dy⟩ := q
  obtain ⟨rfl, rfl⟩ := zero
  exact .start steps.1 steps.2 _ _

end Loads

/-! ### The execute unit -/

def Cfg.HasBlock (c : Cfg) (b : Block) : Prop :=
  b.i < limit 16 c.maxI ∧ b.j < limit 16 c.maxJ ∧ b.k < limit 16 c.maxK

theorem Cfg.hasBlock_zero (c : Cfg) : c.HasBlock ⟨0, 0, 0⟩ :=
  ⟨limit_pos _ _, limit_pos _ _, limit_pos _ _⟩

theorem Cfg.hasBlock_iff (c : Cfg) (hi : 0 < c.maxI) (hj : 0 < c.maxJ) (hk : 0 < c.maxK)
    {b : Block} : c.HasBlock b ↔ b.i < c.maxI ∧ b.j < c.maxJ ∧ b.k < c.maxK := by
  simp [Cfg.HasBlock, limit, hi.ne', hj.ne', hk.ne']

def Block.Before (a b : Block) : Prop :=
  a.k < b.k ∨ (a.k = b.k ∧ (a.j < b.j ∨ (a.j = b.j ∧ a.i < b.i)))

theorem Block.not_before_self (b : Block) : ¬b.Before b := by
  simp [Block.Before]

section Execute

variable {p : Params} {c : Cfg} {base : ℕ} {b : Block}

theorem next_block (fits : c.Fits) (inside : c.HasBlock b)
    (goes : (c.exReq p false base).wraps b = false) :
    c.HasBlock ((c.exReq p false base).next b) ∧ ∀ a, c.HasBlock a →
      (a.Before ((c.exReq p false base).next b) ↔ a.Before b ∨ a = b) := by
  obtain ⟨hi, hj, hk⟩ := fits
  obtain ⟨i, j, k⟩ := b
  simp only [ExecuteReq.wraps, ExecuteReq.next, Cfg.exReq, floorAdd_eq hi,
    floorAdd_eq hj, floorAdd_eq hk, Cfg.HasBlock, Block.Before,
    beq_eq_false_iff_ne, ne_eq, Block.mk.injEq] at inside goes ⊢
  generalize limit 16 c.maxI = maxI at *
  generalize limit 16 c.maxJ = maxJ at *
  generalize limit 16 c.maxK = maxK at *
  by_cases wi : maxI ≤ i + 1
  · by_cases wj : maxJ ≤ j + 1
    · -- `i` and `j` start again and `k` moves on
      simp only [wi, wj, if_true, and_self, true_and] at goes ⊢
      have wk : ¬maxK ≤ k + 1 := fun h => goes (if_pos h)
      simp only [wk, if_false]
      refine ⟨by omega, fun a ha => ?_⟩
      obtain ⟨ai, aj, ak⟩ := a
      simp only [Block.mk.injEq] at ha ⊢
      omega
    · have : j + 1 ≠ 0 := by omega
      simp only [wi, wj, if_true, if_false, true_and, this] at goes ⊢
      refine ⟨by omega, fun a ha => ?_⟩
      obtain ⟨ai, aj, ak⟩ := a
      simp only [Block.mk.injEq] at ha ⊢
      omega
  · have : i + 1 ≠ 0 := by omega
    simp only [wi, if_false, this, false_and] at goes ⊢
    refine ⟨by omega, fun a ha => ?_⟩
    obtain ⟨ai, aj, ak⟩ := a
    simp only [Block.mk.injEq] at ha ⊢
    omega

theorem last_block (fits : c.Fits) (inside : c.HasBlock b)
    (ends : (c.exReq p false base).wraps b = true) {a : Block} (ha : c.HasBlock a) :
    a.Before b ∨ a = b := by
  obtain ⟨hi, hj, hk⟩ := fits
  obtain ⟨i, j, k⟩ := b
  obtain ⟨ai, aj, ak⟩ := a
  simp only [ExecuteReq.wraps, ExecuteReq.next, Cfg.exReq, floorAdd_eq hi,
    floorAdd_eq hj, floorAdd_eq hk, Cfg.HasBlock, Block.Before,
    beq_iff_eq, Block.mk.injEq] at inside ends ha ⊢
  obtain ⟨zi, zj, zk⟩ := ends
  have wi : limit 16 c.maxI ≤ i + 1 := by
    by_contra h
    simp [h] at zi
  have wj : limit 16 c.maxJ ≤ j + 1 := by
    by_contra h
    simp [wi, h] at zj
  have wk : limit 16 c.maxK ≤ k + 1 := by
    by_contra h
    simp [wi, wj, h] at zk
  omega

end Execute

/-! ### The counters stay inside the bounds -/

/-- The counters of the load units and of the execute unit are inside the bounds of their loops. -/
structure Tracked.InBounds (p : Params) (t : Tracked) : Prop where
  loads : ∀ {u n c skips}, u.isLoad = true → t.slots.WorksOn u n → t.infos[n]? = some (c, skips) →
    0 < (c.bounds u).1 → 0 < (c.bounds u).2 →
    (t.regs.pair p u).Within (limit 16 (c.bounds u).1) (limit 16 (c.bounds u).2)
  ex : ∀ {n c skips}, t.slots.WorksOn .ex n → t.infos[n]? = some (c, skips) →
    c.HasBlock t.regs.exBlock

namespace Tracked

variable {p : Params} {t : Tracked} {inp : Input}

theorem InBounds.init (h : (matmuls p).init t) : t.InBounds p := by
  have idle : ∀ {u n}, ¬t.slots.WorksOn u n := fun works => by
    have := h.1.idle _ ▸ works.1
    cases this
  exact ⟨fun _ works => absurd works idle, fun works => absurd works idle⟩

theorem InBounds.next_loads (h : t.InBounds p) (inv : t.Inv p) {u : Unroller} {n : ℕ} {c : Cfg}
    {skips : Stage → Bool} (load : u.isLoad = true) (works : (t.next p inp).slots.WorksOn u n)
    (info : (t.next p inp).infos[n]? = some (c, skips)) (inner : 0 < (c.bounds u).1)
    (outer : 0 < (c.bounds u).2) :
    ((t.next p inp).regs.pair p u).Within (limit 16 (c.bounds u).1)
      (limit 16 (c.bounds u).2) := by
  have holds := inv.next_holds works info
  rcases Slots.Tracked.WorksOn.next_cases inv.slots inv.legal works with
    ⟨fires, takes⟩ | ⟨waits, goes, works⟩
  · exact holds.start load ((t.counts inp load).fresh fires) inner outer
  · have info := Tracked.Inv.info_of_next (inv.lt_length works) info
    have fits := (inv.infoFits info).bounds u
    have counts := t.counts (p := p) inp load
    rw [(inv.holds works info).bounds_eq load] at counts
    exact counts.within fits.1 fits.2 waits goes (h.loads load works info inner outer)

theorem next_exBlock (waits : t.regs.reqFire .ex = false) :
    (t.next p inp).regs.exBlock = if t.regs.hands p inp .ex = true ∧ t.regs.exComp = true then
      t.regs.exReq.next t.regs.exBlock else t.regs.exBlock := by
  simp [Tracked.next, State.next, waits]

theorem Inv.ex_goes (inv : t.Inv p) {n : ℕ} {c : Cfg} {skips : Stage → Bool}
    (works : t.slots.WorksOn .ex n) (info : t.infos[n]? = some (c, skips))
    (goes : (t.regs.slotsInput p inp).done .ex = false)
    (hands : t.regs.hands p inp .ex = true ∧ t.regs.exComp = true) :
    (c.exReq p false t.regs.exReq.cAddrStart).wraps t.regs.exBlock = false := by
  have holds : t.regs.exReq = _ := inv.holds works info
  rw [← holds]
  simpa [State.slotsInput, State.done, hands.1, hands.2] using (Bool.or_eq_false_iff.mp goes).2

theorem InBounds.next_ex (h : t.InBounds p) (inv : t.Inv p) {n : ℕ} {c : Cfg}
    {skips : Stage → Bool} (works : (t.next p inp).slots.WorksOn .ex n)
    (info : (t.next p inp).infos[n]? = some (c, skips)) :
    c.HasBlock (t.next p inp).regs.exBlock := by
  rcases Slots.Tracked.WorksOn.next_cases inv.slots inv.legal works with
    ⟨fires, takes⟩ | ⟨waits, goes, works⟩
  · have : (t.next p inp).regs.exBlock = ⟨0, 0, 0⟩ := if_pos fires
    rw [this]
    exact c.hasBlock_zero
  · have info := Tracked.Inv.info_of_next (inv.lt_length works) info
    rw [next_exBlock waits]
    split
    · rename_i hands
      have holds : t.regs.exReq = _ := inv.holds works info
      rw [holds]
      exact (next_block (inv.infoFits info) (h.ex works info)
        (inv.ex_goes works info goes hands)).1
    · exact h.ex works info

theorem InBounds.next (h : t.InBounds p) (inv : t.Inv p) : (t.next p inp).InBounds p :=
  ⟨h.next_loads inv, h.next_ex inv⟩

/-! ### Blocks handed out -/

theorem InBounds.walk_load (h : t.InBounds p) (inv : t.Inv p) {u : Unroller}
    (load : u.isLoad = true) :
    Slots.Walk t.slots (t.regs.slotsInput p inp) u (fun c => c.HasPiece u) (fun c => c.active u)
      (fun x => (t.regs.pair p u).Passed x.1 x.2) (fun x => (t.regs.pair p u).At x.1 x.2)
      (fun x => ((t.next p inp).regs.pair p u).Passed x.1 x.2) (t.regs.hands p inp u) := by
  refine (t.counts inp load).walk ?_ fun works info act => (inv.holds works info).alive load act
  intro n c skips x works info hx
  rw [(inv.holds works info).bounds_eq load]
  have inner : (c.bounds u).1 ≠ 0 := Nat.ne_of_gt (Nat.zero_lt_of_lt hx.1)
  have outer : (c.bounds u).2 ≠ 0 := Nat.ne_of_gt (Nat.zero_lt_of_lt hx.2)
  refine ⟨(inv.infoFits info).bounds u,
    h.loads load works info (Nat.pos_of_ne_zero inner) (Nat.pos_of_ne_zero outer), ?_⟩
  simpa [limit, inner, outer, Cfg.HasPiece] using hx

theorem InBounds.walk_ex (h : t.InBounds p) (inv : t.Inv p) :
    Slots.Walk t.slots (t.regs.slotsInput p inp) .ex Cfg.HasBlock (fun _ => True)
      (fun b => b.Before t.regs.exBlock) (fun b => t.regs.exComp = true ∧ b = t.regs.exBlock)
      (fun b => b.Before (t.next p inp).regs.exBlock) (t.regs.hands p inp .ex) where
  fresh fires b := by
    have : (t.next p inp).regs.exBlock = ⟨0, 0, 0⟩ := if_pos fires
    simp [this, Block.Before]
  moves {n c skips b} works info hb waits goes := by
    rw [next_exBlock waits]
    split
    · rename_i hands
      have holds : t.regs.exReq = _ := inv.holds works info
      rw [holds, (next_block (inv.infoFits info) (h.ex works info)
        (inv.ex_goes works info goes hands)).2 b hb]
      simp [hands.1, hands.2]
    · rename_i still
      refine ⟨.inl, fun h => h.resolve_right ?_⟩
      rintro ⟨hands, comp, _⟩
      exact still ⟨hands, comp⟩
  ends {n c skips b} works info hb _ ended := by
    have holds : t.regs.exReq = _ := inv.holds works info
    have noSkip : t.regs.exReq.skip = false := by
      rw [holds]
      rfl
    simp only [State.slotsInput, State.done, noSkip, Bool.false_or, Bool.and_eq_true] at ended
    obtain ⟨⟨hands, comp⟩, wraps⟩ := ended
    rw [holds] at wraps
    exact (last_block (inv.infoFits info) (h.ex works info) wraps hb).imp_right
      fun here => ⟨hands, comp, here⟩
  notBefore _ _ _ here := by
    rw [here.2]
    exact Block.not_before_self _

end Tracked

end Gemmini.LoopMatmul
