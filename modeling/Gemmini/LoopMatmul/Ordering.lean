import Gemmini.LoopMatmul.Progress

/-!
# The order of the commands of a loop

The execute unit compares its counters with those of the load units, the store unit with those of the
execute unit.
-/

namespace Gemmini.LoopMatmul

open Slots (SomeBefore NoneAfter)

namespace Event

/-- The command moves in the block `(i, k)` of A. -/
def WritesA (p : Params) (i k : ℕ) : Event → Prop
  | ldA req i' k' => req.Writes p i' k' i k
  | _ => False

/-- The command moves in the block `(k, j)` of B. -/
def WritesB (p : Params) (k j : ℕ) : Event → Prop
  | ldB req k' j' => req.Writes p k' j' k j
  | _ => False

/-- The command moves in the block `(i, j)` of D. -/
def WritesD (p : Params) (i j : ℕ) : Event → Prop
  | ldD req i' j' => req.Writes p i' j' i j
  | _ => False

def Executes (b : Block) : Event → Prop
  | preload _ b' => b' = b
  | compute _ b' => b' = b
  | _ => False

def Computes (b : Block) : Event → Prop
  | compute _ b' => b' = b
  | _ => False

instance (b : Block) : DecidablePred (Executes b)
  | preload _ b' => inferInstanceAs (Decidable (b' = b))
  | compute _ b' => inferInstanceAs (Decidable (b' = b))
  | ldA .. | ldB .. | ldD .. | stC .. | normConfig .. | normStC .. | stCSpad .. => isFalse id

instance (b : Block) : DecidablePred (Computes b)
  | compute _ b' => inferInstanceAs (Decidable (b' = b))
  | preload .. | ldA .. | ldB .. | ldD .. | stC .. | normConfig .. | normStC .. | stCSpad .. =>
    isFalse id

theorem Computes.executes {b : Block} {e : Event} (h : e.Computes b) : e.Executes b := by
  cases e <;> simp_all [Computes, Executes]

def Writes (p : Params) (u : Unroller) (x : ℕ × ℕ) (e : Event) : Prop :=
  match u with
  | .ldA => e.WritesA p x.1 x.2
  | .ldB => e.WritesB p x.2 x.1
  | _ => e.WritesD p x.1 x.2

end Event

def Unroller.piece (b : Block) : Unroller → ℕ × ℕ
  | .ldA => (b.i, b.k)
  | .ldB => (b.j, b.k)
  | _ => (b.i, b.j)

theorem Cfg.hasPiece_of_hasBlock {c : Cfg} {b : Block} {u : Unroller} (hi : 0 < c.maxI)
    (hj : 0 < c.maxJ) (hk : 0 < c.maxK) (load : u.isLoad = true) (hb : c.HasBlock b) :
    c.HasPiece u (u.piece b) := by
  rw [c.hasBlock_iff hi hj hk] at hb
  cases u <;> simp only [Unroller.isLoad, Bool.false_eq_true] at load <;>
    simp only [Cfg.HasPiece, Cfg.bounds, Unroller.piece] <;> omega

/-! ### What a transfer writes -/

section Writes

variable {p : Params} {s : State} {c : Cfg} {u : Unroller} {x : ℕ × ℕ}

theorem State.writes_iff (holds : s.Holds p c u) (load : u.isLoad = true) (fits : c.Fits)
    (inside : (s.pair p u).Within (c.bounds u).1 (c.bounds u).2) (hx : c.HasPiece u x) :
    (s.event u).Writes p u x ↔ (s.pair p u).At x.1 x.2 := by
  obtain ⟨x, y⟩ := x
  obtain ⟨dx, dy, x_lt, y_lt, x_dvd, y_dvd⟩ := inside
  cases u <;> simp only [Unroller.isLoad, Bool.false_eq_true] at load
  case ldA =>
    simp only [State.Holds] at holds
    simp only [State.pair, State.event, Event.Writes, Event.WritesA, LdAReq.Writes,
      LdAReq.counters, LdAReq.iBlocks, LdAReq.kBlocks, LdAReq.blocks, LdAReq.maxBlocks, LdAReq.row,
      LdAReq.col, LdAReq.maxCol, Odometer.Pair.At, Cfg.HasPiece, Cfg.bounds] at *
    have hi : s.ldA.req.maxI = c.maxI := by rw [holds]; rfl
    have hk : s.ldA.req.maxK = c.maxK := by rw [holds]; rfl
    cases transpose : s.ldA.req.transpose
    · simp only [transpose, hk, Bool.false_eq_true, if_false, Nat.div_one] at *
      rw [blocksOf_iff fits.maxK dy y_dvd y_lt hx.2]
    · simp only [transpose, hi, if_true, Nat.div_one] at *
      rw [blocksOf_iff fits.maxI dx x_dvd x_lt hx.1, and_comm]
  case ldB =>
    simp only [State.Holds] at holds
    simp only [State.pair, State.event, Event.Writes, Event.WritesB, LdBReq.Writes,
      LdBReq.counters, LdBReq.jBlocks, LdBReq.kBlocks, LdBReq.blocks, LdBReq.maxBlocks, LdBReq.row,
      LdBReq.col, LdBReq.maxCol, Odometer.Pair.At, Cfg.HasPiece, Cfg.bounds] at *
    have hj : s.ldB.req.maxJ = c.maxJ := by rw [holds]; rfl
    have hk : s.ldB.req.maxK = c.maxK := by rw [holds]; rfl
    cases transpose : s.ldB.req.transpose
    · simp only [transpose, hj, Bool.false_eq_true, if_false, Nat.div_one] at *
      rw [blocksOf_iff fits.maxJ dx x_dvd x_lt hx.1, and_comm]
    · simp only [transpose, hk, if_true, Nat.div_one] at *
      rw [blocksOf_iff fits.maxK dy y_dvd y_lt hx.2]
  case ldD =>
    simp only [State.Holds] at holds
    simp only [State.pair, State.event, Event.Writes, Event.WritesD, LdDReq.Writes,
      LdDReq.counters, LdDReq.blocks, LdDReq.maxBlocks, Odometer.Pair.At, Cfg.HasPiece, Cfg.bounds,
      Nat.div_one] at *
    have hj : s.ldD.req.maxJ = c.maxJ := by rw [holds]; rfl
    simp only [hj] at *
    rw [blocksOf_iff fits.maxJ dy y_dvd y_lt hx.2]

theorem State.unit_of_writes {v : Unroller} (load : u.isLoad = true)
    (h : (s.event v).Writes p u x) : v = u := by
  cases u <;> simp only [Unroller.isLoad, Bool.false_eq_true] at load <;> cases v <;>
    simp only [State.event, Event.Writes] at h <;> first | rfl | (split at h <;> exact h.elim) | exact h.elim

theorem State.unit_of_executes {v : Unroller} {b : Block} (h : (s.event v).Executes b) :
    v = .ex ∧ s.exBlock = b := by
  cases v <;> simp only [State.event] at h
  case ex => exact ⟨rfl, by split at h <;> exact h⟩
  case stC => split at h <;> exact h.elim
  all_goals exact h.elim

end Writes

/-! ### The log -/

namespace Tracked

variable {p : Params} {t : Tracked} {inp : Input}

theorem log_next (t : Tracked) : (t.next p inp).log = t.log ++ (t.handed p inp).toList := rfl

theorem handed_spec {x : ℕ × Event} (h : t.handed p inp = some x) :
    ∃ u, t.regs.hands p inp u = true ∧ t.slots.WorksOn u x.1 ∧ x.2 = t.regs.event u := by
  unfold handed at h
  split at h
  · rename_i ready
    simp only [Option.bind_eq_some_iff, Option.map_eq_some_iff] at h
    obtain ⟨u, chosen, n, serving, rfl⟩ := h
    have hands : t.regs.hands p inp u = true := by simp [State.hands, ready, chosen]
    exact ⟨u, hands, ⟨State.busy_of_hands hands, serving⟩, rfl⟩
  · cases h

theorem mem_log_next {u : Unroller} {n : ℕ} (hands : t.regs.hands p inp u = true)
    (works : t.slots.WorksOn u n) : (n, t.regs.event u) ∈ (t.next p inp).log := by
  simp only [State.hands, Bool.and_eq_true, beq_iff_eq] at hands
  have serving : t.serving u = some n := works.2
  simp [log_next, handed, hands.1, hands.2, serving]

def passed (p : Params) (t : Tracked) (u : Unroller) (x : ℕ × ℕ) : Prop :=
  (t.regs.pair p u).Passed x.1 x.2

/-- The blocks passed over are in the log, and those that the execute unit has worked on have been
loaded. -/
structure Recorded (p : Params) (t : Tracked) : Prop where
  bound : ∀ {n e}, (n, e) ∈ t.log → n < t.infos.length
  loads : ∀ {u}, u.isLoad = true → Slots.Covered layout t.slots u (fun c => c.HasPiece u)
    (fun c => c.active u) (t.passed p u) (fun e x => e.Writes p u x) t.log
  ex : Slots.Covered layout t.slots .ex Cfg.HasBlock (fun _ => True)
    (fun b => b.Before t.regs.exBlock) (fun e b => e.Computes b) t.log
  settled : ∀ {n e b c skips u}, (n, e) ∈ t.log → e.Executes b → t.infos[n]? = some (c, skips) →
    0 < c.maxI → 0 < c.maxJ → 0 < c.maxK → u.isLoad = true →
    c.HasBlock b ∧ t.slots.Settled layout u (t.passed p u) n (u.piece b)

theorem Recorded.init (h : (matmuls p).init t) : t.Recorded p := by
  obtain ⟨_, _, _, infos, _, _, _, log⟩ := h
  refine ⟨fun h => by simp [log] at h, fun _ => ?_, ?_, fun h => by simp [log] at h⟩ <;>
    exact fun info => by simp [slots, infos] at info

/-! ### The execute unit waits for the loads -/

theorem Inv.away_iff (inv : t.Inv p) {u v : Unroller} {n : ℕ} (works : t.slots.WorksOn v n) :
    t.regs.away u v = true ↔ ¬t.slots.WorksOn u n :=
  inv.slots.away_of_worksOn works

theorem Inv.begun (inv : t.Inv p) {u : Unroller} {n : ℕ} (works : t.slots.WorksOn u n) :
    t.slots.Begun u.stage n :=
  works.begun inv.slots

theorem Inv.not_skipped (inv : t.Inv p) {u : Unroller} {n : ℕ} {c : Cfg} {skips : Stage → Bool}
    (works : t.slots.WorksOn u n) (info : t.infos[n]? = some (c, skips)) :
    skips u.stage = false ∧ u.serves c = true := by
  obtain ⟨m, c', skips', serving, _, info', notSkipped, serves, _⟩ := inv.slots.working u works.1
  cases works.2.symm.trans serving
  cases info.symm.trans info'
  exact ⟨notSkipped, serves⟩

theorem passed_of_lt {q : Odometer.Pair} {mx my x y : ℕ} (inside : q.Within mx my)
    (ahead : y < q.y ∨ (q.y = y ∧ x < q.x)) : q.Passed x y := by
  obtain ⟨dx_pos, dy_pos, _, _, ⟨a, hx⟩, ⟨b, hy⟩⟩ := inside
  rcases ahead with row | ⟨rfl, column⟩
  · left
    rw [hy] at row ⊢
    rw [Nat.mul_div_cancel_left b dy_pos]
    exact Nat.div_lt_of_lt_mul row
  · right
    refine ⟨rfl, ?_⟩
    rw [hx] at column ⊢
    rw [Nat.mul_div_cancel_left a dx_pos]
    exact Nat.div_lt_of_lt_mul column

theorem InBounds.writes_iff (inside : t.InBounds p) (inv : t.Inv p) {n : ℕ} {c : Cfg} {skips : Stage → Bool}
    {u : Unroller} {x : ℕ × ℕ} (load : u.isLoad = true) (works : t.slots.WorksOn u n)
    (info : t.infos[n]? = some (c, skips)) (hx : c.HasPiece u x) :
    (t.regs.event u).Writes p u x ↔ (t.regs.pair p u).At x.1 x.2 := by
  have inner := Nat.zero_lt_of_lt hx.1
  have outer := Nat.zero_lt_of_lt hx.2
  have within := inside.loads load works info inner outer
  simp only [Odometer.limit, inner.ne', outer.ne', if_false] at within
  exact State.writes_iff (inv.holds works info) load (inv.infoFits info) within hx

section Log

variable (h : t.Recorded p) (inv : t.Inv p) (inside : t.InBounds p)
include h inv

theorem Recorded.lt_of_mem_next {n : ℕ} {e : Event} (mem : (n, e) ∈ (t.next p inp).log) :
    n < t.infos.length := by
  rw [log_next, List.mem_append] at mem
  rcases mem with old | new
  · exact h.bound old
  · obtain ⟨u, _, works, _⟩ := handed_spec (Option.mem_toList.mp new)
    exact inv.lt_length works

theorem Recorded.nothing_yet {n : ℕ} (new : t.infos.length ≤ n) (A B : Event → Prop) :
    NoneAfter (fun a => a.1 = n ∧ A a.2) (fun a => a.1 = n ∧ B a.2) (t.next p inp).log ∧
      SomeBefore (fun a => a.1 = n ∧ A a.2) (fun a => a.1 = n ∧ B a.2) (t.next p inp).log := by
  have none : ∀ before a after, (t.next p inp).log = before ++ a :: after → a.1 ≠ n := by
    rintro before ⟨m, e⟩ after split rfl
    have mem : (m, e) ∈ (t.next p inp).log := split ▸ List.mem_append_right _ List.mem_cons_self
    have := h.lt_of_mem_next inv mem
    omega
  exact ⟨fun before a after split used => absurd used.1 (none before a after split),
    fun before a after split used => absurd used.1 (none before a after split)⟩

include inside

section Gate

variable {n : ℕ} {c : Cfg} {skips : Stage → Bool} (works : t.slots.WorksOn .ex n)
  (info : t.infos[n]? = some (c, skips)) (hi : 0 < c.maxI) (hj : 0 < c.maxJ) (hk : 0 < c.maxK)
include works info hi hj hk

/-- Once the execute unit is at `k`, LdB has reached the rows `k` of B. -/
theorem Recorded.le_ldB (worksB : t.slots.WorksOn .ldB n) :
    t.regs.exBlock.k ≤ t.regs.ldB.outer := by
  by_contra behind
  have block := inside.ex works info
  -- the last block of the row before
  let b : Block := ⟨c.maxI - 1, c.maxJ - 1, t.regs.exBlock.k - 1⟩
  have hb : c.HasBlock b := by
    rw [c.hasBlock_iff hi hj hk] at block ⊢
    simp only [b]
    omega
  have before : b.Before t.regs.exBlock := .inl (by simp only [b]; omega)
  obtain ⟨notSkipped, serves⟩ := inv.not_skipped works info
  obtain ⟨e, mem, computes⟩ :=
    h.ex info notSkipped serves hb trivial ⟨inv.begun works, fun _ => before⟩
  have loaded := (h.settled (u := .ldB) mem computes.executes info hi hj hk rfl).2.2 worksB
  have within := inside.loads (u := .ldB) rfl worksB info hj hk
  simp only [Cfg.bounds, Odometer.limit, hj.ne', if_false] at within
  simp only [passed, Unroller.piece, Odometer.Pair.Passed, b] at loaded
  have last : (t.regs.pair p .ldB).x / (t.regs.pair p .ldB).dx ≤
      (c.maxJ - 1) / (t.regs.pair p .ldB).dx := Nat.div_le_div_right (by have := within.x_lt; omega)
  rcases loaded with row | ⟨_, column⟩
  · have := Nat.lt_of_div_lt_div row
    simp only [State.pair, LdBReq.counters] at this
    omega
  · omega

theorem Recorded.settled_of_hands (hands : t.regs.hands p inp .ex = true) {u : Unroller}
    (load : u.isLoad = true) :
    t.slots.Settled layout u (t.passed p u) n (u.piece t.regs.exBlock) := by
  refine ⟨inv.needs works (by cases u <;> simp_all [Unroller.isLoad] <;> rfl), fun worksU => ?_⟩
  have here : t.regs.away u .ex = false := by
    rw [← Bool.not_eq_true, inv.away_iff works, not_not]
    exact worksU
  have ahead : t.regs.ldAhead = true := by
    have := State.offers_of_hands hands
    simp only [State.offers, Bool.and_eq_true] at this
    exact this.2.1.2
  simp only [State.ldAhead, Bool.and_eq_true, Bool.or_eq_true, decide_eq_true_eq, beq_iff_eq]
    at ahead
  obtain ⟨⟨aheadA, aheadB⟩, aheadD⟩ := ahead
  have within := inside.loads load worksU info
  cases u <;> simp only [Unroller.isLoad, Bool.false_eq_true] at load
  case ldA =>
    simp only [here, Bool.false_eq_true, false_or] at aheadA
    exact passed_of_lt (within hi hk) aheadA
  case ldB =>
    have := h.le_ldB inv inside works info hi hj hk worksU
    simp only [here, Bool.false_eq_true, false_or] at aheadB
    refine passed_of_lt (within hj hk) ?_
    simp only [State.pair, LdBReq.counters, Unroller.piece]
    omega
  case ldD =>
    rw [here] at aheadD
    cases aheadD

end Gate

/-! ### One cycle of the log -/

theorem Recorded.next_loads {u : Unroller} (load : u.isLoad = true) :
    Slots.Covered layout (t.next p inp).slots u (fun c => c.HasPiece u) (fun c => c.active u)
      ((t.next p inp).passed p u) (fun e x => e.Writes p u x) (t.next p inp).log := by
  refine Slots.Covered.next (h.loads load) inv.slots inv.legal (inside.walk_load inv load)
    (List.subset_append_left _ _) ?_
  intro n c skips x works info hx hands here
  exact ⟨_, mem_log_next hands works, (inside.writes_iff inv load works info hx).mpr here⟩

theorem Recorded.next_ex :
    Slots.Covered layout (t.next p inp).slots .ex Cfg.HasBlock (fun _ => True)
      (fun b => b.Before (t.next p inp).regs.exBlock) (fun e b => e.Computes b)
      (t.next p inp).log := by
  refine Slots.Covered.next h.ex inv.slots inv.legal (inside.walk_ex inv)
    (List.subset_append_left _ _) ?_
  rintro n c skips b works info hb hands ⟨comp, rfl⟩
  exact ⟨_, mem_log_next hands works, by simp [State.event, comp, Event.Computes]⟩

theorem Recorded.next_settled {n : ℕ} {e : Event} {b : Block} {c : Cfg} {skips : Stage → Bool} {u : Unroller}
    (mem : (n, e) ∈ (t.next p inp).log) (executes : e.Executes b)
    (info : (t.next p inp).infos[n]? = some (c, skips)) (hi : 0 < c.maxI) (hj : 0 < c.maxJ)
    (hk : 0 < c.maxK) (load : u.isLoad = true) :
    c.HasBlock b ∧ (t.next p inp).slots.Settled layout u ((t.next p inp).passed p u) n
      (u.piece b) := by
  have before : ∀ (info : t.infos[n]? = some (c, skips)), c.HasBlock b ∧
      t.slots.Settled layout u (t.passed p u) n (u.piece b) := by
    intro info
    rw [log_next, List.mem_append] at mem
    rcases mem with old | new
    · exact h.settled old executes info hi hj hk load
    · obtain ⟨v, hands, works, rfl⟩ := handed_spec (Option.mem_toList.mp new)
      obtain ⟨rfl, rfl⟩ := State.unit_of_executes executes
      exact ⟨inside.ex works info, h.settled_of_hands inv inside works info hi hj hk hands load⟩
  have info := Tracked.Inv.info_of_next (h.lt_of_mem_next inv mem) info
  obtain ⟨hb, settled⟩ := before info
  exact ⟨hb, settled.next inv.slots inv.legal (inside.walk_load inv load) info
    (Cfg.hasPiece_of_hasBlock hi hj hk load hb)⟩

theorem Recorded.next : (t.next p inp).Recorded p :=
  ⟨fun mem => (h.lt_of_mem_next inv mem).trans_le (List.length_append ▸ Nat.le_add_right _ _),
    h.next_loads inv inside, h.next_ex inv inside, h.next_settled inv inside⟩

end Log

/-! ### Runs -/

/-- The commands for a block come after all transfers that write an operand of it, at least one if it is
loaded. -/
def Ordered (p : Params) (t : Tracked) : Prop :=
  ∀ n c skips u, t.infos[n]? = some (c, skips) → 0 < c.maxI → 0 < c.maxJ → 0 < c.maxK →
    u.isLoad = true → ∀ b,
    NoneAfter (fun a => a.1 = n ∧ a.2.Executes b) (fun a => a.1 = n ∧ a.2.Writes p u (u.piece b))
      t.log ∧
    (skips u.stage = false → c.active u → SomeBefore (fun a => a.1 = n ∧ a.2.Executes b)
      (fun a => a.1 = n ∧ a.2.Writes p u (u.piece b)) t.log)

theorem Ordered.next (ordered : t.Ordered p) (h : t.Recorded p) (inv : t.Inv p)
    (inside : t.InBounds p) : (t.next p inp).Ordered p := by
  intro n c skips u info hi hj hk load b
  rcases Nat.lt_or_ge n t.infos.length with old | new
  · have info := Inv.info_of_next old info
    obtain ⟨none, some⟩ := ordered n c skips u info hi hj hk load b
    refine ⟨none.append ?_, fun notSkipped act => (some notSkipped act).append ?_⟩
    · -- a block that has been worked on is settled, so no transfer for it goes out
      rintro ⟨m, e⟩ handed ⟨rfl, writes⟩ ⟨m', e'⟩ mem ⟨rfl, executes⟩
      obtain ⟨v, hands, works, rfl⟩ := handed_spec handed
      obtain rfl := State.unit_of_writes load writes
      obtain ⟨hb, settled⟩ := h.settled mem executes info hi hj hk load
      have piece := Cfg.hasPiece_of_hasBlock hi hj hk load hb
      have here := (inside.writes_iff inv load works info piece).mp writes
      have walk : Slots.Walk t.slots (t.regs.slotsInput p inp) v _ _ _ _ _ _ :=
        inside.walk_load inv load
      exact walk.not_settled works info piece here settled
    · rintro ⟨m, e⟩ handed ⟨rfl, executes⟩
      obtain ⟨v, hands, works, rfl⟩ := handed_spec handed
      obtain ⟨rfl, rfl⟩ := State.unit_of_executes executes
      have piece := Cfg.hasPiece_of_hasBlock hi hj hk load (inside.ex works info)
      have serves : u.serves c = true := by
        cases u <;> simp only [Unroller.isLoad, Bool.false_eq_true] at load <;> rfl
      obtain ⟨e, mem, writes⟩ := h.loads load info notSkipped serves piece act
        (h.settled_of_hands inv inside works info hi hj hk hands load)
      exact ⟨(_, e), mem, rfl, writes⟩
  · obtain ⟨none, some⟩ := h.nothing_yet inv new (·.Executes b) fun e => e.Writes p u (u.piece b)
    exact ⟨none, fun _ _ => some⟩

structure Sound (p : Params) (t : Tracked) : Prop where
  inv : t.Inv p
  inside : t.InBounds p
  recorded : t.Recorded p
  ordered : t.Ordered p

theorem sound_of_reachable (reach : (matmuls p).Reachable t) : t.Sound p := by
  refine reach.invariant (fun t h => ?_) fun t inp _ sound legal => ?_
  · refine ⟨.init h, .init h, .init h, fun n c skips u info => ?_⟩
    obtain ⟨_, _, _, infos, _⟩ := h
    simp [infos] at info
  · exact ⟨sound.inv.next legal.2, sound.inside.next sound.inv,
      sound.recorded.next sound.inv sound.inside,
      sound.ordered.next sound.recorded sound.inv sound.inside⟩

end Tracked

/-- The preload and the compute for a block go out only after every transfer that writes its blocks
of A, B and D: none comes later, and if the operand is loaded there is one before. -/
theorem execute_after_loads {p : Params} {t : Tracked} (reach : (matmuls p).Reachable t) {n : ℕ}
    {c : Cfg} {skips : Stage → Bool} (info : t.infos[n]? = some (c, skips)) (hi : 1 ≤ c.maxI)
    (hj : 1 ≤ c.maxJ) (hk : 1 ≤ c.maxK) {e : Event} {b : Block} {before after : List (ℕ × Event)}
    (split : t.log = before ++ (n, e) :: after) (executes : e.Executes b) :
    (∀ e', (n, e') ∈ after →
      ¬e'.WritesA p b.i b.k ∧ ¬e'.WritesB p b.k b.j ∧ ¬e'.WritesD p b.i b.j) ∧
    (skips .lda = false → c.aDramAddr ≠ 0 → ∃ e', (n, e') ∈ before ∧ e'.WritesA p b.i b.k) ∧
    (skips .ldb = false → c.bDramAddr ≠ 0 → ∃ e', (n, e') ∈ before ∧ e'.WritesB p b.k b.j) ∧
    (skips .ldd = false → c.dDramAddr ≠ 0 → ∃ e', (n, e') ∈ before ∧ e'.WritesD p b.i b.j) := by
  have ordered := (Tracked.sound_of_reachable reach).ordered n c skips
  have none : ∀ u : Unroller, u.isLoad = true → ∀ e', (n, e') ∈ after →
      ¬e'.Writes p u (u.piece b) := fun u load e' mem writes =>
    (ordered u info hi hj hk load b).1 _ _ _ split ⟨rfl, executes⟩ _ mem ⟨rfl, writes⟩
  have some : ∀ u : Unroller, u.isLoad = true → skips u.stage = false → c.active u →
      ∃ e', (n, e') ∈ before ∧ e'.Writes p u (u.piece b) := by
    intro u load notSkipped act
    obtain ⟨⟨m, e'⟩, mem, rfl, writes⟩ :=
      (ordered u info hi hj hk load b).2 notSkipped act _ _ _ split ⟨rfl, executes⟩
    exact ⟨e', mem, writes⟩
  exact ⟨fun e' mem => ⟨none .ldA rfl e' mem, none .ldB rfl e' mem, none .ldD rfl e' mem⟩,
    some .ldA rfl, some .ldB rfl, some .ldD rfl⟩

def threeBlocks (cycles : ℕ) : Tracked :=
  (matmuls smallParams).run (smallStart 1 1 3)
    (.flow (some ⟨.loopWs, 0, 0⟩) :: List.replicate cycles (.flow none))

/-- Two blocks are executed by the first seven commands, the third one by the tenth. -/
theorem third_block_after_loads : (threeBlocks 11).log.length = 10 ∧
    (∃ x ∈ (threeBlocks 11).log.take 7, x.2.Executes ⟨0, 0, 1⟩) ∧
    ∃ e, (0, e) ∈ (threeBlocks 11).log.take 9 ∧ e.WritesA smallParams 0 2 := by
  have reach : (matmuls smallParams).Reachable (threeBlocks 11) :=
    Machine.Reachable.run (M := matmuls smallParams)
      (.init (smallStart_init (by decide))) _ (by decide)
  obtain ⟨⟨c, skips⟩, info⟩ : ∃ x, (threeBlocks 11).infos[0]? = some x :=
    Option.isSome_iff_exists.mp (by decide)
  have values : (threeBlocks 11).infos[0]?.map (fun x => (x.1.maxI, x.1.maxJ, x.1.maxK, x.1.aDramAddr,
      x.2 .lda)) = some (1, 1, 3, 64, false) := by decide
  simp only [info, Option.map_some, Option.some.injEq, Prod.mk.injEq] at values
  obtain ⟨hi, hj, hk, ha, loads⟩ := values
  have split : (threeBlocks 11).log =
      (threeBlocks 11).log.take 9 ++ (0, (threeBlocks 10).regs.event .ex) :: [] := by decide +kernel
  have executes : ((threeBlocks 10).regs.event .ex).Executes ⟨0, 0, 2⟩ := by decide +kernel
  refine ⟨by decide +kernel, by decide +kernel, ?_⟩
  exact (execute_after_loads reach info hi.ge hj.ge (by omega) split executes).2.1 loads (by omega)

end Gemmini.LoopMatmul
