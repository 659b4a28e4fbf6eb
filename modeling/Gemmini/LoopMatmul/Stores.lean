import Gemmini.LoopMatmul.Ordering

/-!
# Stores wait for the last accumulation

StC hands out the transfer of a group of blocks when the execute unit has left the loop or is beyond the
group at the last `k`.  The sums of the comparison have 16 bits, and while the latest loop configured is
a residual addition StC watches the load units instead.
-/

namespace Gemmini.LoopMatmul

/-- The last `k` of a loop. -/
def Cfg.lastK (c : Cfg) : ℕ := Odometer.limit 16 c.maxK - 1

/-- The command moves out the block `(i, j)` of C. -/
def Event.Stores (p : Params) (i j : ℕ) : Event → Prop
  | stC req cnt => cnt.i = i ∧ cnt.j ≤ j ∧ j < cnt.j + req.blocks p cnt
  | _ => False

/-- Every transfer of a group of blocks of loop `n` comes after the last compute for each of them. -/
def Tracked.StoresWait (p : Params) (t : Tracked) (n : ℕ) (c : Cfg) : Prop :=
  ∀ before req cnt after, t.log = before ++ (n, .stC req cnt) :: after →
    ∀ j, cnt.j ≤ j → j < cnt.j + req.blocks p cnt →
      (∃ e, (n, e) ∈ before ∧ e.Computes ⟨cnt.i, j, c.lastK⟩) ∧
        ∀ e, (n, e) ∈ after → ¬e.Computes ⟨cnt.i, j, c.lastK⟩

def Cfg.Short (p : Params) (c : Cfg) : Prop := 0 < c.maxJ ∧ c.maxJ + p.maxBlockLen ≤ 2 ^ 16

/-! ### The counters of StC -/

def Cfg.HasGroup (c : Cfg) (cnt : StCCounters) : Prop :=
  cnt.i < Odometer.limit 16 c.maxI ∧ cnt.j < Odometer.limit 16 c.maxJ

section Group

variable {p : Params} {c : Cfg} {b : ℕ} {cnt : StCCounters}

theorem Cfg.HasGroup.start : c.HasGroup ⟨0, 0, 0, 0, 0⟩ :=
  ⟨Odometer.limit_pos _ _, Odometer.limit_pos _ _⟩

theorem Cfg.HasGroup.next (fits : c.Fits) (h : c.HasGroup cnt) :
    c.HasGroup ((c.stCReq p false b).stNext p cnt) :=
  ⟨Odometer.floorAdd_lt fits.maxI, Odometer.Pair.next_y_lt fits.maxJ h.2⟩

theorem Cfg.HasGroup.blocks (short : c.Short p) (h : c.HasGroup cnt) :
    cnt.j + (c.stCReq p false b).blocks p cnt ≤ c.maxJ := by
  obtain ⟨pos, short⟩ := short
  have hj : cnt.j < c.maxJ := by simpa [Odometer.limit, pos.ne'] using h.2
  have len : (c.stCReq p false b).maxBlocks p ≤ p.maxBlockLen := by
    have : 1 ≤ p.maxBlockLen := le_max_right _ _
    simp only [StCReq.maxBlocks, maxBlocksOf]
    split
    · exact this
    · split <;> omega
  simp only [StCReq.blocks, blocksOf]
  rw [Nat.mod_eq_of_lt (by omega)]
  split
  · assumption
  · simp only [Cfg.stCReq, wire]
    omega

theorem Cfg.lastK_eq (fits : c.Fits) : wire 16 (c.maxK - 1) = c.lastK := by
  have := fits.maxK
  simp only [wire, Cfg.lastK, Odometer.limit]
  split <;> omega

end Group

namespace Tracked

variable {p : Params} {t : Tracked} {inp : Input} {n : ℕ} {c : Cfg} {skips : Stage → Bool}

def StInBounds (t : Tracked) : Prop :=
  ∀ n c skips, t.slots.WorksOn .stC n → t.infos[n]? = some (c, skips) → t.regs.stCPhase = .st →
    c.HasGroup t.regs.stCCounters

theorem StInBounds.next (h : t.StInBounds) (inv : t.Inv p) : (t.next p inp).StInBounds := by
  intro n c skips works info phase
  rcases Slots.Tracked.WorksOn.next_cases inv.slots inv.legal works with
    ⟨fires, takes⟩ | ⟨waits, goes, works⟩
  · have zero : (t.next p inp).regs.stCCounters = ⟨0, 0, 0, 0, 0⟩ := if_pos fires
    rw [zero]
    exact .start
  · have info := Inv.info_of_next (inv.lt_length works) info
    have holds : t.regs.stCReq = _ := inv.holds works info
    change t.regs.reqFire .stC = false at waits
    simp only [Tracked.next, State.next, waits, Bool.false_eq_true, if_false] at phase ⊢
    split
    · rename_i hands
      rw [if_pos hands] at phase
      -- a plain store stays one
      cases before : t.regs.stCPhase with
      | st =>
        simp only [State.stCNext, before]
        rw [holds]
        exact (h n c skips works info before).next (inv.infoFits info)
      | lnConfig => simp [State.stCNext, before] at phase
      | lnSt =>
        simp only [State.stCNext, before] at phase
        split at phase <;> cases phase
    · rename_i hands
      rw [if_neg hands] at phase
      exact h n c skips works info phase

theorem Inv.settled_of_store (inv : t.Inv p) (st : t.StInBounds)
    (hands : t.regs.hands p inp .stC = true) (works : t.slots.WorksOn .stC n)
    (info : t.infos[n]? = some (c, skips)) (phase : t.regs.stCPhase = .st) (short : c.Short p)
    {j : ℕ} (first : t.regs.stCCounters.j ≤ j)
    (last : j < t.regs.stCCounters.j + t.regs.stCReq.blocks p t.regs.stCCounters) :
    c.HasBlock ⟨t.regs.stCCounters.i, j, c.lastK⟩ ∧
      t.slots.Settled layout .ex (fun b : Block => b.Before t.regs.exBlock) n
        ⟨t.regs.stCCounters.i, j, c.lastK⟩ := by
  have fits := inv.infoFits info
  have group := st n c skips works info phase
  have holds : t.regs.stCReq = _ := inv.holds works info
  rw [holds] at last
  have reach := group.blocks short (b := t.regs.stCReq.addrStart)
  have block : c.HasBlock ⟨t.regs.stCCounters.i, j, c.lastK⟩ := by
    refine ⟨group.1, ?_, ?_⟩
    · simp only [Odometer.limit, short.1.ne', if_false]
      omega
    · have := Odometer.limit_pos 16 c.maxK
      simp only [Cfg.lastK]
      omega
  refine ⟨block, inv.needs works rfl, fun worksEx => ?_⟩
  have here : t.regs.away .ex .stC = false := by
    rw [← Bool.not_eq_true, inv.away_iff works, not_not]
    exact worksEx
  have ahead : t.regs.stCAhead p = true := by
    have := State.offers_of_hands hands
    simp only [State.offers, Bool.and_eq_true] at this
    exact this.2.1.2
  have sum : (t.regs.stCCounters.j + t.regs.stCReq.blocks p t.regs.stCCounters) % 2 ^ 16 =
      t.regs.stCCounters.j + t.regs.stCReq.blocks p t.regs.stCCounters := by
    have := fits.maxJ
    rw [holds]
    exact Nat.mod_eq_of_lt (by omega)
  have notResadd : t.regs.stCReq.isResadd = false := by
    rw [holds]
    rfl
  have hk : t.regs.stCReq.maxK = c.maxK := by
    rw [holds]
    rfl
  simp only [State.stCAhead, exAhead, notResadd, State.seenByStC, inv.matmul, here, sum, hk,
    Bool.false_eq_true, if_false, Bool.false_or, Bool.and_eq_true, Bool.or_eq_true, beq_iff_eq,
    decide_eq_true_eq, Cfg.lastK_eq fits] at ahead
  obtain ⟨⟨_, k⟩, row⟩ := ahead
  rw [← holds] at last reach
  refine .inr ⟨k.symm, ?_⟩
  simp only [wire] at row ⊢
  omega

def StRecorded (p : Params) (t : Tracked) : Prop :=
  ∀ n e i j c skips, (n, e) ∈ t.log → e.Stores p i j → t.infos[n]? = some (c, skips) → c.Short p →
    c.HasBlock ⟨i, j, c.lastK⟩ ∧
      t.slots.Settled layout .ex (fun b : Block => b.Before t.regs.exBlock) n ⟨i, j, c.lastK⟩

theorem unit_of_stores {s : State} {u : Unroller} {i j : ℕ} (h : (s.event u).Stores p i j) :
    u = .stC ∧ s.stCPhase = .st ∧ s.stCCounters.i = i ∧ s.stCCounters.j ≤ j ∧
      j < s.stCCounters.j + s.stCReq.blocks p s.stCCounters := by
  cases u <;> simp only [State.event] at h
  case stC =>
    split at h
    · exact ⟨rfl, ‹_›, h⟩
    · exact h.elim
    · exact h.elim
  case ex => split at h <;> exact h.elim
  all_goals exact h.elim

theorem StRecorded.next (h : t.StRecorded p) (inv : t.Inv p) (inside : t.InBounds p)
    (recorded : t.Recorded p) (st : t.StInBounds) : (t.next p inp).StRecorded p := by
  intro n e i j c skips mem stores info short
  have info := Inv.info_of_next (recorded.lt_of_mem_next inv mem) info
  have before : c.HasBlock ⟨i, j, c.lastK⟩ ∧
      t.slots.Settled layout .ex (fun b : Block => b.Before t.regs.exBlock) n ⟨i, j, c.lastK⟩ := by
    rw [log_next, List.mem_append] at mem
    rcases mem with old | new
    · exact h n e i j c skips old stores info short
    · obtain ⟨u, hands, works, rfl⟩ := handed_spec (Option.mem_toList.mp new)
      obtain ⟨rfl, phase, rfl, first, last⟩ := unit_of_stores stores
      exact inv.settled_of_store st hands works info phase short first last
  exact ⟨before.1, before.2.next inv.slots inv.legal (inside.walk_ex inv) info before.1⟩

def StOrdered (p : Params) (t : Tracked) : Prop :=
  ∀ n c skips, t.infos[n]? = some (c, skips) → c.Short p → ∀ i j,
    Slots.NoneAfter (fun a => a.1 = n ∧ a.2.Stores p i j)
      (fun a => a.1 = n ∧ a.2.Computes ⟨i, j, c.lastK⟩) t.log ∧
    (skips .ex = false → Slots.SomeBefore (fun a => a.1 = n ∧ a.2.Stores p i j)
      (fun a => a.1 = n ∧ a.2.Computes ⟨i, j, c.lastK⟩) t.log)

theorem StOrdered.next (ordered : t.StOrdered p) (h : t.StRecorded p) (inv : t.Inv p)
    (inside : t.InBounds p) (recorded : t.Recorded p) (st : t.StInBounds) :
    (t.next p inp).StOrdered p := by
  intro n c skips info short i j
  rcases Nat.lt_or_ge n t.infos.length with old | new
  · have info := Inv.info_of_next old info
    obtain ⟨none, some⟩ := ordered n c skips info short i j
    refine ⟨none.append ?_, fun notSkipped => (some notSkipped).append ?_⟩
    · rintro ⟨m, e⟩ handed ⟨rfl, computes⟩ ⟨m', e'⟩ mem ⟨rfl, stores⟩
      obtain ⟨v, hands, works, rfl⟩ := handed_spec handed
      obtain ⟨rfl, same⟩ := State.unit_of_executes computes.executes
      obtain ⟨hb, settled⟩ := h _ _ _ _ _ _ mem stores info short
      have comp : t.regs.exComp = true := by
        by_contra pre
        simp [State.event, pre, Event.Computes] at computes
      have walk : Slots.Walk t.slots (t.regs.slotsInput p inp) .ex _ _ _ _ _ _ :=
        inside.walk_ex inv
      exact walk.not_settled works info hb ⟨comp, same.symm⟩ settled
    · rintro ⟨m, e⟩ handed ⟨rfl, stores⟩
      obtain ⟨v, hands, works, rfl⟩ := handed_spec handed
      obtain ⟨rfl, phase, rfl, first, last⟩ := unit_of_stores stores
      obtain ⟨hb, settled⟩ := inv.settled_of_store st hands works info phase short first last
      obtain ⟨e, mem, computes⟩ := recorded.ex info notSkipped rfl hb trivial settled
      exact ⟨(_, e), mem, rfl, computes⟩
  · obtain ⟨none, some⟩ := recorded.nothing_yet inv new (·.Stores p i j) (·.Computes ⟨i, j, c.lastK⟩)
    exact ⟨none, fun _ => some⟩

theorem stOrdered_of_reachable (reach : (matmuls p).Reachable t) : t.StOrdered p := by
  suffices h : t.StInBounds ∧ t.StRecorded p ∧ t.StOrdered p from h.2.2
  refine reach.invariant (P := fun t => t.StInBounds ∧ t.StRecorded p ∧ t.StOrdered p)
    (fun t h => ?_) fun t inp reach ⟨st, recorded, ordered⟩ _ => ?_
  · obtain ⟨_, _, _, infos, _, _, _, log⟩ := h
    refine ⟨fun n c skips _ info => ?_, fun n e i j c skips mem => ?_, fun n c skips info => ?_⟩
    · simp [infos] at info
    · simp [log] at mem
    · simp [infos] at info
  · have sound := sound_of_reachable reach
    exact ⟨st.next sound.inv, recorded.next sound.inv sound.inside sound.recorded st,
      ordered.next recorded sound.inv sound.inside sound.recorded st⟩

end Tracked

/-- With matrix multiplications only, StC hands out a group of blocks only after the execute unit has
handed out the last compute for each of them, if the sums of the comparison do not overflow. -/
theorem stores_wait {p : Params} {t : Tracked} (reach : (matmuls p).Reachable t) {n : ℕ} {c : Cfg}
    {skips : Stage → Bool} (info : t.infos[n]? = some (c, skips)) (executes : skips .ex = false)
    (short : c.Short p) : t.StoresWait p n c := by
  intro before req cnt after split j first last
  obtain ⟨none, some⟩ := Tracked.stOrdered_of_reachable reach n c skips info short cnt.i j
  have stores : Event.Stores p cnt.i j (.stC req cnt) := ⟨rfl, first, last⟩
  refine ⟨?_, fun e mem computes => none _ _ _ split ⟨rfl, stores⟩ _ mem ⟨rfl, computes⟩⟩
  obtain ⟨⟨m, e⟩, mem, rfl, computes⟩ := some executes _ _ _ split ⟨rfl, stores⟩
  exact ⟨e, mem, computes⟩

def twoAccumulations (cycles : ℕ) : Tracked :=
  (matmuls smallParams).run (smallStart 1 1 2)
    (.flow (some ⟨.loopWs, 0, 0⟩) :: List.replicate cycles (.flow none))

theorem two_accumulations_wait : (twoAccumulations 9).log.length = 8 ∧
    ∃ c skips, (twoAccumulations 9).infos[0]? = some (c, skips) ∧
      (twoAccumulations 9).StoresWait smallParams 0 c := by
  have reach : (matmuls smallParams).Reachable (twoAccumulations 9) :=
    Machine.Reachable.run (M := matmuls smallParams)
      (.init (smallStart_init (by decide))) _ (by decide)
  obtain ⟨⟨c, skips⟩, info⟩ : ∃ x, (twoAccumulations 9).infos[0]? = some x :=
    Option.isSome_iff_exists.mp (by decide)
  have values : (twoAccumulations 9).infos[0]?.map (fun x => (x.1.maxJ, x.2 .ex)) =
      some (1, false) := by decide
  simp only [info, Option.map_some, Option.some.injEq, Prod.mk.injEq] at values
  have short : c.Short smallParams := by
    rw [Cfg.Short, values.1]
    decide
  exact ⟨by decide +kernel, c, skips, info, stores_wait reach info values.2 short⟩

/-- A block with two accumulations, and a residual addition configured four cycles later. -/
def resaddBehind : Tracked :=
  (machine smallParams).run (smallStart 1 1 2)
    [.stall (some ⟨.loopWs, 0, 0⟩), .stall none, .stall none, .stall none, .stall none,
      .stall (some ⟨.loopWs, 0, 4⟩), .stall none]

/-- A residual addition behind a product makes StC watch the load units, and the block is moved out
before anything has been computed. -/
theorem stored_before_computed : ∃ c skips, (machine smallParams).Reachable resaddBehind ∧
    resaddBehind.givens[0]? = some [⟨.loopWs, 0, 0⟩] ∧
    resaddBehind.infos[0]? = some (c, skips) ∧ skips .ex = false ∧ c.Short smallParams ∧
    c.act ≠ layernorm ∧ c.act ≠ softmax ∧ ¬resaddBehind.StoresWait smallParams 0 c := by
  have reach : (machine smallParams).Reachable resaddBehind :=
    Machine.Reachable.run (M := machine smallParams)
      (.init (smallStart_init (by decide))) _ (by decide)
  obtain ⟨⟨c, skips⟩, info⟩ : ∃ x, resaddBehind.infos[0]? = some x :=
    Option.isSome_iff_exists.mp (by decide)
  have values : resaddBehind.infos[0]?.map (fun x => (x.1.maxJ, x.1.maxK, x.1.act, x.2 .ex)) =
      some (1, 2, 0, false) := by decide
  simp only [info, Option.map_some, Option.some.injEq, Prod.mk.injEq] at values
  obtain ⟨hj, hk, act, ex⟩ := values
  have short : c.Short smallParams := by
    rw [Cfg.Short, hj]
    decide
  refine ⟨c, skips, reach, by decide, info, ex, short, by rw [act]; decide,
    by rw [act]; decide, fun waits => ?_⟩
  have last : c.lastK = 1 := by simp [Cfg.lastK, Odometer.limit, hk]
  have split : resaddBehind.log = resaddBehind.log.take 3 ++
      (0, .stC resaddBehind.regs.stCReq ⟨0, 0, 0, 0, 0⟩) :: [] := by decide +kernel
  obtain ⟨⟨e, mem, computes⟩, _⟩ := waits _ _ _ _ split 0 le_rfl (by decide +kernel)
  rw [last] at computes
  have none : ∀ a ∈ resaddBehind.log.take 3, ¬a.2.Computes ⟨0, 0, 1⟩ := by decide +kernel
  exact none _ mem computes

end Gemmini.LoopMatmul
