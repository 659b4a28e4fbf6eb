import Gemmini.ReservationStation.Hazards

/-!
# When the reservation station reports that it is idle

`io.busy` excepts a table that holds a single entry while `solitary_preload` is set: a preload that
waits for its compute will not touch any memory.  The flag only remembers which kind of command was
allocated last.
-/

namespace Gemmini.ReservationStation

variable {cfg : Config}

def empty (s : State cfg) : Bool := decide (∀ q i, (s.entries q i).valid = false)

def utilization (s : State cfg) : Nat :=
  (Finset.univ.filter fun slot : Slot cfg => (s.entries slot.1 slot.2).valid = true).card

/-- `io.busy`. -/
def busy (s : State cfg) : Bool := !empty s && !(utilization s == 1 && s.solitaryPreload)

/-- Command `n` is a preload, and no compute has been allocated since. -/
def AwaitsCompute (t : Tracked cfg) (n : Nat) : Prop :=
  ∃ x, t.log[n]? = some x ∧ x.cmd.funct = .preload ∧
    ∀ m y, n < m → t.log[m]? = some y → y.cmd.functIsCompute = false

/-- When a preload completes, its compute or a further preload has been allocated. -/
def PreloadsWait (t : Tracked cfg) (inp : Input cfg) : Prop :=
  ∀ i, inp.completed = some ⟨.ex, i⟩ → AwaitsCompute (t.next inp) (t.owner .ex i) →
    ∃ m y, t.owner .ex i < m ∧ (t.next inp).log[m]? = some y ∧ y.cmd.funct = .preload

/-! ### The history behind a slot and behind the flag -/

section Slots

variable {s : State cfg} {inp : Input cfg} {q : Queue} {i : Fin (cfg.entries q)}

theorem nextEntry_cmd : (nextEntry s inp q i).bits.cmd = (afterAlloc s inp q i).bits.cmd := by
  unfold nextEntry
  split <;> rfl

theorem nextEntry_completeOnIssue :
    (nextEntry s inp q i).bits.completeOnIssue = (afterAlloc s inp q i).bits.completeOnIssue := by
  unfold nextEntry
  split <;> rfl

end Slots

theorem slot_cmd {t : Tracked cfg} (reach : (machine cfg).Reachable t) :
    ∀ q i, (t.state.entries q i).valid = true → ∃ x, t.log[t.owner q i]? = some x ∧
      x.cmd = (t.state.entries q i).bits.cmd ∧
      x.completeOnIssue = (t.state.entries q i).bits.completeOnIssue := by
  apply reach.invariant
  · rintro t ⟨reset, _⟩ q i valid
    rw [reset.entries q i] at valid
    cases valid
  · intro t inp reach ih _ q i valid
    change (nextEntry t.state inp q i).valid = true at valid
    change ∃ x, (t.next inp).log[(t.next inp).owner q i]? = some x ∧
      x.cmd = (nextEntry t.state inp q i).bits.cmd ∧
      x.completeOnIssue = (nextEntry t.state inp q i).bits.completeOnIssue
    rw [nextEntry_cmd, nextEntry_completeOnIssue]
    obtain ⟨_, ⟨c, fires, _, _, new⟩ | ⟨old, _, same⟩⟩ := nextEntry_valid_cases valid
    · refine ⟨newEntry t.state c, ?_, by rw [new], by rw [new]⟩
      rw [Tracked.next_owner_of_fire fires, Tracked.next_log_of_fire fires,
        List.getElem?_concat_length]
    · obtain ⟨x, hx, hcmd, honIssue⟩ := ih q i old
      refine ⟨x, ?_, by rw [same, hcmd], by rw [same, honIssue]⟩
      rw [Tracked.next_owner_of_valid old,
        Tracked.next_log_getElem? ((inv_of_reachable reach).owner_lt old), hx]

theorem ex_not_completeOnIssue {t : Tracked cfg} (reach : (machine cfg).Reachable t)
    {i : Fin (cfg.entries .ex)} (valid : (t.state.entries .ex i).valid = true) :
    (t.state.entries .ex i).bits.completeOnIssue = false := by
  have inv := inv_of_reachable reach
  obtain ⟨x, hx, _, honIssue⟩ := slot_cmd reach .ex i valid
  obtain ⟨y, hy, holds⟩ := inv.holds .ex i valid
  obtain rfl : x = y := Option.some.inj (hx.symm.trans hy)
  obtain ⟨s, c, rfl⟩ := inv.recorded x (List.mem_of_getElem? hx)
  have isEx : c.q = .ex := holds.q_eq
  rw [← honIssue]
  simp [newEntry, isEx]

/-- The preload that `solitary_preload` remembers is in the table, the last one allocated, with no
compute after it. -/
def Remembered (t : Tracked cfg) : Prop :=
  ∃ i, (t.state.entries .ex i).valid = true ∧ AwaitsCompute t (t.owner .ex i) ∧
    ∀ m y, t.owner .ex i < m → t.log[m]? = some y → y.cmd.funct ≠ .preload

section Allocation

variable {t : Tracked cfg} {inp : Input cfg}

theorem next_solitaryPreload_of_none (quiet : allocFire t.state inp = none) :
    (t.next inp).state.solitaryPreload = t.state.solitaryPreload := by
  simp [Tracked.next, step, quiet]

theorem next_solitaryPreload_of_fire {q : Queue} {i : Fin (cfg.entries q)} {e : Entry cfg}
    (fires : allocFire t.state inp = some ⟨q, i, e⟩) :
    (t.next inp).state.solitaryPreload =
      if e.cmd.funct = .preload then true
      else if e.cmd.functIsCompute then false else t.state.solitaryPreload := by
  have hstep : (t.next inp).state.solitaryPreload = (configure t.state e.cmd).solitaryPreload := by
    simp [Tracked.next, step, fires]
  rw [hstep]
  unfold configure
  by_cases isConfig : e.cmd.isConfig = true
  · have hf : e.cmd.funct = .config := by simpa [Cmd.isConfig] using isConfig
    have notCompute : e.cmd.functIsCompute = false := by simp [Cmd.functIsCompute, hf]
    simp only [isConfig, hf, notCompute, if_true, reduceCtorEq, if_false, Bool.false_eq_true]
    split <;> [rfl; rfl; (split <;> rfl)]
  · rw [if_neg isConfig]
    split <;> [rfl; (split <;> rfl)]

theorem next_log_cases {m : Nat} {y : Entry cfg} (hy : (t.next inp).log[m]? = some y) :
    t.log[m]? = some y ∨ m = t.log.length ∧ ∃ q i, allocFire t.state inp = some ⟨q, i, y⟩ := by
  by_cases old : m < t.log.length
  · rw [Tracked.next_log_getElem? old] at hy
    exact .inl hy
  · cases ha : allocFire t.state inp with
    | none => exact .inl (by simpa [Tracked.next, ha] using hy)
    | some a =>
      obtain ⟨q, i, e⟩ := a
      rw [Tracked.next_log_of_fire ha] at hy
      have bound := (List.getElem?_eq_some_iff.mp hy).1
      rw [List.length_append, List.length_singleton] at bound
      obtain rfl : m = t.log.length := by omega
      rw [List.getElem?_concat_length] at hy
      exact .inr ⟨rfl, q, i, by rw [Option.some.inj hy]⟩

end Allocation

/-- A remembered preload stays remembered through a cycle that allocates neither a preload nor a
compute. -/
theorem Remembered.kept {t : Tracked cfg} {inp : Input cfg} (reach : (machine cfg).Reachable t)
    (waits : PreloadsWait t inp) (h : Remembered t)
    (other : ∀ q i e, allocFire t.state inp = some ⟨q, i, e⟩ →
      e.cmd.funct ≠ .preload ∧ e.cmd.functIsCompute = false) : Remembered (t.next inp) := by
  obtain ⟨i, valid, ⟨x, hx, isPreload, noCompute⟩, noPreload⟩ := h
  have bound := (inv_of_reachable reach).owner_lt valid
  have hx' : (t.next inp).log[t.owner .ex i]? = some x := by
    rw [Tracked.next_log_getElem? bound, hx]
  have noCompute' : ∀ m y, t.owner .ex i < m → (t.next inp).log[m]? = some y →
      y.cmd.functIsCompute = false := by
    intro m y younger hy
    rcases next_log_cases hy with hy | ⟨_, q, j, fires⟩
    · exact noCompute m y younger hy
    · exact (other q j y fires).2
  have noPreload' : ∀ m y, t.owner .ex i < m → (t.next inp).log[m]? = some y →
      y.cmd.funct ≠ .preload := by
    intro m y younger hy
    rcases next_log_cases hy with hy | ⟨_, q, j, fires⟩
    · exact noPreload m y younger hy
    · exact (other q j y fires).1
  have notCompleted : inp.completed ≠ some ⟨.ex, i⟩ := by
    intro done
    obtain ⟨m, y, younger, hy, preload⟩ := waits i done ⟨x, hx', isPreload, noCompute'⟩
    exact noPreload' m y younger hy preload
  refine ⟨i, ?_, ?_, ?_⟩
  · exact nextEntry_valid_of_valid valid notCompleted fun _ => ex_not_completeOnIssue reach valid
  · rw [Tracked.next_owner_of_valid valid]
    exact ⟨x, hx', isPreload, noCompute'⟩
  · rw [Tracked.next_owner_of_valid valid]
    exact noPreload'

theorem Remembered.allocated {t : Tracked cfg} {inp : Input cfg}
    (legal : CompletesIssued t.state inp) {q : Queue} {i : Fin (cfg.entries q)} {e : Entry cfg}
    (fires : allocFire t.state inp = some ⟨q, i, e⟩) (isPreload : e.cmd.funct = .preload) :
    Remembered (t.next inp) := by
  obtain ⟨c, -, rfl, rfl, -⟩ := allocFire_spec fires
  have isPreload : c.funct = .preload := isPreload
  have isEx : c.q = .ex := by simp [Cmd.q, Cmd.isLoad, Cmd.isStore, Cmd.isConfig, isPreload]
  revert i
  rw [isEx]
  intro i fires
  have last : ∀ m y, t.log.length < m → (t.next inp).log[m]? ≠ some y := by
    intro m y younger hy
    have bound := (List.getElem?_eq_some_iff.mp hy).1
    rw [Tracked.next_log_of_fire fires, List.length_append, List.length_singleton] at bound
    omega
  refine ⟨i, nextEntry_valid_of_fire legal fires, ?_, ?_⟩
  · refine ⟨newEntry t.state c, ?_, isPreload, ?_⟩
    · rw [Tracked.next_owner_of_fire fires, Tracked.next_log_of_fire fires,
        List.getElem?_concat_length]
    · rw [Tracked.next_owner_of_fire fires]
      exact fun m y younger hy => absurd hy (last m y younger)
  · rw [Tracked.next_owner_of_fire fires]
    exact fun m y younger hy => absurd hy (last m y younger)

/-- As long as preloads wait for their computes, the flag is set only while the preload it stands
for is in the table. -/
theorem remembered_of_solitaryPreload {t : Tracked cfg}
    (reach : ((machine cfg).restrict PreloadsWait).Reachable t)
    (flag : t.state.solitaryPreload = true) : Remembered t := by
  revert flag
  apply reach.invariant
  · rintro t ⟨reset, _⟩ flag
    rw [reset.solitaryPreload] at flag
    cases flag
  · rintro t inp reach ih ⟨legal, waits⟩ flag
    change (t.next inp).state.solitaryPreload = true at flag
    cases ha : allocFire t.state inp with
    | none =>
      rw [next_solitaryPreload_of_none ha] at flag
      exact (ih flag).kept reach.of_restrict waits (by simp [ha])
    | some a =>
      obtain ⟨q, i, e⟩ := a
      rw [next_solitaryPreload_of_fire ha] at flag
      split at flag
      · rename_i isPreload
        exact Remembered.allocated legal ha isPreload
      · rename_i notPreload
        split at flag
        · cases flag
        · rename_i notCompute
          refine (ih flag).kept reach.of_restrict waits fun p j e' fires => ?_
          cases ha.symm.trans fires
          exact ⟨notPreload, by simpa using notCompute⟩

/-! ### Idle -/

theorem eq_of_utilization {s : State cfg} (one : utilization s = 1) {a b : Slot cfg}
    (ha : (s.entries a.1 a.2).valid = true) (hb : (s.entries b.1 b.2).valid = true) : a = b := by
  obtain ⟨slot, only⟩ := Finset.card_eq_one.mp one
  have mem : ∀ c : Slot cfg, (s.entries c.1 c.2).valid = true → c = slot := by
    intro c hc
    apply Finset.mem_singleton.mp
    rw [← only, Finset.mem_filter]
    exact ⟨Finset.mem_univ c, hc⟩
  rw [mem a ha, mem b hb]

/-- In every run in which no preload leaves the table before its compute, or a further preload, has
been allocated: a reservation station that is not busy holds no entry but one preload whose compute
has not been allocated yet. -/
theorem idle_holds_only_waiting_preload {t : Tracked cfg}
    (reach : ((machine cfg).restrict PreloadsWait).Reachable t) (idle : busy t.state = false)
    (q : Queue) (i : Fin (cfg.entries q)) (valid : (t.state.entries q i).valid = true) :
    (t.state.entries q i).bits.cmd.funct = .preload ∧ AwaitsCompute t (t.owner q i) ∧
      ∀ p j, (t.state.entries p j).valid = true → (⟨p, j⟩ : Slot cfg) = ⟨q, i⟩ := by
  have notEmpty : empty t.state = false := by
    apply decide_eq_false
    intro none
    rw [none q i] at valid
    cases valid
  simp only [busy, notEmpty, Bool.not_false, Bool.true_and, Bool.not_eq_false', Bool.and_eq_true,
    beq_iff_eq] at idle
  obtain ⟨one, flag⟩ := idle
  obtain ⟨k, validK, awaits, _⟩ := remembered_of_solitaryPreload reach flag
  have same : (⟨q, i⟩ : Slot cfg) = ⟨.ex, k⟩ := eq_of_utilization one valid validK
  obtain ⟨rfl, same⟩ := Sigma.mk.inj same
  obtain rfl := eq_of_heq same
  obtain ⟨x, hx, hcmd, _⟩ := slot_cmd reach.of_restrict .ex i valid
  obtain ⟨y, hy, isPreload, _⟩ := id awaits
  obtain rfl : x = y := Option.some.inj (hx.symm.trans hy)
  refine ⟨hcmd ▸ isPreload, awaits, fun p j other => ?_⟩
  exact eq_of_utilization one (a := ⟨p, j⟩) other valid

def onePreload : List (Input smallConfig) :=
  [cycle (some ⟨.preload, operand 1 4 2, operand 1 4 4⟩) [] none]

theorem onePreload_waits : ((machine smallConfig).restrict PreloadsWait).LegalRun
    (resetTracked smallConfig) onePreload := by
  refine ⟨⟨by decide, ?_⟩, trivial⟩
  intro i done
  cases done

theorem idle_with_one_preload :
    let t := (machine smallConfig).run (resetTracked smallConfig) onePreload
    busy t.state = false ∧ (t.state.entries .ex ⟨0, by decide⟩).valid = true ∧
      (t.state.entries .ex ⟨0, by decide⟩).bits.cmd.funct = .preload := by
  have start : ((machine smallConfig).restrict PreloadsWait).Reachable
      (resetTracked smallConfig) := .init (resetTracked_init smallConfig)
  exact ⟨by decide, by decide,
    (idle_holds_only_waiting_preload (start.run onePreload onePreload_waits) (by decide) .ex
      ⟨0, by decide⟩ (by decide)).1⟩

/-- A preload without a destination, then a configuration, which lets it finish; when both have
completed, a load. -/
def preloadThenConfigThenLoad : List (Input smallConfig) :=
  [cycle (some ⟨.preload, operand 1 4 2, 0xffffffff⟩) [] none,
    cycle (some ⟨.config, 0, 0⟩) [.ex] none,
    cycle none [.ex] none,
    cycle none [] (some ⟨.ex, ⟨0, by decide⟩⟩),
    cycle none [] (some ⟨.ex, ⟨1, by decide⟩⟩),
    cycle (some ⟨.load, 0, operand 4 4 0⟩) [] none]

/-- The flag is still set, so the load that waits to be issued does not make the station busy. -/
theorem idle_with_pending_load :
    ∃ t : Tracked smallConfig, (machine smallConfig).Reachable t ∧ busy t.state = false ∧
      (t.state.entries .ld ⟨0, by decide⟩).valid = true ∧
      (t.state.entries .ld ⟨0, by decide⟩).bits.cmd.funct = .load ∧
      (t.state.entries .ld ⟨0, by decide⟩).bits.issued = false := by
  refine ⟨_, .run (.init (resetTracked_init smallConfig)) preloadThenConfigThenLoad (by decide), ?_⟩
  decide

end Gemmini.ReservationStation
