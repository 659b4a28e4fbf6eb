import Gemmini.ReservationStation.Ordering

/-!
# Hazards between the queues

What the dependency bits protect, in rows of the local memories.  Ranges that stop at the end of their
memory are ordered.  The part of a range that continues at row zero is not seen by `overlaps`, and the
source of a local move is lost with the `opb` field of its slot.
-/

namespace Gemmini.ReservationStation

variable {cfg : Config}

/-! ### Rows of a recorded range -/

/-- The recorded range covers row `n` of the accumulator or of the scratchpad. -/
def OpT.HasRow (g : Geometry) (r : OpT) (isAcc : Bool) (n : Nat) : Prop :=
  r.start.isGarbage g = false ∧ r.start.isAccAddr = isAcc ∧ n < 2 ^ g.addrBits isAcc ∧
    ((r.start.row g ≤ n ∧ (r.wrapsAround = true ∨ (r.stop.isAccAddr = isAcc ∧ n < r.stop.row g))) ∨
      (r.wrapsAround = true ∧ r.stop.isAccAddr = isAcc ∧ n < r.stop.row g))

instance (g : Geometry) (r : OpT) (isAcc : Bool) (n : Nat) : Decidable (r.HasRow g isAcc n) := by
  unfold OpT.HasRow
  infer_instance

def ShareRow (g : Geometry) (r r' : OpT) : Prop :=
  ∃ isAcc n, r.HasRow g isAcc n ∧ r'.HasRow g isAcc n

def OpT.PastEnd (g : Geometry) (r : OpT) : Prop :=
  r.wrapsAround = true ∧ r.stop.isAccAddr = r.start.isAccAddr ∧ 0 < r.stop.row g

instance (g : Geometry) (r : OpT) : Decidable (r.PastEnd g) := by
  unfold OpT.PastEnd
  infer_instance

theorem OpT.HasRow.start_le {g : Geometry} {r : OpT} {isAcc : Bool} {n : Nat}
    (h : r.HasRow g isAcc n) (within : ¬r.PastEnd g) :
    r.start.row g ≤ n ∧ (r.wrapsAround = true ∨ (r.stop.isAccAddr = isAcc ∧ n < r.stop.row g)) := by
  obtain ⟨_, memory, _, upper | ⟨wraps, stop, below⟩⟩ := h
  · exact upper
  · exact absurd ⟨wraps, stop.trans memory.symm, by omega⟩ within

theorem overlaps_of_shareRow {g : Geometry} {r r' : OpT} (share : ShareRow g r r')
    (within : ¬r.PastEnd g) (within' : ¬r'.PastEnd g) : r'.overlaps g r = true := by
  obtain ⟨isAcc, n, h, h'⟩ := share
  obtain ⟨low, high⟩ := h.start_le within
  obtain ⟨low', high'⟩ := h'.start_le within'
  obtain ⟨clean, memory, _, _⟩ := h
  obtain ⟨clean', memory', _, _⟩ := h'
  simp only [OpT.overlaps, clean, clean', Bool.or_self, Bool.not_false, Bool.and_true,
    Bool.or_eq_true, Bool.and_eq_true, LocalAddr.le_iff, LocalAddr.lt_iff]
  -- the range that starts later starts inside the other one
  rcases Nat.le_total (r.start.row g) (r'.start.row g) with order | order
  · refine .inl ⟨⟨memory.trans memory'.symm, order⟩, ?_⟩
    rcases high with wraps | ⟨stop, below⟩
    · exact .inr wraps
    · exact .inl ⟨memory'.trans stop.symm, by omega⟩
  · refine .inr ⟨⟨memory'.trans memory.symm, order⟩, ?_⟩
    rcases high' with wraps | ⟨stop, below⟩
    · exact .inr wraps
    · exact .inl ⟨memory.trans stop.symm, by omega⟩

/-! ### Command streams without local moves -/

def NoStoreSpad (inp : Input cfg) : Prop := ∀ c ∈ inp.alloc, c.funct ≠ .storeSpad

def RangesInMemory (t : Tracked cfg) (inp : Input cfg) : Prop :=
  ∀ a ∈ allocFire t.state inp,
    (a.2.2.opa.valid = true → ¬a.2.2.opa.bits.PastEnd cfg.geometry) ∧
      (a.2.2.opb.valid = true → ¬a.2.2.opb.bits.PastEnd cfg.geometry)

instance (inp : Input cfg) : Decidable (NoStoreSpad inp) :=
  inferInstanceAs (Decidable (∀ c ∈ inp.alloc, c.funct ≠ .storeSpad))

instance (t : Tracked cfg) (inp : Input cfg) : Decidable (RangesInMemory t inp) :=
  inferInstanceAs (Decidable (∀ a ∈ allocFire t.state inp, (_ → ¬_) ∧ (_ → ¬_)))

theorem RangesInMemory.not_pastEnd {t : Tracked cfg} {inp : Input cfg} (h : RangesInMemory t inp)
    {q : Queue} {i : Fin (cfg.entries q)} {e : Entry cfg}
    (ha : allocFire t.state inp = some ⟨q, i, e⟩) {r : OpT} (access : e.Accesses r) :
    ¬r.PastEnd cfg.geometry := by
  obtain ⟨opa, opb⟩ := h _ ha
  rcases access with ⟨valid, rfl⟩ | ⟨valid, rfl⟩
  · exact opa valid
  · exact opb valid

theorem newEntry_keeps {s : State cfg} {c : Cmd} (notMove : c.funct ≠ .storeSpad) {r : OpT}
    (h : (newEntry s c).Accesses r) : (newEntry s c).Keeps r := by
  rcases c with ⟨f, rs1, rs2⟩
  cases f <;>
    simp_all [Entry.Accesses, Entry.Keeps, newEntry, newOpa, newOpb, op1, op2, dst, Cmd.dstValid,
      Cmd.op1Valid, Cmd.op2Valid, Cmd.functIsCompute, Cmd.isConfig, Cmd.q, Cmd.isLoad, Cmd.isStore]

def streamMachine (cfg : Config) : Machine (Tracked cfg) (Input cfg) :=
  (machine cfg).restrict fun t inp => NoStoreSpad inp ∧ RangesInMemory t inp

instance (t : Tracked cfg) (inp : Input cfg) : Decidable ((streamMachine cfg).legal t inp) :=
  inferInstanceAs (Decidable (((machine cfg).restrict fun t inp =>
    NoStoreSpad inp ∧ RangesInMemory t inp).legal t inp))

/-- What holds of every command that is allocated holds of every command of the log. -/
theorem log_of_allocated {L : Tracked cfg → Input cfg → Prop} {P : Entry cfg → Prop}
    (new : ∀ t inp q i e, L t inp → allocFire t.state inp = some ⟨q, i, e⟩ → P e) {t : Tracked cfg}
    (reach : ((machine cfg).restrict L).Reachable t) : ∀ x ∈ t.log, P x := by
  apply reach.invariant
  · rintro t ⟨_, log, _, _⟩ x hx
    rw [log] at hx
    cases hx
  · rintro t inp _ ih ⟨_, legal⟩ x hx
    rcases List.mem_append.mp hx with old | allocated
    · exact ih x old
    · obtain ⟨⟨q, i, e⟩, ha, rfl⟩ := List.mem_map.mp allocated
      exact new t inp q i e legal (Option.mem_toList.mp ha)

theorem kept_of_reachable {t : Tracked cfg} (reach : (streamMachine cfg).Reachable t) :
    ∀ x ∈ t.log, ∀ r, x.Accesses r → x.Keeps r ∧ ¬r.PastEnd cfg.geometry := by
  refine log_of_allocated ?_ reach
  rintro t inp q i e ⟨notMove, inMemory⟩ ha r access
  refine ⟨?_, inMemory.not_pastEnd ha access⟩
  obtain ⟨c, offered, _, rfl, _⟩ := allocFire_spec ha
  exact newEntry_keeps (notMove c offered) access

theorem clash_of_conflict {t : Tracked cfg} (reach : (streamMachine cfg).Reachable t)
    {x y : Entry cfg} (hx : x ∈ t.log) (hy : y ∈ t.log)
    (conflict : ConflictBy (ShareRow cfg.geometry) x y) : Clash x y := by
  obtain ⟨r, r', access, share⟩ := conflict
  have kept := kept_of_reachable reach
  rcases access with ⟨writes, accesses⟩ | ⟨accesses, writes⟩
  · refine ⟨r, r', .inl ⟨writes, accesses⟩, ?_⟩
    exact overlaps_of_shareRow share (kept x hx r writes.accesses).2 (kept y hy r' accesses).2
  · refine ⟨r, r', .inr ⟨(kept x hx r accesses).1, writes⟩, ?_⟩
    exact overlaps_of_shareRow share (kept x hx r accesses).2 (kept y hy r' writes.accesses).2

/-! ### Small runs -/

/-- A scratchpad of eight rows and an accumulator of four, blocks of four rows, two slots a queue. -/
def smallConfig : Config where
  geometry := { spBanks := 2, spBankEntries := 4, accBanks := 2, accBankEntries := 2 }
  blockRows := 4
  blockCols := 4
  mvinColsBits := 5
  mvinRowsBits := 3
  mvoutColsBits := 5
  mvoutRowsBits := 3
  aStrideBits := 3
  cStrideBits := 3
  blockStrideBits := 3
  pixelRepeatsBits := 3
  hasFirstLayerOptimizations := true
  entriesLd := 2
  entriesEx := 2
  entriesSt := 2

def zeroAddr : LocalAddr := ⟨false, false, false, 0, false, 0⟩

def zeroRange : OpT := ⟨zeroAddr, zeroAddr, false⟩

def resetState (cfg : Config) : State cfg where
  entries q _ := ⟨false, ⟨q, false, ⟨false, zeroRange⟩, false, ⟨false, zeroRange⟩, false, false,
    ⟨.config, 0, 0⟩, fun _ _ => false⟩⟩
  aStride := 0
  cStride := 0
  aTranspose := false
  ldBlockStrides _ := 0
  poolingIsEnabled := false
  ldPixelRepeats _ := 0
  solitaryPreload := false

def resetTracked (cfg : Config) : Tracked cfg := ⟨resetState cfg, [], fun _ _ => 0, [], []⟩

theorem resetTracked_init (cfg : Config) : (machine cfg).init (resetTracked cfg) :=
  ⟨⟨fun _ _ => rfl, rfl, rfl, rfl, rfl, rfl, rfl, rfl⟩, rfl, rfl, rfl⟩

/-- A cycle that offers a command, accepts issues from the queues in `ready`, and may complete. -/
def cycle {cfg : Config} (alloc : Option Cmd) (ready : List Queue)
    (completed : Option (Slot cfg)) : Input cfg where
  alloc := alloc
  issueReady q := decide (q ∈ ready)
  completed := completed
  dontCare _ _ := zeroRange

def operand (rows cols addr : Nat) : BitVec 64 :=
  BitVec.ofNat 64 (rows * 2 ^ 48 + cols * 2 ^ 32 + addr)

/-! ### Ordered issue -/

/-- In every run without local moves whose recorded ranges stay in their memories: a command is
issued only after every older command of another queue that it conflicts with has completed, after
every older command of its own queue has been issued and, for a store, has completed. -/
theorem issued_after_conflicting_completed {t : Tracked cfg}
    (reach : (streamMachine cfg).Reachable t) (inp : Input cfg) {m n : Nat} (older : m < n) {x y : Entry cfg}
    (hx : t.log[m]? = some x) (hy : t.log[n]? = some y) (now : n ∈ t.issuedNow inp) :
    (x.q ≠ y.q → ConflictBy (ShareRow cfg.geometry) x y → m ∈ t.completed) ∧
      (x.q = y.q → m ∈ t.issued) ∧ (x.q = .st → y.q = .st → m ∈ t.completed) := by
  have inv := inv_of_reachable reach.of_restrict
  obtain ⟨completed, issued⟩ := inv.settled now older hx hy
  refine ⟨fun other conflict => completed (.inl ⟨other, ?_⟩), issued, fun stX stY => ?_⟩
  · exact clash_of_conflict reach (List.mem_of_getElem? hx) (List.mem_of_getElem? hy) conflict
  · exact completed (.inr ⟨stX.trans stY.symm, stX⟩)

/-- A load of row 2, then a preload that reads it: the load has completed when the preload goes. -/
def loadThenPreload : List (Input smallConfig) :=
  [cycle (some ⟨.load, 0, operand 1 4 2⟩) [] none,
    cycle (some ⟨.preload, operand 1 4 2, operand 1 4 4⟩) [.ld, .ex] none,
    cycle none [.ex] (some ⟨.ld, ⟨0, by decide⟩⟩)]

theorem preload_waits_for_load :
    let t := (streamMachine smallConfig).run (resetTracked smallConfig) loadThenPreload
    1 ∈ t.issuedNow (cycle none [.ex] none) ∧ 0 ∈ t.completed := by
  have reach := Machine.Reachable.run (M := streamMachine smallConfig) (.init (resetTracked_init smallConfig))
    loadThenPreload (by decide)
  refine ⟨by decide, (issued_after_conflicting_completed reach (cycle none [.ex] none)
    Nat.zero_lt_one rfl rfl (by decide)).1 (by decide) ?_⟩
  exact ⟨_, _, .inl ⟨⟨rfl, rfl, rfl⟩, .inr ⟨rfl, rfl⟩⟩, false, 2, by decide,
    by decide⟩

/-- A load of four rows at row 6 of 8, then a preload that reads row 0, which the load writes last. -/
def wrappingLoad : List (Input smallConfig) :=
  [cycle (some ⟨.load, 0, operand 4 4 6⟩) [] none,
    cycle (some ⟨.preload, operand 1 4 0, operand 1 4 4⟩) [] none]

/-- The preload is issued although the load has not even been issued. -/
theorem preload_overtakes_wrapping_load :
    ∃ (t : Tracked smallConfig) (inp : Input smallConfig) (x y : Entry smallConfig),
      ((machine smallConfig).restrict fun _ inp => NoStoreSpad inp).Reachable t ∧
        t.log[0]? = some x ∧ t.log[1]? = some y ∧ x.q ≠ y.q ∧
        ConflictBy (ShareRow smallConfig.geometry) x y ∧ 1 ∈ t.issuedNow inp ∧ 0 ∉ t.completed := by
  have reach := Machine.Reachable.run (M := (machine smallConfig).restrict fun _ inp => NoStoreSpad inp)
    (.init (resetTracked_init smallConfig)) wrappingLoad (by decide)
  refine ⟨_, cycle none [.ex] none, _, _, reach, rfl, rfl, by decide, ?_,
    by decide, by decide⟩
  exact ⟨_, _, .inl ⟨⟨rfl, rfl, rfl⟩, .inr ⟨rfl, rfl⟩⟩, false, 0, by decide,
    by decide⟩

/-! ### Local moves -/

/-- The new command writes no row of the source of a live local move, unless it also writes one of its
destination. -/
def SourcesCovered (t : Tracked cfg) (inp : Input cfg) : Prop :=
  ∀ a ∈ allocFire t.state inp, a.2.2.opaIsDst = true → a.1 ≠ .st →
    ∀ m x, t.log[m]? = some x → m ∉ t.completed → x.cmd.funct = .storeSpad →
      ShareRow cfg.geometry x.opb.bits a.2.2.opa.bits → ShareRow cfg.geometry x.opa.bits a.2.2.opa.bits

def moveMachine (cfg : Config) : Machine (Tracked cfg) (Input cfg) :=
  (machine cfg).restrict fun t inp => RangesInMemory t inp ∧ SourcesCovered t inp

theorem newEntry_storeSpad {s : State cfg} {c : Cmd} (move : c.funct = .storeSpad) :
    (newEntry s c).q = .st ∧ (newEntry s c).Writes (newEntry s c).opa.bits := by
  rcases c with ⟨f, rs1, rs2⟩
  cases move
  simp [Entry.Writes, newEntry, newOpa, dst, Cmd.dstValid, Cmd.q, Cmd.isLoad, Cmd.isStore,
    Cmd.isConfig]

theorem destination_or_completed_of_source {t : Tracked cfg} (reach : (moveMachine cfg).Reachable t) :
    ∀ m n x y, m < n → t.log[m]? = some x → t.log[n]? = some y → x.cmd.funct = .storeSpad →
      y.opaIsDst = true → y.q ≠ .st → ShareRow cfg.geometry x.opb.bits y.opa.bits →
      m ∈ t.completed ∨ ShareRow cfg.geometry x.opa.bits y.opa.bits := by
  apply reach.invariant
  · rintro t ⟨_, log, _, _⟩ m n x y _ hx
    simp [log] at hx
  · rintro t inp reach ih ⟨_, -, covered⟩ m n x y older hx hy move writes notStore share
    have monotone : ∀ k ∈ t.completed, k ∈ (t.next inp).completed :=
      fun k hk => List.mem_append_left _ hk
    change (t.next inp).log[m]? = some x at hx
    change (t.next inp).log[n]? = some y at hy
    have bound := (List.getElem?_eq_some_iff.mp hy).1
    by_cases old : n < t.log.length
    · rw [Tracked.next_log_getElem? (older.trans old)] at hx
      rw [Tracked.next_log_getElem? old] at hy
      exact (ih m n x y older hx hy move writes notStore share).imp_left (monotone m)
    · -- the younger command is the one allocated in this cycle
      cases ha : allocFire t.state inp with
      | none => simp [Tracked.next, ha] at bound; omega
      | some a =>
        obtain ⟨q, i, e⟩ := a
        rw [Tracked.next_log_of_fire ha] at hy bound
        rw [List.length_append, List.length_singleton] at bound
        obtain rfl : n = t.log.length := by omega
        rw [List.getElem?_concat_length] at hy
        obtain rfl := Option.some.inj hy
        rw [Tracked.next_log_getElem? older] at hx
        by_cases done : m ∈ t.completed
        · exact .inl (monotone m done)
        · obtain ⟨c, _, rfl, rfl, _⟩ := allocFire_spec ha
          exact .inr (covered _ ha writes notStore m x hx done move share)

/-- In every run whose recorded ranges stay in their memories and in which no write over the source of a
live local move escapes the move's destination: a load or preload is issued only after every older local
move whose source or whose destination it overwrites has completed. -/
theorem issued_after_local_move_completed {t : Tracked cfg} (reach : (moveMachine cfg).Reachable t)
    (inp : Input cfg) {m n : Nat} (older : m < n) {x y : Entry cfg} (hx : t.log[m]? = some x)
    (hy : t.log[n]? = some y) (move : x.cmd.funct = .storeSpad) {r : OpT} (writes : y.Writes r)
    (notStore : y.q ≠ .st) (now : n ∈ t.issuedNow inp)
    (hazard : ShareRow cfg.geometry x.opb.bits r ∨ ShareRow cfg.geometry x.opa.bits r) :
    m ∈ t.completed := by
  have inv := inv_of_reachable reach.of_restrict
  have within := log_of_allocated (P := fun e => ∀ r, e.Accesses r → ¬r.PastEnd cfg.geometry)
    (fun _ _ _ _ _ legal ha _ => legal.1.not_pastEnd ha) reach
  have accesses := writes.accesses
  obtain ⟨-, isDst, rfl⟩ := writes
  have covered : m ∈ t.completed ∨ ShareRow cfg.geometry x.opa.bits y.opa.bits :=
    hazard.elim (destination_or_completed_of_source reach m n x y older hx hy move isDst notStore) .inr
  refine covered.elim id fun share => ?_
  obtain ⟨s, c, rfl⟩ := inv.recorded x (List.mem_of_getElem? hx)
  obtain ⟨isStore, moved⟩ := newEntry_storeSpad (s := s) (c := c) move
  have overlap := overlaps_of_shareRow share
    (within _ (List.mem_of_getElem? hx) _ moved.accesses) (within y (List.mem_of_getElem? hy) _ accesses)
  apply (inv.settled now older hx hy).1
  exact .inl ⟨fun same => notStore (same.symm.trans isStore), _, _, .inl ⟨moved, accesses⟩, overlap⟩

def moveThenWideLoad : List (Input smallConfig) :=
  [cycle (some ⟨.storeSpad, operand 0 0 2, operand 2 4 0⟩) [] none,
    cycle (some ⟨.load, 0, operand 4 4 0⟩) [.st] none,
    cycle none [.ld] (some ⟨.st, ⟨0, by decide⟩⟩)]

theorem moveThenWideLoad_legal :
    (moveMachine smallConfig).LegalRun (resetTracked smallConfig) moveThenWideLoad := by
  refine ⟨⟨by decide, by decide, ?_⟩, ⟨by decide, by decide, ?_⟩,
    ⟨by decide, by decide, ?_⟩, trivial⟩
  · rintro a ha _ notStore
    obtain rfl := Option.some.inj (Eq.symm ha)
    exact absurd rfl notStore
  · rintro a ha _ _ m x hx _ _ _
    obtain rfl := Option.some.inj (Eq.symm ha)
    cases m with
    | zero =>
      obtain rfl := Option.some.inj hx
      exact ⟨false, 2, by decide, by decide⟩
    | succ m => cases hx
  · rintro a ha
    cases ha

theorem wide_load_waits_for_move :
    let t := (moveMachine smallConfig).run (resetTracked smallConfig) moveThenWideLoad
    1 ∈ t.issuedNow (cycle none [.ld] none) ∧ 0 ∈ t.completed := by
  have reach := Machine.Reachable.run (M := moveMachine smallConfig)
    (.init (resetTracked_init smallConfig)) _ moveThenWideLoad_legal
  refine ⟨by decide, issued_after_local_move_completed reach (cycle none [.ld] none)
    Nat.zero_lt_one rfl rfl rfl ⟨rfl, rfl, rfl⟩ (by decide) (by decide)
    (.inl ⟨false, 0, ?_, ?_⟩)⟩
  · decide
  · decide

def moveThenLoad : List (Input smallConfig) :=
  [cycle (some ⟨.storeSpad, operand 0 0 4, operand 2 4 0⟩) [] none,
    cycle (some ⟨.load, 0, operand 2 4 0⟩) [] none]

/-- The load is issued while the move, which still has to read those rows, waits to be issued. -/
theorem load_overtakes_local_move :
    ∃ (t : Tracked smallConfig) (inp : Input smallConfig) (x y : Entry smallConfig) (r : OpT),
      (machine smallConfig).Reachable t ∧ t.log[0]? = some x ∧ t.log[1]? = some y ∧
        x.cmd.funct = .storeSpad ∧ y.cmd.funct = .load ∧ y.Writes r ∧
        ShareRow smallConfig.geometry x.opb.bits r ∧ 1 ∈ t.issuedNow inp ∧ 0 ∉ t.completed := by
  refine ⟨_, cycle none [.ld] none, _, _, _,
    .run (.init (resetTracked_init smallConfig)) moveThenLoad (by decide), rfl, rfl, rfl, rfl, ⟨rfl, rfl, rfl⟩,
    ⟨false, 0, ?_, ?_⟩, by decide, by decide⟩
  · decide
  · decide

end Gemmini.ReservationStation
