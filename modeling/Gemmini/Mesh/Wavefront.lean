import Gemmini.Mesh.WithDelays

/-!
# Wavefronts

The registers between the tiles only delay: tile `(R, C)` sees the row that enters at `t` exactly `R + C
+ 1` tiles later.  Along these wavefronts the array takes a whole row at a time, which leaves as one
row, `depth` cycles later.
-/

namespace Gemmini.Mesh

variable {P : DelayParams} {Tag : Type}

def DelayParams.depth (P : DelayParams) : ℕ :=
  (P.meshRows + P.meshColumns - 1) * P.stages + P.outputDelay

def Down.Uniform (x : Down) : Prop := ∀ c, x.valid c = x.valid 0

/-- A gated line shows `y` where `x` entered: the same if there was a valid row. -/
structure Down.Shows (x y : Down) : Prop where
  valid : y.valid = x.valid
  id : y.id = x.id
  last : y.last = x.last
  row : x.valid 0 = true → y = x

theorem Down.Shows.refl (x : Down) : x.Shows x := ⟨rfl, rfl, rfl, fun _ => rfl⟩

theorem Down.capture_of_valid {old new : Down} (valid : ∀ c, new.valid c = true) :
    Down.capture old new = new := by
  cases new
  simp_all [Down.capture]

theorem Down.Shows.capture {x y : Down} (uniform : x.Uniform) (h : x.Shows y) (old : Down) :
    x.Shows (Down.capture old y) := by
  refine ⟨h.valid, h.id, h.last, fun valid => ?_⟩
  obtain rfl := h.row valid
  exact Down.capture_of_valid fun c => (uniform c).trans valid

theorem Down.Shows.tile {x y : Down} (h : x.Shows y) (P : Params) (pe : ℕ → ℕ → PE) (a : ℕ → ℤ) :
    (Tile.out P pe x a).Shows (Tile.out P pe y a) := by
  refine ⟨h.valid, h.id, h.last, fun valid => ?_⟩
  rw [h.row valid]

/-! ### The array row by row -/

abbrev Elements := ℕ → ℕ → ℕ → ℕ → PE

/-- What enters tile row `R` of tile column `C` when a whole row passes through the array at once. -/
def flow (P : Params) (G : Elements) (top : Down) (a : ℕ → ℕ → ℤ) (C : ℕ) : ℕ → Down
  | 0 => top
  | R + 1 => Tile.out P (G R C) (flow P G top a C R) (a R)

def absorb (P : Params) (G : Elements) (top : ℕ → Down) (a : ℕ → ℕ → ℤ) : Elements :=
  fun R C r c =>
    let x := flow P G (top C) a C R
    (G R C r c).next P (x.control c) true (a R r) (Tile.inB P (G R C) x (a R) c r)
      (Tile.inD P (G R C) x c r)

section Flow

variable (P : Params) (G : Elements) (top : Down) (a : ℕ → ℕ → ℤ) (C R : ℕ)

@[simp] theorem flow_valid : (flow P G top a C R).valid = top.valid := by
  induction R with
  | zero => rfl
  | succ R ih => exact ih

@[simp] theorem flow_id : (flow P G top a C R).id = top.id := by
  induction R with
  | zero => rfl
  | succ R ih => exact ih

@[simp] theorem flow_last : (flow P G top a C R).last = top.last := by
  induction R with
  | zero => rfl
  | succ R ih => exact ih

@[simp] theorem flow_control : (flow P G top a C R).control = top.control := by
  induction R with
  | zero => rfl
  | succ R ih => exact ih

end Flow

/-! ### Retiming -/

section Trace

variable {garbage : Tag} {accepts : Req Tag → Prop}

abbrev Run (P : DelayParams) {Tag : Type} (garbage : Tag) (accepts : Req Tag → Prop) :=
  (machine P garbage accepts).Trace

namespace Run

variable (τ : Run P garbage accepts)

/-- A row enters the array in cycle `t`. -/
def fire (t : ℕ) : Bool := (τ.state t).inputNextRow

/-- The processing elements as the row that enters at `t` finds them. -/
def wave (t : ℕ) : Elements :=
  fun R C r c => (τ.state (t + (R + C + 1) * P.stages)).grid.pe R C r c

theorem grid_next (t : ℕ) : (τ.state (t + 1)).grid =
    (τ.state t).grid.next P.toParams (τ.state t).inA (τ.state t).inDown := by
  rw [τ.step]
  rfl

theorem aIn_wave (t R C r : ℕ) :
    (τ.state (t + (R + C + 1) * P.stages)).grid.aIn P.toParams R C r = (τ.state t).rowA R r := by
  have skew : ∀ t, (τ.state (t + R * P.stages)).inA R r = (τ.state t).rowA R r := fun t =>
    Line.tap_shift (l := fun t => (τ.state t).skewA R r) (x := fun t => (τ.state t).rowA R r)
      (fun t => by rw [τ.step]; rfl) (R * P.stages) t
  induction C with
  | zero =>
    have hop := Line.tap_shift (l := fun t => (τ.state t).grid.aLine R 0 r)
      (x := fun t => (τ.state t).inA R r) (fun t => by rw [grid_next]; rfl) P.stages
      (t + R * P.stages)
    rw [show t + (R + 0 + 1) * P.stages = t + R * P.stages + P.stages by ring]
    exact hop.trans (skew t)
  | succ C ih =>
    have hop := Line.tap_shift (l := fun t => (τ.state t).grid.aLine R (C + 1) r)
      (x := fun t => (τ.state t).grid.aIn P.toParams R C r) (fun t => by rw [grid_next]; rfl)
      P.stages (t + (R + C + 1) * P.stages)
    rw [show t + (R + (C + 1) + 1) * P.stages = t + (R + C + 1) * P.stages + P.stages by ring]
    exact hop.trans ih

/-- The signals that enter tile `(R, C)` when the row of cycle `t` passes through at once. -/
def flowAt (t R C : ℕ) : Down :=
  flow P.toParams (τ.wave t) ((τ.state t).rowDown C) (τ.state t).rowA C R

theorem flowAt_uniform (t R C : ℕ) : (τ.flowAt t R C).Uniform := by
  intro c
  simp only [flowAt, flow_valid]
  rfl

theorem flowAt_valid (t R C c : ℕ) : (τ.flowAt t R C).valid c = τ.fire t := by
  simp only [flowAt, flow_valid]
  rfl

theorem inDown_skew (t C : ℕ) :
    (τ.state (t + C * P.stages)).inDown C = (τ.state t).rowDown C :=
  Line.tap_shift (l := fun t => (τ.state t).skewDown C) (x := fun t => (τ.state t).rowDown C)
    (fun t => by rw [τ.step]; rfl) (C * P.stages) t

theorem tileOut_wave {t R C : ℕ}
    (h : (τ.flowAt t R C).Shows ((τ.state (t + (R + C + 1) * P.stages)).grid.tileIn P.toParams R C)) :
    (τ.flowAt t (R + 1) C).Shows
      ((τ.state (t + (R + C + 1) * P.stages)).grid.tileOut P.toParams R C) := by
  have operands : (τ.state (t + (R + C + 1) * P.stages)).grid.aIn P.toParams R C =
      (τ.state t).rowA R := funext fun r => τ.aIn_wave t R C r
  have through := h.tile P.toParams ((τ.state (t + (R + C + 1) * P.stages)).grid.pe R C)
    ((τ.state t).rowA R)
  rw [Grid.tileOut, operands]
  exact through

/-- What enters the line above tile `(R, C)`. -/
def linkIn (t R C : ℕ) : Down :=
  match R with
  | 0 => (τ.state t).inDown C
  | R' + 1 => (τ.state t).grid.tileOut P.toParams R' C

theorem link_next (t R C : ℕ) : (τ.state (t + 1)).grid.link R C =
    Line.next Down.capture ((τ.state t).grid.link R C) (τ.linkIn t R C) := by
  rw [grid_next]
  cases R <;> rfl

theorem link_shows {R C t : ℕ} {x : Down} (uniform : x.Uniform)
    (enters : x.Shows (τ.linkIn t R C)) :
    x.Shows ((τ.state (t + P.stages)).grid.tileIn P.toParams R C) := by
  have related := Line.tap_related (A := fun y z => x.Shows y → x.Shows z)
    (l := fun t => (τ.state t).grid.link R C) (x := fun t => τ.linkIn t R C)
    (fun t => τ.link_next t R C) (fun y h => h) (fun y z old h hy => (h hy).capture uniform old)
    P.stages t
  exact related enters

theorem tileIn_wave (t R C : ℕ) : (τ.flowAt t R C).Shows
    ((τ.state (t + (R + C + 1) * P.stages)).grid.tileIn P.toParams R C) := by
  induction R with
  | zero =>
    rw [show t + (0 + C + 1) * P.stages = t + C * P.stages + P.stages by ring]
    apply τ.link_shows (τ.flowAt_uniform t 0 C)
    show Down.Shows _ ((τ.state (t + C * P.stages)).inDown C)
    rw [inDown_skew]
    exact Down.Shows.refl _
  | succ R ih =>
    rw [show t + (R + 1 + C + 1) * P.stages = t + (R + C + 1) * P.stages + P.stages by ring]
    apply τ.link_shows (τ.flowAt_uniform t (R + 1) C)
    exact τ.tileOut_wave ih

/-! Before the first wavefront no valid row is in the array. -/

theorem inDown_quiet {t C : ℕ} (early : t < C * P.stages) (c : ℕ) :
    ((τ.state t).inDown C).valid c = false := by
  refine Line.tap_initial (Q := fun x : Down => x.valid c = false)
    (l := fun t => (τ.state t).skewDown C) (x := fun t => (τ.state t).rowDown C)
    (f := fun _ y => y) (fun t => by rw [τ.step]; rfl) ?_ (fun _ _ h => h) early
  exact fun k => τ.init.skewDown C k c

theorem tileIn_valid {t : ℕ} (late : P.stages ≤ t) (R C c : ℕ) :
    ((τ.state t).grid.tileIn P.toParams R C).valid c =
      (τ.linkIn (t - P.stages) R C).valid c := by
  have related := Line.tap_related (A := fun y z : Down => z.valid c = y.valid c)
    (l := fun t => (τ.state t).grid.link R C) (x := fun t => τ.linkIn t R C)
    (fun t => τ.link_next t R C) (fun _ => rfl) (fun _ _ _ h => h) P.stages (t - P.stages)
  rw [Nat.sub_add_cancel late] at related
  exact related

theorem tileIn_powerOn {t : ℕ} (early : t < P.stages) (R C c : ℕ) :
    ((τ.state t).grid.tileIn P.toParams R C).valid c = false := by
  refine Line.tap_initial (n := P.stages) (Q := fun x : Down => x.valid c = false)
    (l := fun t => (τ.state t).grid.link R C) (x := fun t => τ.linkIn t R C)
    (fun t => τ.link_next t R C) ?_ (fun _ _ h => h) early
  exact fun k => τ.init.link R C k c

theorem tileIn_quiet {t R C : ℕ} (early : t < (R + C + 1) * P.stages) (c : ℕ) :
    ((τ.state t).grid.tileIn P.toParams R C).valid c = false := by
  induction R generalizing t with
  | zero =>
    rcases Nat.lt_or_ge t P.stages with start | late
    · exact τ.tileIn_powerOn start 0 C c
    · rw [tileIn_valid τ late]
      apply τ.inDown_quiet
      rw [Nat.zero_add, Nat.add_mul, Nat.one_mul] at early
      omega
  | succ R ih =>
    rcases Nat.lt_or_ge t P.stages with start | late
    · exact τ.tileIn_powerOn start (R + 1) C c
    · rw [tileIn_valid τ late]
      apply ih
      rw [show R + 1 + C + 1 = R + C + 1 + 1 by omega, Nat.add_mul, Nat.one_mul] at early
      omega

theorem pe_powerOn {t R C : ℕ} (early : t ≤ (R + C + 1) * P.stages) (r c : ℕ) :
    (τ.state t).grid.pe R C r c = (τ.state 0).grid.pe R C r c := by
  induction t with
  | zero => rfl
  | succ t ih =>
    rw [grid_next]
    show ((τ.state t).grid.pe R C r c).next _ _ _ _ _ _ = _
    rw [τ.tileIn_quiet (by omega) c, ← ih (by omega)]
    rfl

theorem wave_zero : τ.wave 0 = (τ.state 0).grid.pe := by
  funext R C r c
  exact τ.pe_powerOn (by omega) r c

/-- A row that enters changes the processing elements as if it passed through at once; without a row
nothing changes. -/
theorem wave_succ (t : ℕ) : τ.wave (t + 1) =
    if τ.fire t then absorb P.toParams (τ.wave t) (τ.state t).rowDown (τ.state t).rowA
    else τ.wave t := by
  funext R C r c
  have shows := τ.tileIn_wave t R C
  have operands : (τ.state (t + (R + C + 1) * P.stages)).grid.aIn P.toParams R C =
      (τ.state t).rowA R := funext fun r => τ.aIn_wave t R C r
  have valid : ((τ.state (t + (R + C + 1) * P.stages)).grid.tileIn P.toParams R C).valid c =
      τ.fire t := by
    rw [shows.valid, flowAt_valid]
  show (τ.state (t + 1 + (R + C + 1) * P.stages)).grid.pe R C r c = _
  rw [show t + 1 + (R + C + 1) * P.stages = t + (R + C + 1) * P.stages + 1 by omega, grid_next]
  show ((τ.state (t + (R + C + 1) * P.stages)).grid.pe R C r c).next _ _ _ _ _ _ = _
  rw [valid]
  cases enters : τ.fire t with
  | false => rfl
  | true =>
    rw [shows.row (by rw [flowAt_valid]; exact enters), operands]
    rfl

/-! ### Results -/

theorem outAt_wave (t C : ℕ) : (τ.flowAt t P.meshRows C).Shows
    ((τ.state (t + (P.meshRows + C) * P.stages + P.outputDelay)).grid.outAt P.toParams C) := by
  have delayed := Line.tap_shift (l := fun t => (τ.state t).grid.out C)
    (x := fun t => (τ.state t).grid.tileOut P.toParams (P.meshRows - 1) C)
    (fun t => by rw [grid_next]; rfl) P.outputDelay (t + (P.meshRows + C) * P.stages)
  have rows := P.meshRows_pos
  have bottom := τ.tileOut_wave (τ.tileIn_wave t (P.meshRows - 1) C)
  rw [show P.meshRows - 1 + C + 1 = P.meshRows + C by omega,
    Nat.sub_add_cancel (show 1 ≤ P.meshRows from rows)] at bottom
  rw [Grid.outAt, delayed]
  exact bottom

theorem depth_eq {C : ℕ} (hC : C < P.meshColumns) (t : ℕ) :
    t + P.depth = t + (P.meshRows + C) * P.stages + P.outputDelay +
      (P.meshColumns - 1 - C) * P.stages := by
  have split : P.meshRows + P.meshColumns - 1 = P.meshRows + C + (P.meshColumns - 1 - C) := by
    omega
  rw [DelayParams.depth, split, Nat.add_mul]
  omega

theorem mark_wave (t : ℕ) :
    (τ.state (t + P.depth)).mark =
      ⟨τ.fire t, (τ.state t).lastFire, (τ.state t).matmulId⟩ := by
  have delayed := Line.tap_shift (l := fun t => (τ.state t).skewMark)
    (x := fun t => (τ.state t).outMark) (fun t => by rw [τ.step]; rfl)
    ((P.meshColumns - 1) * P.stages) (t + (P.meshRows + 0) * P.stages + P.outputDelay)
  have shows := τ.outAt_wave t 0
  rw [depth_eq P.meshColumns_pos, Nat.sub_zero, State.mark, delayed, State.outMark, shows.valid,
    shows.id, shows.last]
  simp only [flowAt, flow_valid, flow_id, flow_last]
  rfl

theorem mark_quiet {t : ℕ} (early : t < P.depth) :
    (τ.state t).mark.valid = false := by
  have total : P.depth = P.meshRows * P.stages + P.outputDelay + (P.meshColumns - 1) * P.stages := by
    have := depth_eq P.meshColumns_pos 0
    simpa using this
  refine Line.tap_shift_cases (Q := fun x : Mark => x.valid = false)
    (l := fun t => (τ.state t).skewMark) (x := fun t => (τ.state t).outMark)
    (fun t => by rw [τ.step]; rfl) τ.init.skewMark fun _ => ?_
  refine Line.tap_shift_cases (Q := fun x : Down => x.valid 0 = false)
    (l := fun t => (τ.state t).grid.out 0)
    (x := fun t => (τ.state t).grid.tileOut P.toParams (P.meshRows - 1) 0)
    (fun t => by rw [grid_next]; rfl) (fun k => τ.init.out 0 k 0) fun _ => ?_
  have rows := P.meshRows_pos
  apply τ.tileIn_quiet
  rw [show P.meshRows - 1 + 0 + 1 = P.meshRows by omega]
  omega

/-! The dataflow bit below the first column selects what the array delivers. -/

theorem link_dataflow {m : Dataflow} {R s : ℕ} (marked : (τ.linkIn s R 0).valid 0 = true)
    (good : ∀ u, s ≤ u → ((τ.linkIn u R 0).control 0).dataflow = m) :
    ((τ.state (s + P.stages)).grid.tileIn P.toParams R 0).valid 0 = true ∧
      ∀ u, s + P.stages ≤ u →
        (((τ.state u).grid.tileIn P.toParams R 0).control 0).dataflow = m := by
  refine Line.tap_since (Q := fun x : Down => (x.control 0).dataflow = m)
    (V := fun x : Down => x.valid 0 = true) (l := fun t => (τ.state t).grid.link R 0)
    (x := fun t => τ.linkIn t R 0) (fun t => τ.link_next t R 0) good marked ?_ ?_ P.stages
  · rintro old y fine (valid | before)
    · simpa [Down.capture, valid] using fine
    · simp only [Down.capture]
      split_ifs
      · exact fine
      · exact before
  · exact fun old y valid => valid

variable {m : Dataflow} {t : ℕ} (fires : τ.fire t = true)
  (kept : ∀ u, t ≤ u → (τ.state u).req.control.dataflow = m)
include fires kept

theorem tileIn_dataflow (R : ℕ) :
    ((τ.state (t + (R + 1) * P.stages)).grid.tileIn P.toParams R 0).valid 0 = true ∧
      ∀ u, t + (R + 1) * P.stages ≤ u →
        (((τ.state u).grid.tileIn P.toParams R 0).control 0).dataflow = m := by
  induction R with
  | zero =>
    have top : ∀ u, τ.linkIn u 0 0 = (τ.state u).rowDown 0 := fun u => by
      have skew := τ.inDown_skew u 0
      rwa [Nat.zero_mul, Nat.add_zero] at skew
    rw [show t + (0 + 1) * P.stages = t + P.stages by ring]
    apply τ.link_dataflow
    · rw [top]
      exact fires
    · intro u hu
      rw [top]
      exact kept u hu
  | succ R ih =>
    rw [show t + (R + 1 + 1) * P.stages = t + (R + 1) * P.stages + P.stages by ring]
    exact τ.link_dataflow ih.1 ih.2

theorem outAt_dataflow {u : ℕ} (late : t + P.meshRows * P.stages + P.outputDelay ≤ u) :
    (((τ.state u).grid.outAt P.toParams 0).control 0).dataflow = m := by
  have rows := P.meshRows_pos
  have bottom := (τ.tileIn_dataflow fires kept (P.meshRows - 1)).2
  rw [Nat.sub_add_cancel (show 1 ≤ P.meshRows from rows)] at bottom
  have delayed := Line.tap_shift (l := fun t => (τ.state t).grid.out 0)
    (x := fun t => (τ.state t).grid.tileOut P.toParams (P.meshRows - 1) 0)
    (fun t => by rw [grid_next]; rfl) P.outputDelay (u - P.outputDelay)
  rw [Nat.sub_add_cancel (by omega)] at delayed
  rw [Grid.outAt, delayed]
  exact bottom _ (by omega)

theorem respData_wave {j : ℕ} (hj : j < P.blockSize) :
    (τ.state (t + P.depth)).respData j =
      match m with
      | .os => (τ.flowAt t P.meshRows (j / P.tileColumns)).d (j % P.tileColumns)
      | .ws => (τ.flowAt t P.meshRows (j / P.tileColumns)).b (j % P.tileColumns) := by
  have hC : j / P.tileColumns < P.meshColumns := by
    apply Nat.div_lt_of_lt_mul
    rwa [Nat.mul_comm, ← P.square]
  simp only [State.respData]
  generalize j / P.tileColumns = C at hC ⊢
  generalize j % P.tileColumns = c
  have delayed := Line.tap_shift (l := fun t => (τ.state t).skewData C c)
    (x := fun t => (τ.state t).outData C c) (fun t => by rw [τ.step]; rfl)
    ((P.meshColumns - 1 - C) * P.stages) (t + (P.meshRows + C) * P.stages + P.outputDelay)
  have row := (τ.outAt_wave t C).row (by rw [flowAt_valid]; exact fires)
  have select : (((τ.state (t + (P.meshRows + C) * P.stages + P.outputDelay)).grid.outAt
      P.toParams 0).control 0).dataflow = m := by
    apply τ.outAt_dataflow fires kept
    rw [Nat.add_mul]
    omega
  rw [depth_eq hC, delayed, State.outData, select, row]
  cases m <;> rfl

end Run

end Trace

/-- The register that is passed down in rows with `propagate` bit `q`. -/
def PE.reg (s : PE) (q : Bool) : ℤ := if q then s.c1 else s.c2

/-! ### One column of the array -/

/-- The processing element in row `i` and column `j` of the whole array. -/
def Elements.at (P : Params) (G : Elements) (i j : ℕ) : PE :=
  G (i / P.tileRows) (j / P.tileColumns) (i % P.tileRows) (j % P.tileColumns)

section Column

variable {P : Params} (G : Elements) (top : Down) (a : ℕ → ℕ → ℤ)

theorem Elements.at_tile {R C r c : ℕ} (hr : r < P.tileRows) (hc : c < P.tileColumns) :
    Elements.at P G (R * P.tileRows + r) (C * P.tileColumns + c) = G R C r c := by
  have rows : 0 < P.tileRows := by omega
  have columns : 0 < P.tileColumns := by omega
  unfold Elements.at
  rw [Nat.mul_comm R, Nat.mul_comm C, Nat.mul_add_div rows, Nat.mul_add_div columns,
    Nat.mul_add_mod, Nat.mul_add_mod, Nat.div_eq_of_lt hr, Nat.div_eq_of_lt hc,
    Nat.mod_eq_of_lt hr, Nat.mod_eq_of_lt hc, Nat.add_zero, Nat.add_zero]

theorem inD_eq {R C r c : ℕ} (hr : r < P.tileRows) (hc : c < P.tileColumns) :
    Tile.inD P (G R C) (flow P G top a C R) c r =
      if R * P.tileRows + r = 0 then top.d c
      else (Elements.at P G (R * P.tileRows + r - 1) (C * P.tileColumns + c)).outC P
        (top.control c) := by
  cases r with
  | succ r =>
    rw [if_neg (by omega), show R * P.tileRows + (r + 1) - 1 = R * P.tileRows + r by omega,
      Elements.at_tile G (by omega) hc]
    show (G R C r c).outC P ((flow P G top a C R).control c) = _
    rw [flow_control]
  | zero =>
    cases R with
    | zero => simp [Tile.inD, flow]
    | succ R =>
      obtain ⟨k, hk⟩ : ∃ k, P.tileRows = k + 1 := ⟨P.tileRows - 1, by omega⟩
      have above : (R + 1) * P.tileRows + 0 - 1 = R * P.tileRows + k := by
        rw [Nat.add_mul, Nat.one_mul]
        omega
      rw [if_neg (by rw [Nat.add_mul]; omega), above, Elements.at_tile G (by omega) hc]
      show Tile.inD P (G R C) (flow P G top a C R) c P.tileRows = _
      rw [hk]
      show (G R C k c).outC P ((flow P G top a C R).control c) = _
      rw [flow_control]

end Column

end Gemmini.Mesh
