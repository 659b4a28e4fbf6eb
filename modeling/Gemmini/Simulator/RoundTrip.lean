import Gemmini.Simulator.Effects

/-!
# Moving a matrix in and out

A matrix in a local memory is cut into blocks of `DIM` columns, one below the other.  `mvout` hands
every row to `apply_norm`, also from the scratchpad.
-/

namespace Gemmini.Simulator

variable {hw : Hw} {sc : Scaling} {s : State}

/-- The row of column `c` in row `r` of a matrix. -/
def localRow (hw : Hw) (base r c : ℕ) : ℕ := base + r + c / hw.dim * hw.dim

/-- What a move reads at `a`, from a matrix at `src`: a move from address zero reads zeros. -/
def readFrom (d : ℕ → BitVec 8) (src a : ℕ) : BitVec 8 := if src = 0 then 0 else d (src + a)

/-- `d'` has the `width` bytes of each row of a matrix that is read from `d`, and is `d` otherwise. -/
structure Copied (rows width src srcStride dst dstStride : ℕ) (d d' : ℕ → BitVec 8) : Prop where
  bytes : ∀ r < rows, ∀ x < width, d' (dst + r * dstStride + x) = readFrom d src (r * srcStride + x)
  kept : ∀ a, (∀ r < rows, ∀ x < width, a ≠ dst + r * dstStride + x) → d' a = d a

def Apart (rows width stride : ℕ) : Prop :=
  ∀ r < rows, ∀ x < width, ∀ r' < rows, ∀ x' < width, r' * stride + x' = r * stride + x → r' = r ∧ x' = x

theorem copied_modifyGrid {rows width src srcStride dst dstStride : ℕ} {d : ℕ → BitVec 8}
    {f : ℕ → ℕ → BitVec 8} (apart : Apart rows width dstStride)
    (value : ∀ r < rows, ∀ x < width, f r x = readFrom d src (r * srcStride + x)) :
    Copied rows width src srcStride dst dstStride d
      (modifyGrid rows width (fun r x => dst + r * dstStride + x) (fun r x _ => f r x) d) where
  bytes r hr x hx := by
    rw [modifyGrid_at hr hx fun r' hr' x' hx' same => apart r hr x hx r' hr' x' hx' (by omega)]
    exact value r hr x hx
  kept a outside := modifyGrid_of_ne outside _ _

theorem apart_of_le {rows width stride : ℕ} (le : width ≤ stride) : Apart rows width stride := by
  intro r _ x hx r' _ x' hx' same
  have row : (r' * stride + x') / stride = (r * stride + x) / stride := congrArg (· / stride) same
  rw [Nat.mul_comm r', Nat.mul_comm r, Nat.mul_add_div (by omega), Nat.mul_add_div (by omega),
    Nat.div_eq_of_lt (by omega), Nat.div_eq_of_lt (by omega)] at row
  obtain rfl : r' = r := by omega
  omega

/-! ### Cells of the local memories -/

theorem cell_injective {base rows cols r c r' c' : ℕ} (shape : rows ≤ hw.dim ∨ cols ≤ hw.dim) (hr : r < rows)
    (hc : c < cols) (hr' : r' < rows) (hc' : c' < cols)
    (same : (localRow hw base r' c', c' % hw.dim) = (localRow hw base r c, c % hw.dim)) : r' = r ∧ c' = c := by
  simp only [localRow, Prod.mk.injEq] at same
  obtain ⟨row, col⟩ := same
  have split := Nat.div_add_mod' c hw.dim
  have split' := Nat.div_add_mod' c' hw.dim
  rcases shape with low | narrow
  · have mod : (r' + c' / hw.dim * hw.dim) % hw.dim = (r + c / hw.dim * hw.dim) % hw.dim := by
      congr 1
      omega
    rw [Nat.add_mul_mod_self_right, Nat.add_mul_mod_self_right, Nat.mod_eq_of_lt (by omega),
      Nat.mod_eq_of_lt (by omega)] at mod
    omega
  · rw [Nat.div_eq_of_lt (by omega), Nat.div_eq_of_lt (by omega)] at row
    rw [Nat.mod_eq_of_lt (by omega), Nat.mod_eq_of_lt (by omega)] at col
    omega

/-! ### Bytes of the accumulator -/

theorem readAcc_byte (d : ℕ → BitVec 8) (a : ℕ) {byte : ℕ} (hb : byte < 4) :
    (readAcc d a >>> (8 * byte)).setWidth 8 = d (a + byte) := by
  ext i hi
  interval_cases byte <;> simp [readAcc] <;> grind

theorem mvinAccValue_byte {id : ℕ} (src r x : ℕ) (wide : (s.load id).shrunk = false) :
    (s.mvinAccValue sc src id r (x / 4) >>> (8 * (x % 4))).setWidth 8 =
      readFrom s.dram src (r * (s.load id).stride + x) := by
  simp only [State.mvinAccValue, readFrom, wide, Bool.false_eq_true, if_false]
  split_ifs with zeros
  · simp
  · rw [readAcc_byte _ _ (Nat.mod_lt x (by decide)), add_assoc, add_assoc, mul_comm (x / 4), Nat.div_add_mod]

theorem writeAcc_row (a : ℕ) (v : ℕ → BitVec 32) (n : ℕ) (d : ℕ → BitVec 8) :
    forRange n (fun j => writeAcc (a + j * 4) (v j)) d =
      forRange (n * 4) (fun x => modify (a + x) fun _ => (v (x / 4) >>> (8 * (x % 4))).setWidth 8) d := by
  induction n with
  | zero => rfl
  | succ n ih =>
    rw [forRange_succ, ih, Nat.succ_mul, forRange_append]
    refine forRange_congr (fun byte hb d => ?_) _
    have word : (n * 4 + byte) / 4 = n := by omega
    have place : (n * 4 + byte) % 4 = byte := by omega
    rw [word, place, add_assoc]

/-! ### `mvout` without a normalization -/

def State.left (s : State) (norm : ℕ → Norm) (dram : ℕ → BitVec 8) (ok : Bool) : State :=
  { s with norm := norm, dram := dram, ok := ok }

theorem mvoutNorm_of_reset (hw : Hw) (sc : Scaling) (s : State) (base cols i : ℕ) : ∃ norm ok,
    s.mvoutNorm hw sc base cols i .reset = (s.left norm s.dram ok, true) ∧
      (ok = true ↔ s.ok = true ∧ ∀ j < cols, localRow hw base i j < hw.accRows) := by
  have blocks : ∃ norm ok, s.mvoutNorm hw sc base cols i .reset = (s.left norm s.dram ok, true) ∧
      (ok = true ↔ s.ok = true ∧ ∀ b < (cols + hw.dim - 1) / hw.dim, base + b * hw.dim + i < hw.accRows) := by
    unfold State.mvoutNorm
    refine forRange_inv (fun n (x : State × Bool) => ∃ norm ok, x = (s.left norm s.dram ok, true) ∧
      (ok = true ↔ s.ok = true ∧ ∀ b < n, base + b * hw.dim + i < hw.accRows))
      ⟨s.norm, s.ok, rfl, by simp⟩ fun n _ x before => ?_
    obtain ⟨norm, ok, rfl, iff⟩ := before
    have reset : (if n * hw.dim + hw.dim ≥ cols then NormCmd.reset else State.nonTerminating .reset) = .reset :=
      ite_self _
    simp only [reset]
    refine ⟨_, ok && decide (base + n * hw.dim + i < hw.accRows), rfl, ?_⟩
    rw [Bool.and_eq_true, iff, decide_eq_true_eq, and_assoc, Nat.forall_lt_succ_right]
  obtain ⟨norm, ok, eq, iff⟩ := blocks
  refine ⟨norm, ok, eq, iff.trans (and_congr_right fun _ => ?_)⟩
  have pos := hw.dim_pos
  refine ⟨fun room j hj => ?_, fun room b hb => ?_⟩
  · have block : j / hw.dim < (cols + hw.dim - 1) / hw.dim := by
      rw [Nat.div_lt_iff_lt_mul pos]
      have := Nat.lt_div_mul_add (a := cols + hw.dim - 1) pos
      omega
    have := room _ block
    rw [localRow]
    omega
  · have start : b * hw.dim < cols := by
      have := (Nat.le_div_iff_mul_le pos).mp (Nat.succ_le_of_lt hb)
      rw [Nat.succ_mul] at this
      omega
    have := room _ start
    rw [localRow, Nat.mul_div_cancel _ pos] at this
    omega

section Loops

variable {sp dst : ℕ} {put : ℕ → ℕ → (ℕ → BitVec 8) → ℕ → BitVec 8} {fits : ℕ → ℕ → Prop}
  [∀ i j, Decidable (fits i j)]
  -- each element is put by `put`, if it fits
  (elem : ∀ norm dram ok i j, (s.left norm dram ok).mvoutElem hw sc dst (field sp 0 26) i j (flag sp 31)
    (flag sp 29) = s.left norm (put i j dram) (ok && decide (fits i j)))

include elem

theorem mvoutElem_row (norm : ℕ → Norm) (dram : ℕ → BitVec 8) (ok : Bool) (i n : ℕ) : ∃ ok',
    forRange n (fun j t => t.mvoutElem hw sc dst (field sp 0 26) i j (flag sp 31) (flag sp 29))
        (s.left norm dram ok) = s.left norm (forRange n (put i) dram) ok' ∧
      (ok' = true ↔ ok = true ∧ ∀ j < n, fits i j) := by
  induction n with
  | zero => exact ⟨ok, rfl, by simp⟩
  | succ n ih =>
    obtain ⟨ok', eq, iff⟩ := ih
    refine ⟨ok' && decide (fits i n), ?_, ?_⟩
    · rw [forRange_succ, eq, elem, forRange_succ]
    · rw [Bool.and_eq_true, iff, decide_eq_true_eq, and_assoc, Nat.forall_lt_succ_right]

theorem mvout_loops (plain : s.pool.stride = 0) (cmd : field sp 26 3 = 0) : ∃ norm ok,
    s.mvout hw sc dst sp =
        s.left norm (forRange (field sp 48 16) (fun i => forRange (field sp 32 16) (put i)) s.dram) ok ∧
      (ok = true ↔ s.ok = true ∧ ∀ i < field sp 48 16, ∀ j < field sp 32 16,
        localRow hw (field sp 0 26) i j < hw.accRows ∧ fits i j) := by
  unfold State.mvout
  simp only [plain, if_true, cmd, NormCmd.decode]
  refine forRange_inv (fun n (t : State) => ∃ norm ok,
    t = s.left norm (forRange n (fun i => forRange (field sp 32 16) (put i)) s.dram) ok ∧
    (ok = true ↔ s.ok = true ∧ ∀ i < n, ∀ j < field sp 32 16,
      localRow hw (field sp 0 26) i j < hw.accRows ∧ fits i j))
    ⟨s.norm, s.ok, rfl, by simp⟩ fun i _ t before => ?_
  obtain ⟨norm, ok, rfl, iff⟩ := before
  generalize dram : forRange i (fun i => forRange (field sp 32 16) (put i)) s.dram = d
  obtain ⟨norm', ok', reset, iff'⟩ := mvoutNorm_of_reset hw sc (s.left norm d ok) (field sp 0 26)
    (field sp 32 16) i
  obtain ⟨ok'', row, iff''⟩ := mvoutElem_row elem norm' d ok' i (field sp 32 16)
  simp only [reset, if_true]
  refine ⟨norm', ok'', dram ▸ row, ?_⟩
  rw [iff'', iff', show (s.left norm d ok).ok = ok from rfl, iff, Nat.forall_lt_succ_right]
  simp only [forall_and]
  tauto

end Loops

section Out

variable (hw sc s) (dst : ℕ) {sp : ℕ} (plain : s.pool.stride = 0) (cmd : field sp 26 3 = 0)

include plain cmd

theorem mvout_spad (spad : flag sp 31 = false) :
    (s.mvout hw sc dst sp).dram = modifyGrid (field sp 48 16) (field sp 32 16)
        (fun r c => dst + r * s.storeStride + c)
        (fun r c _ => s.spad (localRow hw (field sp 0 26) r c, c % hw.dim)) s.dram ∧
      ((s.mvout hw sc dst sp).ok = true ↔ s.ok = true ∧ ∀ i < field sp 48 16, ∀ j < field sp 32 16,
        localRow hw (field sp 0 26) i j < hw.accRows ∧ localRow hw (field sp 0 26) i j < hw.spadRows) := by
  have elem (norm dram ok i j) : (s.left norm dram ok).mvoutElem hw sc dst (field sp 0 26) i j (flag sp 31)
      (flag sp 29) = s.left norm (modify (dst + i * s.storeStride + j)
        (fun _ => s.spad (localRow hw (field sp 0 26) i j, j % hw.dim)) dram)
        (ok && decide (localRow hw (field sp 0 26) i j < hw.spadRows)) := by
    simp only [State.mvoutElem, spad, Bool.false_eq_true, if_false, localRow, add_right_comm _ _ i]
    rfl
  obtain ⟨norm, ok, eq, iff⟩ := mvout_loops elem plain cmd
  rw [eq]
  exact ⟨rfl, iff⟩

theorem mvout_acc (acc : flag sp 31 = true) (full : flag sp 29 = true) (act : s.accAct = .none) :
    (s.mvout hw sc dst sp).dram = modifyGrid (field sp 48 16) (field sp 32 16 * 4)
        (fun r x => dst + r * s.storeStride + x)
        (fun r x _ => (s.accumulator (localRow hw (field sp 0 26) r (x / 4), x / 4 % hw.dim) >>>
          (8 * (x % 4))).setWidth 8) s.dram ∧
      ((s.mvout hw sc dst sp).ok = true ↔ s.ok = true ∧ ∀ i < field sp 48 16, ∀ j < field sp 32 16,
        localRow hw (field sp 0 26) i j < hw.accRows ∧ localRow hw (field sp 0 26) i j < hw.accRows) := by
  have elem (norm dram ok i j) : (s.left norm dram ok).mvoutElem hw sc dst (field sp 0 26) i j (flag sp 31)
      (flag sp 29) = s.left norm (writeAcc (dst + i * s.storeStride + j * 4)
        (s.accumulator (localRow hw (field sp 0 26) i j, j % hw.dim)) dram)
        (ok && decide (localRow hw (field sp 0 26) i j < hw.accRows)) := by
    have same (value : BitVec 32) : (s.left norm dram ok).applyPreActivationAcc sc value = value := by
      unfold State.applyPreActivationAcc State.left
      rw [act]
    simp only [State.mvoutElem, acc, full, if_true, same, localRow, add_right_comm _ _ i]
    rfl
  obtain ⟨norm, ok, eq, iff⟩ := mvout_loops elem plain cmd
  rw [eq]
  refine ⟨forRange_congr (fun r _ d => writeAcc_row _ (fun c => s.accumulator (localRow hw (field sp 0 26) r c,
    c % hw.dim)) _ d) _, iff⟩

end Out

/-! ### There and back -/

/-- What both moves need: no normalization, pooling or activation, one pixel in a row and blocks of
`DIM` columns, one below the other. -/
structure Moves (hw : Hw) (s : State) (id sp : ℕ) : Prop where
  ok : s.ok = true
  cmd : field sp 26 3 = 0
  pixels : (s.load id).pixelsPerRow = 1
  blockStride : (s.load id).blockStride = hw.dim
  pool : s.pool.stride = 0
  act : s.accAct = .none
  shape : field sp 48 16 ≤ hw.dim ∨ field sp 32 16 ≤ hw.dim

def Exist (hw : Hw) (sp limit : ℕ) : Prop :=
  ∀ r < field sp 48 16, ∀ c < field sp 32 16, localRow hw (field sp 0 26) r c < limit

section Moves

variable {id sp src : ℕ} (moves : Moves hw s id sp)

include moves

theorem Moves.base : field sp 0 29 = field sp 0 26 := by
  have cmd := moves.cmd
  unfold field at cmd ⊢
  omega

theorem Moves.mvin_spad (spad : flag sp 31 = false) (room : Exist hw sp hw.spadRows) :
    s.mvin hw sc src sp id = { s with
      spad := modifyGrid (field sp 48 16) (field sp 32 16)
        (fun r c => (localRow hw (field sp 0 26) r c, c % hw.dim))
        (fun r c _ => s.mvinValue sc src id r c) s.spad } := by
  unfold State.mvin
  simp only [spad, Bool.false_eq_true, if_false, moves.base, moves.pixels, moves.blockStride,
    mvinCells_eq]
  exact State.require_of (mvinFits_of room)

theorem Moves.mvin_acc (acc : flag sp 31 = true) (overwrite : flag sp 30 = false)
    (room : Exist hw sp hw.accRows) :
    s.mvin hw sc src sp id = { s with
      accumulator := modifyGrid (field sp 48 16) (field sp 32 16)
        (fun r c => (localRow hw (field sp 0 26) r c, c % hw.dim))
        (fun r c _ => s.mvinAccValue sc src id r c) s.accumulator } := by
  unfold State.mvin
  simp only [acc, overwrite, Bool.false_eq_true, if_false, if_true, moves.base, moves.pixels,
    moves.blockStride, mvinCells_eq]
  exact State.require_of (mvinFits_of room)

theorem Moves.cell_at {α : Type} {r c : ℕ} (hr : r < field sp 48 16) (hc : c < field sp 32 16)
    (f : ℕ → ℕ → α → α) (m : ℕ × ℕ → α) :
    modifyGrid (field sp 48 16) (field sp 32 16) (fun r c => (localRow hw (field sp 0 26) r c, c % hw.dim)) f m
      (localRow hw (field sp 0 26) r c, c % hw.dim) = f r c (m (localRow hw (field sp 0 26) r c, c % hw.dim)) :=
  modifyGrid_at hr hc (fun _ hr' _ hc' same => cell_injective moves.shape hr hc hr' hc' same) f m

theorem Moves.spad_iff {dst : ℕ} (spad : flag sp 31 = false) (room : Exist hw sp hw.spadRows)
    (identity : ∀ x, sc.mvinScale x (s.load id).scale = x)
    (apart : Apart (field sp 48 16) (field sp 32 16) s.storeStride) :
    (((s.mvin hw sc src sp id).mvout hw sc dst sp).ok = true ∧
        Copied (field sp 48 16) (field sp 32 16) src (s.load id).stride dst s.storeStride s.dram
          ((s.mvin hw sc src sp id).mvout hw sc dst sp).dram) ↔ Exist hw sp hw.accRows := by
  have loaded : s.mvin hw sc src sp id = _ := moves.mvin_spad spad room
  obtain ⟨dram, ok⟩ := mvout_spad hw sc (s.mvin hw sc src sp id) dst (by rw [loaded]; exact moves.pool)
    moves.cmd spad
  rw [dram, ok, loaded]
  refine ⟨fun copied r hr c hc => (copied.1.2 r hr c hc).1, fun below => ⟨⟨moves.ok, ?_⟩, ?_⟩⟩
  · intro r hr c hc
    exact ⟨below r hr c hc, room r hr c hc⟩
  · refine copied_modifyGrid apart fun r hr c hc => ?_
    refine (moves.cell_at hr hc (fun r c _ => s.mvinValue sc src id r c) s.spad).trans ?_
    rw [State.mvinValue, State.mvinScale, identity, saturate_signExtend, readFrom, add_assoc]

theorem Moves.acc_copied {dst : ℕ} (acc : flag sp 31 = true) (overwrite : flag sp 30 = false)
    (full : flag sp 29 = true) (wide : (s.load id).shrunk = false) (room : Exist hw sp hw.accRows)
    (apart : Apart (field sp 48 16) (field sp 32 16 * 4) s.storeStride) :
    ((s.mvin hw sc src sp id).mvout hw sc dst sp).ok = true ∧
      Copied (field sp 48 16) (field sp 32 16 * 4) src (s.load id).stride dst s.storeStride s.dram
        ((s.mvin hw sc src sp id).mvout hw sc dst sp).dram := by
  have loaded : s.mvin hw sc src sp id = _ := moves.mvin_acc acc overwrite room
  obtain ⟨dram, ok⟩ := mvout_acc hw sc (s.mvin hw sc src sp id) dst (by rw [loaded]; exact moves.pool)
    moves.cmd acc full (by rw [loaded]; exact moves.act)
  rw [dram, ok, loaded]
  refine ⟨⟨moves.ok, fun r hr c hc => ⟨room r hr c hc, room r hr c hc⟩⟩, ?_⟩
  refine copied_modifyGrid apart fun r hr x hx => ?_
  have cell := moves.cell_at (c := x / 4) hr (by omega) (fun r c _ => s.mvinAccValue sc src id r c) s.accumulator
  refine (congrArg (fun value : BitVec 32 => (value >>> (8 * (x % 4))).setWidth 8) cell).trans ?_
  exact mvinAccValue_byte src r x wide

end Moves

/-- Moving a matrix in and out copies it: through the scratchpad exactly if all its rows are also rows of
the accumulator, and through the accumulator always. -/
theorem moved_out_of_moved_in (hw : Hw) (sc : Scaling) (s : State) (id sp src dst : ℕ) (moves : Moves hw s id sp) :
    (flag sp 31 = false → (∀ x, sc.mvinScale x (s.load id).scale = x) → Exist hw sp hw.spadRows →
      Apart (field sp 48 16) (field sp 32 16) s.storeStride →
      ((((s.mvin hw sc src sp id).mvout hw sc dst sp).ok = true ∧
        Copied (field sp 48 16) (field sp 32 16) src (s.load id).stride dst s.storeStride s.dram
          ((s.mvin hw sc src sp id).mvout hw sc dst sp).dram) ↔ Exist hw sp hw.accRows)) ∧
    (flag sp 31 = true → flag sp 30 = false → flag sp 29 = true → (s.load id).shrunk = false →
      Exist hw sp hw.accRows → Apart (field sp 48 16) (field sp 32 16 * 4) s.storeStride →
      ((s.mvin hw sc src sp id).mvout hw sc dst sp).ok = true ∧
        Copied (field sp 48 16) (field sp 32 16 * 4) src (s.load id).stride dst s.storeStride s.dram
          ((s.mvin hw sc src sp id).mvout hw sc dst sp).dram) := by
  refine ⟨fun spad identity room apart => ?_, fun acc overwrite full wide room apart => ?_⟩
  · exact moves.spad_iff spad room identity apart
  · exact moves.acc_copied acc overwrite full wide room apart

/-- A fresh accelerator that is configured to move matrices whose rows are `64` bytes apart. -/
def configured : State := { fresh with load := fun _ => ⟨64, 16, false, 0, 1⟩, storeStride := 64 }

theorem configured_moves {sp : ℕ} (cmd : field sp 26 3 = 0) (shape : field sp 48 16 ≤ 16) :
    Moves gemminiParams configured 0 sp :=
  ⟨rfl, cmd, rfl, rfl, rfl, rfl, .inl shape⟩

/-- Two rows of `20` elements, in two blocks. -/
theorem two_blocks_copied :
    Moves gemminiParams configured 0 (packed 2 20 5) ∧
    Copied 2 20 16 64 4096 64 configured.dram
      ((configured.mvin gemminiParams unscaled 16 (packed 2 20 5) 0).mvout gemminiParams unscaled 4096
        (packed 2 20 5)).dram := by
  have moves : Moves gemminiParams configured 0 (packed 2 20 5) := configured_moves (by decide) (by decide)
  refine ⟨moves, ?_⟩
  have copied := (moved_out_of_moved_in _ unscaled _ _ _ 16 4096 moves).1 rfl (fun _ => rfl)
    (by unfold Exist; decide) (apart_of_le (by decide))
  exact (copied.mpr (by unfold Exist; decide)).2

/-- The scratchpad has a row `1024`, from which nothing can be moved out. -/
theorem spad_row_not_moved_out :
    Moves gemminiParams configured 0 (packed 1 1 1024) ∧ Exist gemminiParams (packed 1 1 1024) gemminiParams.spadRows ∧
      (configured.mvin gemminiParams unscaled 16 (packed 1 1 1024) 0).ok = true ∧
      ((configured.mvin gemminiParams unscaled 16 (packed 1 1 1024) 0).mvout gemminiParams unscaled 4096
        (packed 1 1 1024)).ok = false := by
  refine ⟨configured_moves (by decide) (by decide), by unfold Exist; decide, ?_, ?_⟩
  · decide
  · decide

end Gemmini.Simulator
