import Gemmini.Conv.Functional
import Gemmini.Conv.InputLoader

/-!
# The moves of the input on the functional model

In a tile that is narrower than its left padding the padding is not cut off at the end of the tile, and
a move that repeats pixels also writes the rows before it.  All other moves fill rows of the tile, and
read only pixels of the input.
-/

namespace Gemmini.Conv.Functional

open LoopConv (Params)
open LoopConv.LdInput (offset_lt wire_natCast)
open LoopMatmul (wire)

variable {p : Params} {s : Regs}

/-- The sizes of the loops are small enough for their types, and fit together. -/
structure Plain (p : Params) (s : Regs) : Prop where
  block : 0 < p.blockSize
  chunk : p.maxBlockLen * p.blockSize ≤ 2 ^ 14
  batches_pos : 0 < s.batches
  batches_le : s.batches ≤ 2 ^ 14
  ichs_pos : 0 < ichs s
  ichs_le : ichs s ≤ 2 ^ 14
  cols : s.undilated s.lpad + icolsUnpadded s + s.undilated s.rpad = icols s
  rows : s.undilated s.upad + irowsUnpadded s + s.undilated s.dpad = irows s
  icols_pos : 0 < icols s
  irows_pos : 0 < irows s
  icols_le : icols s ≤ 2 ^ 14
  irows_le : irows s ≤ 2 ^ 14
  left_le : s.undilated s.lpad ≤ 2 ^ 14
  up_le : s.undilated s.upad ≤ 2 ^ 14
  downsample : s.downsample = true → 2 ∣ p.blockSize ∧ s.undilated s.lpad = 0 ∧
    2 ∣ s.undilated s.rpad ∧ 2 ∣ s.undilated s.upad ∧ 2 ∣ icolsUnpadded s ∧ 2 ∣ irows s

theorem Regs.undilated_nonneg (s : Regs) (x : ℕ) : 0 ≤ s.undilated x := Int.natCast_nonneg _

theorem sint16 {x : ℤ} (low : -2 ^ 15 ≤ x) (high : x < 2 ^ 15) : sint 16 x = x := sint_of_range low high

theorem start_eq {x : ℕ} (le : s.undilated x ≤ 2 ^ 14) : sint 16 (-s.undilated x) = -s.undilated x := by
  have nonneg := s.undilated_nonneg x
  exact sint16 (by omega) (by omega)

def outerSize (s : Regs) : ℤ := if s.transInput3120 then s.batches else ichs s
def innerSize (s : Regs) : ℤ := if s.transInput3120 then ichs s else s.batches

structure At (p : Params) (s : Regs) (b irow icol ich : ℤ) : Prop where
  b_nonneg : 0 ≤ b
  b_lt : b < s.batches
  ich_nonneg : 0 ≤ ich
  ich_lt : ich < ichs s
  irow_nonneg : 0 ≤ irow + s.undilated s.upad
  irow_lt : irow + s.undilated s.upad < irows s
  icol_nonneg : 0 ≤ icol + s.undilated s.lpad
  icol_lt : icol + s.undilated s.lpad < icols s
  outer : (p.blockSize : ℤ) ∣ if s.transInput3120 then b else ich
  even : s.downsample = true → 2 ∣ irow ∧ 2 ∣ icol
  /-- In a tile that is narrower than its left padding every move starts at a block. -/
  aligned : icols s < s.undilated s.lpad → (p.blockSize : ℤ) ∣ icol + s.undilated s.lpad

theorem At.outer_nonneg {b irow icol ich : ℤ} (at_x : At p s b irow icol ich) :
    0 ≤ if s.transInput3120 then b else ich := by
  have := at_x.b_nonneg
  have := at_x.ich_nonneg
  split_ifs <;> omega

theorem At.inner_nonneg {b irow icol ich : ℤ} (at_x : At p s b irow icol ich) :
    0 ≤ if s.transInput3120 then ich else b := by
  have := at_x.b_nonneg
  have := at_x.ich_nonneg
  split_ifs <;> omega

/-! ### The loops -/

theorem chunk_inv {n step x : ℤ} {fuel : ℕ} (le : n ≤ 2 ^ 14) (step_pos : 0 < step)
    (step_le : step ≤ 2 ^ 14) (whole : n ≤ step ∨ (p.blockSize : ℤ) ∣ step)
    (mem : x ∈ upTo n (fun y => sint 16 (y + step)) fuel 0) :
    0 ≤ x ∧ x < n ∧ (p.blockSize : ℤ) ∣ x := by
  have inv := upTo_inv (P := fun y => 0 ≤ y ∧ (y < n → (p.blockSize : ℤ) ∣ y))
    ⟨le_rfl, fun _ => dvd_zero _⟩ ?_ mem
  · exact ⟨inv.1.1, inv.2, inv.1.2 inv.2⟩
  · rintro y ⟨nonneg, start⟩ below
    rw [sint16 (by omega) (by omega)]
    refine ⟨by omega, fun more => ?_⟩
    rcases whole with whole | whole
    · omega
    · exact dvd_add (start below) whole

theorem single_inv {n x : ℤ} {fuel : ℕ} (le : n ≤ 2 ^ 14)
    (mem : x ∈ upTo n (fun y => sint 16 (y + 1)) fuel 0) : 0 ≤ x ∧ x < n := by
  apply upTo_inv le_rfl ?_ mem
  intro y nonneg below
  rw [sint16 (by omega) (by omega)]
  omega

namespace Plain

variable (plain : Plain p s)
include plain

theorem block_pos : (0 : ℤ) < p.blockSize := by exact_mod_cast plain.block

theorem outerSize_pos : 0 < outerSize s := by
  have := plain.batches_pos
  have := plain.ichs_pos
  unfold outerSize
  split_ifs <;> omega

theorem maxChsPerMvin_cases : 0 < maxChsPerMvin p s ∧ maxChsPerMvin p s ≤ 2 ^ 14 ∧
    (outerSize s ≤ maxChsPerMvin p s ∨ (p.blockSize : ℤ) ∣ maxChsPerMvin p s) := by
  have pos := plain.outerSize_pos
  have full : 0 < p.maxBlockLen * p.blockSize :=
    Nat.mul_pos (LoopConv.LdInput.maxBlockLen_pos p) plain.block
  have narrow := plain.chunk
  have choice : maxChsPerMvin p s = sint 16 (if outerSize s < p.maxBlockLen * p.blockSize then
      outerSize s else p.maxBlockLen * p.blockSize) := rfl
  rw [choice]
  split_ifs with small
  · rw [sint16 (by omega) (by omega)]
    exact ⟨by omega, by omega, .inl le_rfl⟩
  · rw [sint16 (by omega) (by omega)]
    exact ⟨by omega, by omega, .inr (dvd_mul_left _ _)⟩

theorem batchLoop_inv {b : ℤ} (mem : b ∈ batchLoop p s) :
    0 ≤ b ∧ b < s.batches ∧ (s.transInput3120 = true → (p.blockSize : ℤ) ∣ b) := by
  obtain ⟨step_pos, step_le, whole⟩ := plain.maxChsPerMvin_cases
  have le := plain.batches_le
  unfold batchLoop at mem
  cases trans : s.transInput3120
  · simp only [trans, Bool.false_eq_true, if_false] at mem
    obtain ⟨nonneg, lt⟩ := single_inv (by omega) mem
    exact ⟨nonneg, lt, fun no => nomatch no⟩
  · simp only [outerSize, trans, if_true] at mem whole
    obtain ⟨nonneg, lt, start⟩ := chunk_inv (by omega) step_pos step_le whole mem
    exact ⟨nonneg, lt, fun _ => start⟩

theorem channelLoop_inv {ich : ℤ} (mem : ich ∈ channelLoop p s) :
    0 ≤ ich ∧ ich < ichs s ∧ (s.transInput3120 = false → (p.blockSize : ℤ) ∣ ich) := by
  obtain ⟨step_pos, step_le, whole⟩ := plain.maxChsPerMvin_cases
  have le := plain.ichs_le
  unfold channelLoop at mem
  cases trans : s.transInput3120
  · simp only [outerSize, trans, Bool.false_eq_true, if_false] at mem whole
    obtain ⟨nonneg, lt, start⟩ := chunk_inv le step_pos step_le whole mem
    exact ⟨nonneg, lt, fun _ => start⟩
  · simp only [trans, if_true] at mem
    obtain ⟨nonneg, lt⟩ := single_inv le mem
    exact ⟨nonneg, lt, fun no => nomatch no⟩

theorem rowLoop_inv {irow : ℤ} (mem : irow ∈ rowLoop s) :
    0 ≤ irow + s.undilated s.upad ∧ irow + s.undilated s.upad < irows s ∧
      (s.downsample = true → 2 ∣ irow) := by
  have rows := plain.rows
  have le := plain.irows_le
  have up := s.undilated_nonneg s.upad
  have up_le := plain.up_le
  have step : (2 : ℤ) ^ s.downsample.toNat = 1 ∨ (2 : ℤ) ^ s.downsample.toNat = 2 := by
    cases s.downsample <;> simp
  have inv := upTo_inv (P := fun y => 0 ≤ y + s.undilated s.upad ∧ (s.downsample = true → 2 ∣ y))
    ?_ ?_ mem
  · exact ⟨inv.1.1, by omega, inv.1.2⟩
  · rw [start_eq plain.up_le]
    refine ⟨by omega, fun ds => ?_⟩
    obtain ⟨-, -, -, even, -⟩ := plain.downsample ds
    omega
  · rintro y ⟨nonneg, even⟩ below
    rw [sint16 (by omega) (by omega)]
    refine ⟨by omega, fun ds => ?_⟩
    have := even ds
    simp only [ds, Bool.toNat_true, pow_one]
    omega

theorem pixels_spec {icol : ℤ} (nonneg : 0 ≤ icol + s.undilated s.lpad)
    (lt : icol + s.undilated s.lpad < icols s) :
    0 < pixels p s icol ∧ pixels p s icol ≤ 2 ^ 14 ∧
      (0 ≤ icol → icol + s.undilated s.lpad + pixels p s icol ≤ icols s) ∧
      (icol < 0 → pixels p s icol = min (p.blockSize : ℤ) (-icol)) ∧
      (s.downsample = true → 2 ∣ icol → 2 ∣ pixels p s icol) := by
  have cols := plain.cols
  have le := plain.icols_le
  have left_le := plain.left_le
  have right := s.undilated_nonneg s.rpad
  have block := plain.block_pos
  have wide : (0 : ℤ) < p.blockSize * 2 ^ s.downsample.toNat := by positivity
  unfold pixels rest
  split_ifs <;> rw [sint16 (by omega) (by omega)]
  all_goals
    refine ⟨by omega, by omega, by omega, by omega, fun ds even => ?_⟩
    obtain ⟨evenBlock, zero, evenRight, -, evenCols, -⟩ := plain.downsample ds
    have evenWide : (2 : ℤ) ∣ p.blockSize * 2 ^ s.downsample.toNat := by
      rw [ds]
      exact dvd_mul_left _ _
    omega

theorem pixels_le_unpadded {icol : ℤ} (nonneg : 0 ≤ icol) (lt : icol < icolsUnpadded s) :
    icol + pixels p s icol ≤ icolsUnpadded s := by
  have cols := plain.cols
  have le := plain.icols_le
  have left := s.undilated_nonneg s.lpad
  have right := s.undilated_nonneg s.rpad
  have block := plain.block_pos
  have wide : (0 : ℤ) < p.blockSize * 2 ^ s.downsample.toNat := by positivity
  unfold pixels rest
  rw [if_neg (by omega), if_neg (by omega)]
  split_ifs <;> rw [sint16 (by omega) (by omega)] <;> omega

theorem colLoop_inv {icol : ℤ} (mem : icol ∈ colLoop p s) :
    0 ≤ icol + s.undilated s.lpad ∧ icol + s.undilated s.lpad < icols s ∧
      (s.downsample = true → 2 ∣ icol) ∧
      (icols s < s.undilated s.lpad → (p.blockSize : ℤ) ∣ icol + s.undilated s.lpad) := by
  have cols := plain.cols
  have le := plain.icols_le
  have left := s.undilated_nonneg s.lpad
  have left_le := plain.left_le
  have inv := upTo_inv (P := fun y => 0 ≤ y + s.undilated s.lpad ∧ (s.downsample = true → 2 ∣ y) ∧
    (icols s < s.undilated s.lpad → y + s.undilated s.lpad < icols s →
      (p.blockSize : ℤ) ∣ y + s.undilated s.lpad)) ?_ ?_ mem
  · exact ⟨inv.1.1, by omega, inv.1.2.1, fun narrow => inv.1.2.2 narrow (by omega)⟩
  · rw [start_eq left_le]
    refine ⟨by omega, fun ds => ?_, fun _ _ => by simp⟩
    have := (plain.downsample ds).2.1
    omega
  · rintro y ⟨nonneg, even, aligned⟩ below
    obtain ⟨pos, pixels_le, -, block, evenPixels⟩ := plain.pixels_spec nonneg (by omega)
    rw [sint16 (by omega) (by omega)]
    refine ⟨by omega, fun ds => dvd_add (even ds) (evenPixels ds (even ds)), fun narrow more => ?_⟩
    -- the next move is still in the padding, so that this one is a whole block
    have whole : pixels p s y = p.blockSize := by
      omega
    rw [whole, add_right_comm]
    exact dvd_add (aligned narrow (by omega)) (dvd_refl _)

end Plain

/-! ### Where a move goes -/

def tileRows (s : Regs) : ℕ := (ds s (irows s)).toNat
def tileCols (s : Regs) : ℕ := (ds s (icols s)).toNat

def blockRows (s : Regs) : ℕ := (innerSize s).toNat * tileRows s * tileCols s
def aRows (p : Params) (s : Regs) : ℕ := blocksOf p.blockSize (outerSize s).toNat * blockRows s

structure Placed (p : Params) (s : Regs) : Prop extends Plain p s where
  half : aRows p s ≤ p.maxAddr / 2
  spad_le : p.maxAddr ≤ 2 ^ 16
  repeat_pos : 0 < s.maxPixelsPerRow

def offset (p : Params) (s : Regs) (b irow icol ich : ℤ) (row col : ℕ) : ℕ :=
  ((if s.transInput3120 then b else ich) / p.blockSize).toNat * blockRows s +
    col / p.blockSize * blockRows s +
    (if s.transInput3120 then ich else b).toNat * tileRows s * tileCols s +
    (ds s (irow + s.undilated s.upad)).toNat * tileCols s +
    ((ds s (icol + s.undilated s.lpad)).toNat + row)

theorem ds_of_off (off : s.downsample = false) (x : ℤ) : ds s x = x := by simp [ds, off]

theorem ds_of_on (on : s.downsample = true) (x : ℤ) : ds s x = x / 2 := by simp [ds, on]

theorem ds_nonneg {x : ℤ} (nonneg : 0 ≤ x) : 0 ≤ ds s x := Int.ediv_nonneg nonneg (by positivity)

namespace Plain

variable (plain : Plain p s)
include plain

theorem spadStride_eq : spadStride s = blockRows s := by
  have rows := ds_nonneg (s := s) plain.irows_pos.le
  have cols := ds_nonneg (s := s) plain.icols_pos.le
  have inner : 0 ≤ innerSize s := by
    have := plain.ichs_pos
    unfold innerSize
    split_ifs <;> omega
  have shape : spadStride s = innerSize s * ds s (irows s) * ds s (icols s) := rfl
  rw [shape, blockRows, tileRows, tileCols]
  push_cast
  rw [Int.toNat_of_nonneg inner, Int.toNat_of_nonneg rows, Int.toNat_of_nonneg cols]

variable {b irow icol ich : ℤ} (at_x : At p s b irow icol ich)
include at_x

theorem move_rows : ((move p s b irow icol ich).rows : ℤ) = ds s (pixels p s icol) := by
  obtain ⟨pos, le, -⟩ := plain.pixels_spec at_x.icol_nonneg at_x.icol_lt
  have small : ds s (pixels p s icol) ≤ pixels p s icol := Int.ediv_le_self _ pos.le
  exact wire_of_range (ds_nonneg pos.le) (by omega)

theorem move_rows_pos : 0 < (move p s b irow icol ich).rows := by
  have rows := plain.move_rows at_x
  obtain ⟨pos, -, -, -, even⟩ := plain.pixels_spec at_x.icol_nonneg at_x.icol_lt
  cases on : s.downsample
  · rw [ds_of_off on] at rows
    omega
  · have := even on (at_x.even on).2
    rw [ds_of_on on] at rows
    omega

theorem move_cols : 0 < (move p s b irow icol ich).cols ∧
    (if s.transInput3120 then b else ich) + (move p s b irow icol ich).cols ≤ outerSize s ∧
    (outerSize s ≤ (if s.transInput3120 then b else ich) + maxChsPerMvin p s →
      outerSize s ≤ (if s.transInput3120 then b else ich) + (move p s b irow icol ich).cols) := by
  obtain ⟨step_pos, step_le, -⟩ := plain.maxChsPerMvin_cases
  have := at_x.b_lt
  have := at_x.ich_lt
  have range : 0 < channels p s b ich ∧ channels p s b ich ≤ 2 ^ 14 ∧
      (if s.transInput3120 then b else ich) + channels p s b ich ≤ outerSize s ∧
      (outerSize s ≤ (if s.transInput3120 then b else ich) + maxChsPerMvin p s →
        outerSize s ≤ (if s.transInput3120 then b else ich) + channels p s b ich) := by
    unfold channels rest outerSize
    split_ifs <;> rw [sint16 (by omega) (by omega)] <;> omega
  have cols : ((move p s b irow icol ich).cols : ℤ) = channels p s b ich :=
    wire_of_range range.1.le (by omega)
  rw [← cols] at range
  exact ⟨by omega, range.2.2⟩

theorem aSpAddr_eq : aSpAddr p s b irow icol ich =
    ((aSpAddrStart p s + offset p s b irow icol ich 0 0 : ℕ) : ℤ) := by
  have := plain.irows_le
  have := plain.icols_le
  have rows := ds_nonneg (s := s) plain.irows_pos.le
  have cols := ds_nonneg (s := s) plain.icols_pos.le
  have row := ds_nonneg (s := s) at_x.irow_nonneg
  have col := ds_nonneg (s := s) at_x.icol_nonneg
  have outer := at_x.outer_nonneg
  have inner := at_x.inner_nonneg
  have block := Int.ediv_nonneg outer (Int.natCast_nonneg p.blockSize)
  have irow_lt := at_x.irow_lt
  have icol_lt := at_x.icol_lt
  have irow_nonneg := at_x.irow_nonneg
  have icol_nonneg := at_x.icol_nonneg
  unfold aSpAddr
  simp only
  rw [sint16 (x := irow + _) (by omega) (by omega),
    sint16 (x := icol + _) (by omega) (by omega), plain.spadStride_eq,
    Int.tdiv_eq_ediv_of_nonneg outer]
  unfold offset
  rw [Nat.zero_div, Nat.zero_mul, Nat.add_zero, Nat.add_zero]
  push_cast
  rw [Int.toNat_of_nonneg block, Int.toNat_of_nonneg inner, Int.toNat_of_nonneg row,
    Int.toNat_of_nonneg col, tileRows, tileCols, Int.toNat_of_nonneg rows, Int.toNat_of_nonneg cols]
  ring

omit plain in
theorem ds_row_lt (plain : Plain p s) : (ds s (irow + s.undilated s.upad)).toNat < tileRows s := by
  have nonneg := at_x.irow_nonneg
  have lt := at_x.irow_lt
  unfold tileRows
  cases on : s.downsample
  · simp only [ds_of_off on]
    omega
  · obtain ⟨-, -, -, up, -, rows⟩ := plain.downsample on
    simp only [ds_of_on on]
    omega

theorem ds_cols_le (inside : icol + s.undilated s.lpad + pixels p s icol ≤ icols s) :
    (ds s (icol + s.undilated s.lpad)).toNat + (move p s b irow icol ich).rows ≤ tileCols s := by
  have nonneg := at_x.icol_nonneg
  have rows := plain.move_rows at_x
  obtain ⟨pos, -, -, -, evenPixels⟩ := plain.pixels_spec at_x.icol_nonneg at_x.icol_lt
  unfold tileCols
  cases on : s.downsample
  · simp only [ds_of_off on] at rows ⊢
    omega
  · simp only [ds_of_on on] at rows ⊢
    omega

theorem ds_col_lt : (ds s (icol + s.undilated s.lpad)).toNat < tileCols s := by
  have nonneg := at_x.icol_nonneg
  have lt := at_x.icol_lt
  have cols := plain.cols
  unfold tileCols
  cases on : s.downsample
  · simp only [ds_of_off on]
    omega
  · obtain ⟨-, left, right, -, unpadded, -⟩ := plain.downsample on
    simp only [ds_of_on on]
    omega

theorem block_le (col : ℕ) (inside : (if s.transInput3120 then b else ich) + col < outerSize s) :
    ((if s.transInput3120 then b else ich) / p.blockSize).toNat + col / p.blockSize + 1 ≤
      blocksOf p.blockSize (outerSize s).toNat := by
  have outer := at_x.outer_nonneg
  obtain ⟨q, hq⟩ := at_x.outer
  have size := plain.block_pos
  have q_nonneg : 0 ≤ q := by
    by_contra neg
    have := mul_neg_of_pos_of_neg size (not_le.mp neg)
    omega
  lift q to ℕ using q_nonneg
  rw [hq] at inside ⊢
  rw [Int.mul_ediv_cancel_left _ size.ne', Int.toNat_natCast]
  apply (lt_blocksOf plain.block).mpr
  rw [Nat.add_mul, Nat.mul_comm q]
  have := Nat.div_mul_le_self col p.blockSize
  omega

omit plain in
theorem inner_lt : (if s.transInput3120 then ich else b).toNat < (innerSize s).toNat := by
  have := at_x.b_nonneg
  have := at_x.b_lt
  have := at_x.ich_nonneg
  have := at_x.ich_lt
  unfold innerSize
  split_ifs <;> omega

theorem le_block {col : ℕ} (last : outerSize s ≤ (if s.transInput3120 then b else ich) + col + 1) :
    blocksOf p.blockSize (outerSize s).toNat ≤
      ((if s.transInput3120 then b else ich) / p.blockSize).toNat + col / p.blockSize + 1 := by
  have outer := at_x.outer_nonneg
  have size := plain.block_pos
  have block := Int.ediv_nonneg outer size.le
  obtain ⟨q, hq⟩ := at_x.outer
  by_contra more
  have := (lt_blocksOf plain.block).mp (not_le.mp more)
  have below := Nat.lt_div_mul_add (a := col) plain.block
  rw [hq] at last block this
  rw [Int.mul_ediv_cancel_left _ size.ne'] at this block
  lift q to ℕ using block
  rw [Int.toNat_natCast, Nat.add_mul, Nat.add_mul, Nat.mul_comm q] at this
  omega

theorem offset_lt_aRows {row col : ℕ} (hcol : col < (move p s b irow icol ich).cols)
    (hrow : (ds s (icol + s.undilated s.lpad)).toNat + row < tileCols s) :
    offset p s b irow icol ich row col < aRows p s := by
  have cols := (plain.move_cols at_x).2.1
  have block := plain.block_le at_x col (by omega)
  exact offset_lt block le_rfl (inner_lt at_x) (ds_row_lt at_x plain) hrow

end Plain

namespace Placed

theorem blockRows_lt (placed : Placed p s) : blockRows s < 2 ^ 16 := by
  have outer := placed.toPlain.outerSize_pos
  have blocks := blocksOf_pos placed.block (show 0 < (outerSize s).toNat by omega)
  have le := Nat.le_mul_of_pos_left (blockRows s) blocks
  have half := placed.half
  have spad := placed.spad_le
  unfold aRows at half
  omega

theorem aSpAddrStart_le (p : Params) (s : Regs) : aSpAddrStart p s ≤ p.maxAddr / 2 := by
  unfold aSpAddrStart
  split_ifs <;> omega

variable (placed : Placed p s) {b irow icol ich : ℤ} (at_x : At p s b irow icol ich)
include placed at_x

theorem spadRow_eq (row col : ℕ) : (move p s b irow icol ich).spadRow p s row col =
    aSpAddrStart p s + offset p s b irow icol ich row col := by
  have plain := placed.toPlain
  have first : offset p s b irow icol ich 0 0 < aRows p s :=
    plain.offset_lt_aRows at_x (plain.move_cols at_x).1 (plain.ds_col_lt at_x)
  have half := placed.half
  have spad := placed.spad_le
  have start := aSpAddrStart_le p s
  have addr : (move p s b irow icol ich).addr =
      aSpAddrStart p s + offset p s b irow icol ich 0 0 := by
    change wire 29 (aSpAddr p s b irow icol ich) = _
    rw [plain.aSpAddr_eq at_x, wire_natCast]
    exact Nat.mod_eq_of_lt (by omega)
  have stride : blockStride s = blockRows s := by
    rw [blockStride, plain.spadStride_eq, wire_natCast]
    exact Nat.mod_eq_of_lt placed.blockRows_lt
  rw [Move.spadRow, addr, stride]
  unfold offset
  rw [Nat.zero_div]
  omega

theorem lands (inside : icol + s.undilated s.lpad + pixels p s icol ≤ icols s)
    (single : s.aSpadId ≠ 2 ∨ s.maxPixelsPerRow ≤ 1) :
    (move p s b irow icol ich).Lands p s (aRows p s) := by
  intro row hrow col hcol pixel hpixel le
  rw [placed.spadRow_eq at_x] at le ⊢
  have row_lt := placed.toPlain.ds_cols_le at_x inside
  have := placed.toPlain.offset_lt_aRows at_x hcol
    (show (ds s (icol + s.undilated s.lpad)).toNat + row < tileCols s by omega)
  -- the rows before are rows of the tile, or do not exist
  rcases single with first | single
  · have : aSpAddrStart p s = 0 := if_neg first
    omega
  · omega

end Placed

/-! ### The last move, and the first -/

theorem exists_last_chunk {n : ℤ} (step : ℤ) (pos : 0 < n) (le : n ≤ 2 ^ 14) (step_pos : 0 < step) :
    ∃ x ∈ upTo n (fun y => sint 16 (y + step)) (2 ^ 16) 0, n ≤ x + step := by
  have quotient : 0 ≤ (n - 1) / step := Int.ediv_nonneg (by omega) step_pos.le
  have below : (n - 1) / step * step ≤ n - 1 := Int.ediv_mul_le _ step_pos.ne'
  have above : n - 1 < ((n - 1) / step + 1) * step := Int.lt_ediv_add_one_mul_self _ step_pos
  have few : (n - 1) / step ≤ n - 1 := Int.ediv_le_self _ (by omega)
  obtain ⟨k, hk⟩ := Int.eq_ofNat_of_zero_le quotient
  rw [hk] at below above few
  refine ⟨0 + k * step, add_mem_upTo (by omega) (fun j hj => ?_) step_pos.le (by omega), ?_⟩
  · have : ((j : ℤ) + 1) * step ≤ k * step := mul_le_mul_of_nonneg_right (by omega) step_pos.le
    have : 0 ≤ ((j : ℤ) + 1) * step := by positivity
    rw [show 0 + (j : ℤ) * step + step = (j + 1) * step by ring, zero_add]
    exact sint16 (by omega) (by omega)
  · rw [show 0 + (k : ℤ) * step + step = (k + 1) * step by ring]
    omega

theorem first_mem_upTo {bound x : ℤ} {next : ℤ → ℤ} (below : x < bound) :
    x ∈ upTo bound next (2 ^ 16) x :=
  iterate_mem_upTo (k := 0) (by norm_num) fun j hj => by
    obtain rfl : j = 0 := by omega
    exact below

theorem mem_moves (given : s.input ≠ 0) {b irow icol ich : ℤ} (hb : b ∈ batchLoop p s)
    (hrow : irow ∈ rowLoop s) (hcol : icol ∈ colLoop p s) (hch : ich ∈ channelLoop p s) :
    move p s b irow icol ich ∈ moves p s := by
  unfold moves
  rw [if_neg given]
  exact List.mem_flatMap.mpr ⟨b, hb, List.mem_flatMap.mpr ⟨irow, hrow,
    List.mem_flatMap.mpr ⟨icol, hcol, List.mem_map.mpr ⟨ich, hch, rfl⟩⟩⟩⟩

namespace Plain

variable (plain : Plain p s)
include plain

theorem at_of_loops {b irow icol ich : ℤ} (hb : b ∈ batchLoop p s) (hrow : irow ∈ rowLoop s)
    (hcol : icol ∈ colLoop p s) (hch : ich ∈ channelLoop p s) : At p s b irow icol ich := by
  obtain ⟨b_nonneg, b_lt, b_start⟩ := plain.batchLoop_inv hb
  obtain ⟨ich_nonneg, ich_lt, ich_start⟩ := plain.channelLoop_inv hch
  obtain ⟨irow_nonneg, irow_lt, irow_even⟩ := plain.rowLoop_inv hrow
  obtain ⟨icol_nonneg, icol_lt, icol_even, aligned⟩ := plain.colLoop_inv hcol
  refine ⟨b_nonneg, b_lt, ich_nonneg, ich_lt, irow_nonneg, irow_lt, icol_nonneg, icol_lt, ?_,
    fun ds => ⟨irow_even ds, icol_even ds⟩, aligned⟩
  cases trans : s.transInput3120
  · exact ich_start trans
  · exact b_start trans

theorem at_of_mem {m : Move} (mem : m ∈ moves p s) :
    s.input ≠ 0 ∧ ∃ b irow icol ich, At p s b irow icol ich ∧ m = move p s b irow icol ich := by
  unfold moves at mem
  split_ifs at mem with null
  · simp at mem
  obtain ⟨b, hb, mem⟩ := List.mem_flatMap.mp mem
  obtain ⟨irow, hrow, mem⟩ := List.mem_flatMap.mp mem
  obtain ⟨icol, hcol, mem⟩ := List.mem_flatMap.mp mem
  obtain ⟨ich, hch, rfl⟩ := List.mem_map.mp mem
  exact ⟨null, b, irow, icol, ich, plain.at_of_loops hb hrow hcol hch, rfl⟩

theorem exists_last_planes : ∃ b ∈ batchLoop p s, ∃ ich ∈ channelLoop p s,
    (if s.transInput3120 then ich else b) + 1 = innerSize s ∧
    outerSize s ≤ (if s.transInput3120 then b else ich) + maxChsPerMvin p s := by
  obtain ⟨step_pos, -, -⟩ := plain.maxChsPerMvin_cases
  have := plain.batches_pos
  have := plain.batches_le
  unfold batchLoop channelLoop innerSize outerSize
  cases trans : s.transInput3120
  · simp only [Bool.false_eq_true, if_false]
    obtain ⟨b, hb, last⟩ := exists_last_chunk (n := s.batches) 1 (by omega) (by omega) one_pos
    obtain ⟨ich, hch, last'⟩ := exists_last_chunk _ plain.ichs_pos plain.ichs_le step_pos
    have lt := (single_inv (by omega) hb).2
    exact ⟨b, hb, ich, hch, by omega, last'⟩
  · simp only [if_true]
    obtain ⟨ich, hch, last⟩ := exists_last_chunk 1 plain.ichs_pos plain.ichs_le one_pos
    obtain ⟨b, hb, last'⟩ := exists_last_chunk (n := s.batches) _ (by omega) (by omega) step_pos
    have lt := (single_inv plain.ichs_le hch).2
    exact ⟨b, hb, ich, hch, by omega, last'⟩

theorem exists_last_row (all : s.downsample = false) :
    ∃ irow ∈ rowLoop s, irow + s.undilated s.upad + 1 = irows s := by
  have rows := plain.rows
  have pos := plain.irows_pos
  have le := plain.irows_le
  have up := s.undilated_nonneg s.upad
  have up_le := plain.up_le
  obtain ⟨k, hk⟩ := Int.eq_ofNat_of_zero_le (show 0 ≤ irows s - 1 by omega)
  refine ⟨-s.undilated s.upad + k * 1, ?_, by omega⟩
  rw [rowLoop, start_eq plain.up_le]
  have enough : k < 2 ^ 16 := by omega
  refine add_mem_upTo enough (fun j hj => ?_) zero_le_one (by omega)
  rw [all, Bool.toNat_false, pow_zero, sint16 (by omega) (by omega)]
  omega

theorem exists_last_col (narrow : icols s < s.undilated s.lpad) :
    ∃ icol ∈ colLoop p s, icol + s.undilated s.lpad = (icols s - 1) / p.blockSize * p.blockSize := by
  have cols := plain.cols
  have pos := plain.icols_pos
  have left_le := plain.left_le
  have block := plain.block_pos
  have quotient : 0 ≤ (icols s - 1) / p.blockSize := Int.ediv_nonneg (by omega) block.le
  have below : (icols s - 1) / p.blockSize * p.blockSize ≤ icols s - 1 := Int.ediv_mul_le _ block.ne'
  have few : (icols s - 1) / p.blockSize ≤ icols s - 1 := Int.ediv_le_self _ (by omega)
  obtain ⟨k, hk⟩ := Int.eq_ofNat_of_zero_le quotient
  rw [hk] at below few ⊢
  refine ⟨-s.undilated s.lpad + k * p.blockSize, ?_, by omega⟩
  rw [colLoop, start_eq left_le]
  refine add_mem_upTo (by omega) (fun j hj => ?_) block.le (by omega)
  have more : ((j : ℤ) + 1) * p.blockSize ≤ k * p.blockSize :=
    mul_le_mul_of_nonneg_right (by omega) block.le
  have nonneg : 0 ≤ (j : ℤ) * p.blockSize := by positivity
  rw [add_mul, one_mul] at more ⊢
  have start : 0 ≤ -s.undilated s.lpad + j * p.blockSize + s.undilated s.lpad := by omega
  obtain ⟨-, -, -, whole, -⟩ := plain.pixels_spec start (by omega)
  rw [whole (by omega), min_eq_left (by omega), sint16 (by omega) (by omega)]
  omega

theorem inside_of_cut {b irow icol ich : ℤ} (at_x : At p s b irow icol ich)
    (cut : s.undilated s.lpad ≤ icols s ∨ (p.blockSize : ℤ) ∣ icols s) :
    icol + s.undilated s.lpad + pixels p s icol ≤ icols s := by
  obtain ⟨-, -, right, left, -⟩ := plain.pixels_spec at_x.icol_nonneg at_x.icol_lt
  rcases le_or_gt 0 icol with pixel | padding
  · exact right pixel
  rcases le_or_gt (s.undilated s.lpad) (icols s) with wide | narrow
  · omega
  obtain ⟨m, hm⟩ := cut.resolve_left (by omega)
  obtain ⟨n, hn⟩ := at_x.aligned narrow
  have lt := at_x.icol_lt
  have block := plain.block_pos
  have next : n + 1 ≤ m := by
    rw [hm, hn] at lt
    exact (mul_lt_mul_iff_right₀ block).mp lt
  have := mul_le_mul_of_nonneg_left next block.le
  rw [mul_add, mul_one] at this
  omega

end Plain

theorem offset_end {blocks inner rows q m n u : ℕ} (cols : ℕ) (block : q + m + 1 = blocks)
    (hn : n + 1 = inner) (hu : u + 1 = rows) :
    q * (inner * rows * cols) + m * (inner * rows * cols) + n * rows * cols + u * cols + cols =
      blocks * (inner * rows * cols) := by
  subst block hn hu
  ring

namespace Placed

variable (placed : Placed p s) (given : s.input ≠ 0)
include placed given

theorem not_lands_of_narrow (narrow : icols s < s.undilated s.lpad)
    (uneven : ¬(p.blockSize : ℤ) ∣ icols s) :
    ∃ m ∈ moves p s, ¬m.Lands p s (aRows p s) := by
  have plain := placed.toPlain
  have all : s.downsample = false := by
    by_contra on
    have := (plain.downsample (by simpa using on)).2.1
    have := plain.icols_pos
    omega
  obtain ⟨b, hb, ich, hch, inner, outer⟩ := plain.exists_last_planes
  obtain ⟨irow, hrow, lastRow⟩ := plain.exists_last_row all
  obtain ⟨icol, hcol, lastCol⟩ := plain.exists_last_col narrow
  have at_x := plain.at_of_loops hb hrow hcol hch
  refine ⟨_, mem_moves given hb hrow hcol hch, fun lands => ?_⟩
  have rows := plain.move_rows at_x
  obtain ⟨cols_pos, cols_le, cols_ge⟩ := plain.move_cols at_x
  have block := plain.block_pos
  have far : icols s - 1 < ((icols s - 1) / p.blockSize + 1) * p.blockSize :=
    Int.lt_ediv_add_one_mul_self _ block
  rw [add_mul, one_mul, ← lastCol] at far
  have odd : icols s ≠ icol + s.undilated s.lpad + p.blockSize := by
    intro same
    apply uneven
    rw [same, lastCol]
    exact dvd_add (dvd_mul_left _ _) (dvd_refl _)
  have lt := at_x.icol_lt
  obtain ⟨-, -, -, size, -⟩ := plain.pixels_spec at_x.icol_nonneg lt
  have ds_off := ds_of_off all
  rw [ds_off, size (by omega)] at rows
  -- the first row beyond the end of the last image row
  have beyond := lands (icols s - (icol + s.undilated s.lpad)).toNat (by omega)
    ((move p s b irow icol ich).cols - 1) (by omega) 0 placed.repeat_pos (Nat.zero_le _)
  rw [placed.spadRow_eq at_x, Nat.sub_zero] at beyond
  have block_eq := le_antisymm (plain.block_le at_x ((move p s b irow icol ich).cols - 1)
    (by omega)) (plain.le_block at_x (by omega))
  have inner_nonneg := at_x.inner_nonneg
  have irow_nonneg := at_x.irow_nonneg
  have icol_nonneg := at_x.icol_nonneg
  have inner_eq : (if s.transInput3120 then ich else b).toNat + 1 = (innerSize s).toNat := by omega
  have row_eq : (ds s (irow + s.undilated s.upad)).toNat + 1 = tileRows s := by
    rw [tileRows, ds_off, ds_off]
    omega
  have col_eq : (ds s (icol + s.undilated s.lpad)).toNat +
      (icols s - (icol + s.undilated s.lpad)).toNat = tileCols s := by
    rw [tileCols, ds_off, ds_off]
    omega
  have last := offset_end (tileCols s) block_eq inner_eq row_eq
  have : offset p s b irow icol ich (icols s - (icol + s.undilated s.lpad)).toNat
      ((move p s b irow icol ich).cols - 1) = aRows p s := by
    unfold offset
    rw [col_eq]
    exact last
  omega

theorem not_lands_of_repeat (second : s.aSpadId = 2) (some' : 1 < s.maxPixelsPerRow) :
    ∃ m ∈ moves p s, ¬m.Lands p s (aRows p s) := by
  have plain := placed.toPlain
  have hb : (0 : ℤ) ∈ batchLoop p s := first_mem_upTo (by exact_mod_cast plain.batches_pos)
  have hch : (0 : ℤ) ∈ channelLoop p s := first_mem_upTo plain.ichs_pos
  have hrow : -s.undilated s.upad ∈ rowLoop s := by
    rw [rowLoop, start_eq plain.up_le]
    apply first_mem_upTo
    have := plain.rows
    have := plain.irows_pos
    omega
  have hcol : -s.undilated s.lpad ∈ colLoop p s := by
    rw [colLoop, start_eq plain.left_le]
    apply first_mem_upTo
    have := plain.cols
    have := plain.icols_pos
    omega
  have at_x := plain.at_of_loops hb hrow hcol hch
  refine ⟨_, mem_moves given hb hrow hcol hch, fun lands => ?_⟩
  have start : aSpAddrStart p s = p.maxAddr / 2 := if_pos second
  have zero : offset p s 0 (-s.undilated s.upad) (-s.undilated s.lpad) 0 0 0 = 0 := by
    simp [offset, ds]
  have half := placed.half
  have room := plain.offset_lt_aRows at_x (plain.move_cols at_x).1
    (show _ + 0 < _ from plain.ds_col_lt at_x)
  have before := lands 0 (plain.move_rows_pos at_x) 0 (plain.move_cols at_x).1 1 some'
  rw [placed.spadRow_eq at_x, zero] at before
  omega

/-- The tile gets all that is moved if its left padding is cut off in time and rows are not repeated at
the start of the second half. -/
theorem lands_iff :
    (∀ m ∈ moves p s, m.Lands p s (aRows p s)) ↔
      (s.undilated s.lpad ≤ icols s ∨ (p.blockSize : ℤ) ∣ icols s) ∧
        (s.aSpadId ≠ 2 ∨ s.maxPixelsPerRow ≤ 1) := by
  constructor
  · intro all
    constructor
    · by_contra no
      obtain ⟨narrow, uneven⟩ := not_or.mp no
      obtain ⟨m, mem, out⟩ := placed.not_lands_of_narrow given (not_le.mp narrow) uneven
      exact out (all m mem)
    · by_contra no
      obtain ⟨second, some'⟩ := not_or.mp no
      obtain ⟨m, mem, out⟩ := placed.not_lands_of_repeat given (not_not.mp second)
        (not_le.mp some')
      exact out (all m mem)
  · rintro ⟨cut, single⟩ m mem
    obtain ⟨-, b, irow, icol, ich, at_x, rfl⟩ := placed.toPlain.at_of_mem mem
    exact placed.lands at_x (placed.toPlain.inside_of_cut at_x cut) single

end Placed

end Gemmini.Conv.Functional
