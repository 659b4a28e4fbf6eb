import Gemmini.ArrayConfig
import Gemmini.LoopConv.Model

/-!
# The input loader of a convolution

`LoopConvLdInput` walks over the padded pixels of its tile, in chunks of a row, and over the channels of
every chunk.
-/

namespace Gemmini.LoopConv.LdInput

open LoopMatmul (wire Operand castToSpAddr)

variable (p : Params) (r : Req)

def tileCols : ℕ := r.cfg.downsampled r.cfg.icols
def tileRows : ℕ := r.cfg.downsampled r.cfg.irows

/-- The dimension that is spread over blocks of columns, and the one in front of the pixels. -/
def outerSize : ℕ := if r.cfg.transInput3120 then r.cfg.batches else r.cfg.ichs
def innerSize : ℕ := if r.cfg.transInput3120 then r.cfg.ichs else r.cfg.batches

/-- The rows of one block of columns, and of the whole region of the tile. -/
def blockRows : ℕ := innerSize r * tileRows r * tileCols r
def aRows : ℕ := blocksOf p.blockSize (outerSize r) * blockRows r

/-- A command moves no more than the tile has, into its region; its blocks lie a configured stride
apart. -/
def InTile : OutCmd → Prop
  | .load _ _ dst => dst.rows ≤ tileCols r ∧ dst.cols ≤ outerSize r ∧
      ∀ m < blocksOf p.blockSize dst.cols, ∀ i < dst.rows,
        r.cfg.aStart p ≤ dst.addr.data + m * (r.cfg.inputSpadStride % 2 ^ p.blockStrideBits) + i ∧
        dst.addr.data + m * (r.cfg.inputSpadStride % 2 ^ p.blockStrideBits) + i <
          r.cfg.aStart p + aRows p r
  | _ => True

def Proper : Prop := ∃ es, Walker.Total (spec p) r es ∧ ∀ e ∈ es, InTile p r e

structure Fits : Prop where
  batches_pos : 0 < r.cfg.batches
  batches_le : r.cfg.batches ≤ 2 ^ 15
  ichs_pos : 0 < r.cfg.ichs
  ichs_le : r.cfg.ichs ≤ 2 ^ 15
  cols : lpad r + r.cfg.icolsUnpadded + rpad r = r.cfg.icols
  rows : upad r + r.cfg.irowsUnpadded + dpad r = r.cfg.irows
  icols_pos : 0 < r.cfg.icols
  irows_pos : 0 < r.cfg.irows
  icols_le : r.cfg.icols ≤ 2 ^ 15
  irows_le : r.cfg.irows ≤ 2 ^ 15
  downsample : r.cfg.downsample = true → 2 ∣ p.blockSize ∧ 2 ∣ lpad r ∧ 2 ∣ rpad r ∧ 2 ∣ upad r ∧
    2 ∣ r.cfg.icolsUnpadded ∧ 2 ∣ r.cfg.irows
  stride : blockRows r < 2 ^ 16
  region : r.cfg.aStart p + aRows p r ≤ p.maxAddr

structure At (x : InPixel) : Prop where
  b_nonneg : 0 ≤ x.b
  b_lt : x.b < r.cfg.batches
  ich_nonneg : 0 ≤ x.ich
  ich_lt : x.ich < r.cfg.ichs
  irow_ge : top r ≤ x.irow
  irow_lt : x.irow < r.cfg.irowsUnpadded + dpad r
  icol_ge : leftmost r ≤ x.icol
  icol_lt : x.icol < r.cfg.icolsUnpadded + rpad r
  /-- The channels, or batches, start at a block. -/
  outer : (p.blockSize : ℤ) ∣ if r.cfg.transInput3120 then x.b else x.ich
  even : r.cfg.downsample = true → 2 ∣ x.irow ∧ 2 ∣ x.icol

/-! ### One position -/

section Position

variable {p r} (fits : Fits p r) (pos : 0 < p.blockSize) {x : InPixel} (at_x : At p r x)
include fits pos at_x

theorem columns_spec :
    0 < columns p r x ∧ x.icol + columns p r x ≤ r.cfg.icolsUnpadded + rpad r ∧
      (r.cfg.downsample = true → 2 ∣ columns p r x) := by
  have lt := at_x.icol_lt
  have wide : (0 : ℤ) < p.blockSize * 2 ^ r.cfg.downsample.toNat := by positivity
  refine ⟨?_, ?_, fun ds => ?_⟩
  · simp only [columns]
    split_ifs <;> omega
  · simp only [columns]
    split_ifs <;> omega
  · obtain ⟨evenBlock, -, right, -, unpadded, -⟩ := fits.downsample ds
    have even := (at_x.even ds).2
    simp only [columns, ds, Bool.toNat_true, pow_one]
    split_ifs <;> omega

end Position

/-- The counter of the dimension that is spread over blocks, and of the other one. -/
def outer (r : Req) (x : InPixel) : ℤ := if r.cfg.transInput3120 then x.b else x.ich
def inner (r : Req) (x : InPixel) : ℤ := if r.cfg.transInput3120 then x.ich else x.b

variable {p r}

theorem At.outer_range {x : InPixel} (at_x : At p r x) :
    0 ≤ LdInput.outer r x ∧ LdInput.outer r x < outerSize r := by
  have := at_x.b_nonneg
  have := at_x.b_lt
  have := at_x.ich_nonneg
  have := at_x.ich_lt
  unfold LdInput.outer outerSize
  split_ifs <;> omega

theorem At.inner_range {x : InPixel} (at_x : At p r x) :
    0 ≤ LdInput.inner r x ∧ LdInput.inner r x < innerSize r := by
  have := at_x.b_nonneg
  have := at_x.b_lt
  have := at_x.ich_nonneg
  have := at_x.ich_lt
  unfold LdInput.inner innerSize
  split_ifs <;> omega

theorem maxChsPerMvin_cases (r : Req) :
    maxChsPerMvin p r = outerSize r ∨
      (maxChsPerMvin p r ≤ outerSize r ∧ maxChsPerMvin p r = p.maxBlockLen * p.blockSize) := by
  have choice : maxChsPerMvin p r = if outerSize r < p.maxBlockLen * p.blockSize then outerSize r
      else p.maxBlockLen * p.blockSize := rfl
  rw [choice]
  split_ifs
  · exact .inl rfl
  · exact .inr ⟨by omega, rfl⟩

theorem maxBlockLen_pos (p : Params) : 0 < p.maxBlockLen := lt_of_lt_of_le Nat.one_pos (le_max_right _ _)

theorem Fits.outerSize_pos (fits : Fits p r) : 0 < outerSize r := by
  have := fits.batches_pos
  have := fits.ichs_pos
  unfold outerSize
  split_ifs <;> omega

theorem Fits.maxChsPerMvin_pos (fits : Fits p r) (pos : 0 < p.blockSize) :
    0 < maxChsPerMvin p r := by
  have full := Nat.mul_pos (maxBlockLen_pos p) pos
  have outer := fits.outerSize_pos
  rcases maxChsPerMvin_cases (p := p) r with all | ⟨-, blocks⟩ <;> omega

theorem channels_spec (fits : Fits p r) (pos : 0 < p.blockSize) {x : InPixel} (at_x : At p r x) :
    0 < channels p r x ∧ LdInput.outer r x + channels p r x ≤ outerSize r := by
  have range := at_x.outer_range
  have chunk := fits.maxChsPerMvin_pos pos
  have rest : (if r.cfg.transInput3120 then (r.cfg.batches : ℤ) - x.b else r.cfg.ichs - x.ich) =
      outerSize r - LdInput.outer r x := by
    unfold outerSize LdInput.outer
    split_ifs <;> rfl
  simp only [channels, rest]
  split_ifs <;> omega

theorem block_lt (pos : 0 < p.blockSize) {x : InPixel} (at_x : At p r x) {k m : ℕ}
    (inside : LdInput.outer r x + k ≤ outerSize r) (block : m < blocksOf p.blockSize k) :
    LdInput.outer r x / p.blockSize + m + 1 ≤ (blocksOf p.blockSize (outerSize r) : ℕ) := by
  obtain ⟨q, hq⟩ : (p.blockSize : ℤ) ∣ LdInput.outer r x := at_x.outer
  have range := at_x.outer_range
  have size : (0 : ℤ) < p.blockSize := by exact_mod_cast pos
  have q_nonneg : 0 ≤ q := by
    by_contra neg
    have := mul_neg_of_pos_of_neg size (not_le.mp neg)
    omega
  obtain ⟨n, rfl⟩ := Int.eq_ofNat_of_zero_le q_nonneg
  rw [hq, Int.mul_ediv_cancel_left _ size.ne']
  rw [hq] at inside
  have first := (lt_blocksOf pos).mp block
  have covered : n + m < blocksOf p.blockSize (outerSize r) := by
    rw [lt_blocksOf pos, Nat.add_mul, Nat.mul_comm n]
    omega
  omega

theorem offset_lt {blocks inner rows cols q m s n u v : ℕ} (block : q + m + 1 ≤ blocks)
    (stride : s ≤ inner * rows * cols) (hn : n < inner) (hu : u < rows) (hv : v < cols) :
    q * (inner * rows * cols) + m * s + n * rows * cols + u * cols + v <
      blocks * (inner * rows * cols) := by
  have pixel : u * cols + v < rows * cols := by
    have := Nat.mul_le_mul_right cols (Nat.succ_le_of_lt hu)
    rw [Nat.succ_mul] at this
    omega
  have image : n * rows * cols + rows * cols ≤ inner * rows * cols := by
    have := Nat.mul_le_mul_right (rows * cols) (Nat.succ_le_of_lt hn)
    rw [Nat.succ_mul] at this
    simpa only [Nat.mul_assoc] using this
  calc q * (inner * rows * cols) + m * s + n * rows * cols + u * cols + v
      < q * (inner * rows * cols) + m * s + inner * rows * cols := by omega
    _ ≤ q * (inner * rows * cols) + m * (inner * rows * cols) + inner * rows * cols := by
        have := Nat.mul_le_mul_left m stride
        omega
    _ = (q + m + 1) * (inner * rows * cols) := by ring
    _ ≤ blocks * (inner * rows * cols) := Nat.mul_le_mul_right _ block

theorem Fits.inputSpadStride_eq (fits : Fits p r) : r.cfg.inputSpadStride = blockRows r := by
  have all : r.cfg.inputSpadStride = blockRows r % 2 ^ 16 := by
    unfold Cfg.inputSpadStride blockRows innerSize tileRows tileCols
    split_ifs <;> rfl
  rw [all, Nat.mod_eq_of_lt fits.stride]

theorem spadAddr_spec (fits : Fits p r) (pow : p.blockSize = 2 ^ log2Up p.blockSize)
    {x : InPixel} (at_x : At p r x) :
    ∃ q n u v : ℕ, spadAddr p r x =
        ((r.cfg.aStart p + (q * blockRows r + n * tileRows r * tileCols r + u * tileCols r + v) : ℕ) : ℤ) ∧
      (q : ℤ) = LdInput.outer r x / p.blockSize ∧ n < innerSize r ∧ u < tileRows r ∧
      v + columns p r x / 2 ^ r.cfg.downsample.toNat ≤ tileCols r := by
  have pos : 0 < p.blockSize := pow ▸ Nat.two_pow_pos _
  obtain ⟨outer_nonneg, outer_lt⟩ := at_x.outer_range
  obtain ⟨inner_nonneg, inner_lt⟩ := at_x.inner_range
  obtain ⟨columns_pos, chunk, evenChunk⟩ := columns_spec fits pos at_x
  have irow_nonneg : 0 ≤ x.irow + upad r := by have := at_x.irow_ge; simp only [top] at this; omega
  have icol_nonneg : 0 ≤ x.icol + lpad r := by
    have := at_x.icol_ge
    simp only [leftmost] at this
    omega
  have irow_lt : x.irow + upad r < r.cfg.irows := by
    have := at_x.irow_lt
    have := fits.rows
    omega
  have icol_le : x.icol + lpad r + columns p r x ≤ r.cfg.icols := by
    have := fits.cols
    omega
  have two : (0 : ℤ) < 2 ^ r.cfg.downsample.toNat := by positivity
  obtain ⟨q, hq⟩ := Int.eq_ofNat_of_zero_le (Int.ediv_nonneg outer_nonneg (Int.natCast_nonneg p.blockSize))
  obtain ⟨n, hn⟩ := Int.eq_ofNat_of_zero_le inner_nonneg
  obtain ⟨u, hu⟩ := Int.eq_ofNat_of_zero_le (Int.ediv_nonneg irow_nonneg two.le)
  obtain ⟨v, hv⟩ := Int.eq_ofNat_of_zero_le (Int.ediv_nonneg icol_nonneg two.le)
  refine ⟨q, n, u, v, ?_, hq.symm, by omega, ?_, ?_⟩
  · have block : ((2 : ℤ) ^ log2Up p.blockSize) = p.blockSize := by
      conv_rhs => rw [pow]
      push_cast
      rfl
    have shape : spadAddr p r x = r.cfg.aStart p +
        LdInput.outer r x / 2 ^ log2Up p.blockSize * r.cfg.inputSpadStride +
        LdInput.inner r x * tileRows r * tileCols r +
        (x.irow + upad r) / 2 ^ r.cfg.downsample.toNat * tileCols r +
        (x.icol + lpad r) / 2 ^ r.cfg.downsample.toNat := rfl
    rw [shape, block, hq, hn, hu, hv, fits.inputSpadStride_eq]
    push_cast
    ring
  · cases ds : r.cfg.downsample
    · simp only [ds, Bool.toNat_false, pow_zero, Int.ediv_one] at hu
      simp only [tileRows, Cfg.downsampled, ds, Bool.toNat_false, Nat.shiftRight_zero]
      omega
    · obtain ⟨-, -, -, up, -, evenRows⟩ := fits.downsample ds
      simp only [ds, Bool.toNat_true, pow_one] at hu
      simp only [tileRows, Cfg.downsampled, ds, Bool.toNat_true, Nat.shiftRight_one]
      omega
  · rw [← hv]
    cases ds : r.cfg.downsample
    · simp only [tileCols, Cfg.downsampled, ds, Bool.toNat_false, Nat.shiftRight_zero, pow_zero,
        Int.ediv_one]
      omega
    · obtain ⟨-, left, -⟩ := fits.downsample ds
      simp only [tileCols, Cfg.downsampled, ds, Bool.toNat_true, Nat.shiftRight_one, pow_one]
      omega

theorem wire_natCast (bits n : ℕ) : wire bits n = n % 2 ^ bits := by
  unfold wire
  rw [show ((n : ℤ) % 2 ^ bits) = ((n % 2 ^ bits : ℕ) : ℤ) by push_cast; rfl, Int.toNat_natCast]

theorem wire_le (bits : ℕ) {x : ℤ} (nonneg : 0 ≤ x) : (wire bits x : ℤ) ≤ x := by
  lift x to ℕ using nonneg
  rw [wire_natCast]
  exact_mod_cast Nat.mod_le x _

theorem inTile_mvinCmd (fits : Fits p r) (pow : p.blockSize = 2 ^ log2Up p.blockSize)
    {x : InPixel} (at_x : At p r x) : InTile p r (mvinCmd p r x) := by
  have pos : 0 < p.blockSize := pow ▸ Nat.two_pow_pos _
  obtain ⟨q, n, u, v, addr, block, hn, hu, chunk⟩ := spadAddr_spec fits pow at_x
  obtain ⟨columns_pos, -, evenChunk⟩ := columns_spec fits pos at_x
  obtain ⟨channels_pos, inside⟩ := channels_spec fits pos at_x
  have outer_nonneg := at_x.outer_range.1
  have rows_pos : 0 < columns p r x / 2 ^ r.cfg.downsample.toNat := by
    cases ds : r.cfg.downsample
    · simpa using columns_pos
    · have := evenChunk ds
      simp only [Bool.toNat_true, pow_one]
      omega
  have rows_le := wire_le p.mvinRowsBits rows_pos.le
  have cols_le := wire_le p.mvinColsBits channels_pos.le
  have stride_le : r.cfg.inputSpadStride % 2 ^ p.blockStrideBits ≤
      innerSize r * tileRows r * tileCols r := by
    rw [fits.inputSpadStride_eq]
    exact Nat.mod_le _ _
  -- the address is not truncated, as the whole region lies in the scratchpad
  have first : q * blockRows r + n * tileRows r * tileCols r + u * tileCols r + v <
      aRows p r := by
    have one : q + 0 + 1 ≤ blocksOf p.blockSize (outerSize r) := by
      have := block_lt pos at_x (k := 1) (m := 0) (by omega) (blocksOf_pos pos Nat.one_pos)
      omega
    have := offset_lt (m := 0) (s := 0) one (Nat.zero_le _) hn hu (show v < tileCols r by omega)
    rwa [Nat.zero_mul, Nat.add_zero] at this
  have room : p.maxAddr ≤ 2 ^ p.geometry.maxAddrBits :=
    (le_two_pow_log2Ceil _).trans p.geometry.sp_le
  have data : (castToSpAddr p.geometry (spadAddr p r x)).data = r.cfg.aStart p +
      (q * blockRows r + n * tileRows r * tileCols r + u * tileCols r + v) := by
    have := fits.region
    simp only [castToSpAddr, addr]
    rw [wire_natCast]
    exact Nat.mod_eq_of_lt (by omega)
  have rows : wire p.mvinRowsBits (columns p r x / 2 ^ r.cfg.downsample.toNat) ≤ tileCols r := by
    omega
  have cols : wire p.mvinColsBits (channels p r x) ≤ outerSize r := by omega
  refine ⟨rows, cols, fun m hm i hi => ?_⟩
  simp only [data] at hm hi ⊢
  have last : q + m + 1 ≤ blocksOf p.blockSize (outerSize r) := by
    have := block_lt pos at_x (by omega) hm
    omega
  have later := offset_lt last stride_le hn hu (show v + i < tileCols r by omega)
  constructor
  · omega
  · unfold aRows blockRows at *
    omega

/-! ### The walk -/

def ahead (r : Req) : LdPos InPixel → ℕ ×ₗ ℕ ×ₗ ℕ ×ₗ ℕ ×ₗ ℕ
  | .config => toLex (1, toLex (0, toLex (0, toLex (0, 0))))
  | .ld x => toLex (0, toLex ((r.cfg.batches - x.b).toNat,
      toLex ((r.cfg.irowsUnpadded + dpad r - x.irow).toNat,
        toLex ((r.cfg.icolsUnpadded + rpad r - x.icol).toNat, (r.cfg.ichs - x.ich).toNat))))

theorem sint_of_le {x : ℤ} (low : -2 ^ 15 ≤ x) (high : x < 2 ^ 15) : sint 16 x = x :=
  sint_of_range low high

theorem At.sint_eq (fits : Fits p r) {x : InPixel} (at_x : At p r x) :
    (⟨sint 16 x.b, sint 16 x.irow, sint 16 x.icol, sint 16 x.ich⟩ : InPixel) = x := by
  obtain ⟨b0, b1, i0, i1, r0, r1, c0, c1, -, -⟩ := at_x
  have := fits.batches_le
  have := fits.ichs_le
  have := fits.cols
  have := fits.rows
  have := fits.icols_le
  have := fits.irows_le
  simp only [top, leftmost] at r0 c0
  congr 1
  all_goals apply sint_of_le <;> omega

theorem at_first (fits : Fits p r) : At p r (first r) := by
  have := fits.cols
  have := fits.rows
  have := fits.icols_le
  have := fits.irows_le
  have := fits.icols_pos
  have := fits.irows_pos
  have := fits.batches_pos
  have := fits.ichs_pos
  have start : first r = ⟨0, top r, leftmost r, 0⟩ := by
    unfold first
    rw [sint_of_le, sint_of_le] <;> simp only [top, leftmost] <;> omega
  rw [start]
  constructor <;> simp only [top, leftmost]
  all_goals try omega
  · split_ifs <;> exact dvd_zero _
  · intro ds
    obtain ⟨-, left, -, up, -⟩ := fits.downsample ds
    omega

def ichIt (p : Params) (r : Req) : ℕ := if r.cfg.transInput3120 then 1 else maxChsPerMvin p r
def bIt (p : Params) (r : Req) : ℕ := if r.cfg.transInput3120 then maxChsPerMvin p r else 1

/-- The innermost counter that can steps, and those inside it start again. -/
inductive Steps (p : Params) (r : Req) (x : InPixel) : InPixel → Prop
  | ich : x.ich + ichIt p r < r.cfg.ichs → Steps p r x { x with ich := x.ich + ichIt p r }
  | icol : x.icol + columns p r x < r.cfg.icolsUnpadded + rpad r →
      Steps p r x ⟨x.b, x.irow, x.icol + columns p r x, 0⟩
  | irow : x.irow + 2 ^ r.cfg.downsample.toNat < r.cfg.irowsUnpadded + dpad r →
      Steps p r x ⟨x.b, x.irow + 2 ^ r.cfg.downsample.toNat, leftmost r, 0⟩
  | b : x.b + bIt p r < r.cfg.batches → Steps p r x ⟨x.b + bIt p r, top r, leftmost r, 0⟩

section

variable (fits : Fits p r) (pos : 0 < p.blockSize)
include fits pos

theorem ichIt_pos : 0 < ichIt p r := by
  have := fits.maxChsPerMvin_pos pos
  unfold ichIt
  split_ifs <;> omega

theorem bIt_pos : 0 < bIt p r := by
  have := fits.maxChsPerMvin_pos pos
  unfold bIt
  split_ifs <;> omega

theorem next_cases {x : InPixel} (at_x : At p r x) :
    next p r x = ⟨0, top r, leftmost r, 0⟩ ∨ Steps p r x (next p r x) := by
  have ich_nonneg := at_x.ich_nonneg
  have ichIt_pos := ichIt_pos fits pos
  have icol_ge := at_x.icol_ge
  have irow_ge := at_x.irow_ge
  obtain ⟨columns_pos, -, -⟩ := columns_spec fits pos at_x
  have toNat : ((columns p r x).toNat : ℤ) = columns p r x := Int.toNat_of_nonneg columns_pos.le
  have two : (0 : ℤ) < 2 ^ r.cfg.downsample.toNat := by positivity
  simp only [next, ← ichIt.eq_1, ← bIt.eq_1]
  by_cases ich : x.ich + ichIt p r < r.cfg.ichs
  · have ich_eq : sFloorAdd x.ich (ichIt p r) r.cfg.ichs 0 = x.ich + ichIt p r := by
      rw [sFloorAdd, if_neg (by omega)]
    have ne : ¬x.ich + ichIt p r = 0 := by omega
    simp only [ich_eq, ne, and_false, if_false]
    exact .inr (.ich ich)
  have ich_eq : sFloorAdd x.ich (ichIt p r) r.cfg.ichs 0 = 0 := by
    rw [sFloorAdd, if_pos (by omega)]
  by_cases icol : x.icol + columns p r x < r.cfg.icolsUnpadded + rpad r
  · have icol_eq : sFloorAdd x.icol (columns p r x).toNat (r.cfg.icolsUnpadded + rpad r) (leftmost r) =
        x.icol + columns p r x := by
      rw [sFloorAdd, toNat, if_neg (by omega)]
    have ne : ¬x.icol + columns p r x = leftmost r := by omega
    simp only [ich_eq, icol_eq, ne, if_true, false_and, and_false, if_false]
    exact .inr (.icol icol)
  have icol_eq : sFloorAdd x.icol (columns p r x).toNat (r.cfg.icolsUnpadded + rpad r) (leftmost r) =
      leftmost r := by
    rw [sFloorAdd, toNat, if_pos (by omega)]
  by_cases irow : x.irow + 2 ^ r.cfg.downsample.toNat < r.cfg.irowsUnpadded + dpad r
  · have narrow : sint 16 (x.irow + 2 ^ r.cfg.downsample.toNat) =
        x.irow + 2 ^ r.cfg.downsample.toNat := by
      have := fits.rows
      have := fits.irows_le
      simp only [top] at irow_ge
      apply sint_of_le <;> omega
    have ne : ¬x.irow + 2 ^ r.cfg.downsample.toNat = top r := by omega
    have low : ¬x.irow + 2 ^ r.cfg.downsample.toNat > r.cfg.irowsUnpadded + dpad r - 1 := by omega
    simp only [ich_eq, icol_eq, low, narrow, ne, and_self, false_and, if_true, if_false]
    exact .inr (.irow irow)
  have high : x.irow + 2 ^ r.cfg.downsample.toNat > r.cfg.irowsUnpadded + dpad r - 1 := by omega
  simp only [ich_eq, icol_eq, high, and_self, if_true]
  by_cases b : x.b + bIt p r < r.cfg.batches
  · rw [sFloorAdd, if_neg (by omega)]
    exact .inr (.b b)
  · rw [sFloorAdd, if_pos (by omega)]
    exact .inl rfl

end

theorem dvd_of_lt (r : Req) {n : ℤ} (nonneg : 0 ≤ n) (dvd : (p.blockSize : ℤ) ∣ n)
    (lt : n + maxChsPerMvin p r < outerSize r) : (p.blockSize : ℤ) ∣ n + maxChsPerMvin p r := by
  rcases maxChsPerMvin_cases (p := p) r with all | ⟨-, blocks⟩
  · omega
  · apply dvd_add dvd
    rw [blocks]
    push_cast
    exact dvd_mul_left _ _

section

variable (fits : Fits p r) (pos : 0 < p.blockSize) {x y : InPixel} (at_x : At p r x) (step : Steps p r x y)
include fits pos at_x step

theorem Steps.at_next : At p r y := by
  obtain ⟨columns_pos, -, evenChunk⟩ := columns_spec fits pos at_x
  have := fits.cols
  have := fits.rows
  have := fits.icols_pos
  have := fits.irows_pos
  have two : (0 : ℤ) < 2 ^ r.cfg.downsample.toNat := by positivity
  obtain ⟨b0, b1, i0, i1, r0, r1, c0, c1, outer, even⟩ := at_x
  have left : leftmost r < r.cfg.icolsUnpadded + rpad r := by simp only [leftmost]; omega
  have up : top r < r.cfg.irowsUnpadded + dpad r := by simp only [top]; omega
  have evenLeft : r.cfg.downsample = true → 2 ∣ leftmost r ∧ 2 ∣ top r := by
    intro ds
    obtain ⟨-, left, -, up, -⟩ := fits.downsample ds
    simp only [leftmost, top]
    omega
  have ich_pos : (0 : ℤ) < r.cfg.ichs := by omega
  cases step with
  | ich lt =>
    have nonneg : 0 ≤ x.ich + ichIt p r := by omega
    refine ⟨b0, b1, nonneg, lt, r0, r1, c0, c1, ?_, even⟩
    cases trans : r.cfg.transInput3120
    · simp only [trans, Bool.false_eq_true, if_false] at outer ⊢
      simp only [ichIt, trans, Bool.false_eq_true, if_false] at lt ⊢
      exact dvd_of_lt r i0 outer (by simpa [outerSize, trans] using lt)
    · simpa [trans] using outer
  | icol lt =>
    have ge : leftmost r ≤ x.icol + columns p r x := by omega
    refine ⟨b0, b1, le_rfl, ich_pos, r0, r1, ge, lt, ?_, fun ds => ?_⟩
    · split_ifs at outer ⊢
      · exact outer
      · exact dvd_zero _
    · exact ⟨(even ds).1, dvd_add (even ds).2 (evenChunk ds)⟩
  | irow lt =>
    have ge : top r ≤ x.irow + 2 ^ r.cfg.downsample.toNat := by omega
    refine ⟨b0, b1, le_rfl, ich_pos, ge, lt, le_rfl, left, ?_, fun ds => ?_⟩
    · split_ifs at outer ⊢
      · exact outer
      · exact dvd_zero _
    · refine ⟨dvd_add (even ds).1 ?_, (evenLeft ds).1⟩
      simp [ds]
  | b lt =>
    have nonneg : 0 ≤ x.b + bIt p r := by omega
    refine ⟨nonneg, lt, le_rfl, ich_pos, le_rfl, up, le_rfl, left, ?_,
      fun ds => ⟨(evenLeft ds).2, (evenLeft ds).1⟩⟩
    cases trans : r.cfg.transInput3120
    · simp
    · simp only [trans, if_true] at outer ⊢
      simp only [bIt, trans, if_true] at lt ⊢
      exact dvd_of_lt r b0 outer (by simpa [outerSize, trans] using lt)

theorem Steps.ahead_lt : ahead r (.ld y) < ahead r (.ld x) := by
  obtain ⟨columns_pos, -, -⟩ := columns_spec fits pos at_x
  have ichIt_pos := ichIt_pos fits pos
  have bIt_pos := bIt_pos fits pos
  have two : (0 : ℤ) < 2 ^ r.cfg.downsample.toNat := by positivity
  simp only [ahead, Prod.Lex.toLex_lt_toLex, lt_irrefl, false_or, true_and]
  cases step with
  | ich lt => exact .inr ⟨rfl, .inr ⟨rfl, .inr ⟨rfl, by simp only; omega⟩⟩⟩
  | icol lt => exact .inr ⟨rfl, .inr ⟨rfl, .inl (by simp only; omega)⟩⟩
  | irow lt => exact .inr ⟨rfl, .inl (by simp only; omega)⟩
  | b lt => exact .inl (by simp only; omega)

end

theorem proper_of_fits (fits : Fits p r) (pow : p.blockSize = 2 ^ log2Up p.blockSize) :
    Proper p r := by
  have pos : 0 < p.blockSize := pow ▸ Nat.two_pow_pos _
  unfold Proper Walker.Total
  by_cases dead : (spec p).dead r = true
  · exact ⟨[], by simp [dead], by simp⟩
  let Inv : LdPos InPixel → Prop := fun x => ∀ y, x = .ld y → At p r y
  have step : ∀ x, Inv x → ∀ y, (spec p).step r x = some y → Inv y ∧ ahead r y < ahead r x := by
    intro x inv y goes
    cases x with
    | config =>
      obtain rfl : LdPos.ld (first r) = y := Option.some.inj goes
      refine ⟨fun z hz => LdPos.ld.inj hz ▸ at_first fits, ?_⟩
      simp [ahead, Prod.Lex.toLex_lt_toLex]
    | ld x =>
      have at_x := inv x rfl
      simp only [spec] at goes
      split_ifs at goes with done
      obtain steps := (next_cases fits pos at_x).resolve_left done
      rw [(steps.at_next fits pos at_x).sint_eq fits] at goes
      obtain rfl := Option.some.inj goes
      exact ⟨fun z hz => LdPos.ld.inj hz ▸ steps.at_next fits pos at_x, steps.ahead_lt fits pos at_x⟩
  obtain ⟨es, emits, made⟩ := Walker.exists_emits
    (InvImage.wf (ahead r) (wellFounded_lt (α := ℕ ×ₗ ℕ ×ₗ ℕ ×ₗ ℕ ×ₗ ℕ))) step
    (x := (spec p).start r) (by intro y hy; cases hy)
  refine ⟨es, by rw [if_neg dead]; exact emits, fun e mem => ?_⟩
  obtain ⟨x, inv, emit⟩ := made e mem
  cases x with
  | config =>
    obtain rfl := Option.some.inj emit
    trivial
  | ld x =>
    obtain rfl := Option.some.inj emit
    exact inTile_mvinCmd fits pow (inv x rfl)

end Gemmini.LoopConv.LdInput
