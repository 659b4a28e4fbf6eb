import Gemmini.Conv.InputMoves

/-!
# The tiles of a convolution on the functional model

The state in which `loop_conv_ws` begins to move the input of a tile of `tiled_conv`, and what follows
for the tile: where its input lands, and what is read for it.
-/

namespace Gemmini.Conv

open LoopConv (Params smallParams)
open LoopMatmul (wire)

namespace Side

variable (a : Args) (s : Side)

def lead : ℤ := if a.inputDilated then (s.before a + 1) / 2 else s.before a

def unpadded : ℤ :=
  if a.inputDilated then (s.irows a - s.before a - s.after a + 1).tdiv 2
  else s.irows a - s.before a - s.after a

structure Sized : Prop where
  irows_le : s.irows a ≤ 2 ^ 14
  before_le : s.before a ≤ 2 ^ 14
  after_le : s.after a ≤ 2 ^ 14

end Side

/-- The sizes of a tile fit the fields of the commands and the types of the functional model. -/
structure Sized (p : Params) (a : Args) (t : Tile) : Prop where
  fields : ∀ fs ∈ [fields1a a, fields1b a, fields2a a, fields2b a t, fields3a a t, fields3b a t,
    fields4a a t 8, fields4b a t, fields7a p a t, fields7b a], ∀ f ∈ fs, f.Fits
  pooling : a.poolPadding < a.poolSize
  rows : (rowSide a t).Sized a
  cols : (colSide a t).Sized a
  batches_le : batches' a t ≤ 2 ^ 14
  kchs_le : kchs' a t ≤ 2 ^ 14
  chunk : p.maxBlockLen * p.blockSize ≤ 2 ^ 14
  spad_le : p.maxAddr ≤ 2 ^ 16
  /-- The check of `tiled_conv` leaves out the rounding of the paddings of a dilated input. -/
  dilated : a.inputDilated = true → tileSpadRows p a t ≤ p.maxAddr / 2
  even : a.downsample = true → 2 ∣ p.blockSize
  bytes_le : p.inputBytes ≤ 2 ^ 14
  /-- Elements are numbered by an `int`, and have addresses. -/
  elements : a.planes * a.inRowDim * a.inColDim * a.pitch + a.width ≤ 2 ^ 31
  addresses : a.input + (a.planes * a.inRowDim * a.inColDim * a.pitch + a.width) * p.inputBytes < 2 ^ 64

namespace Functional

variable {p : Params} {a : Args} {t : Tile}

/-- The loops work on what `tiled_conv` has computed for the tile. -/
structure Holds (p : Params) (a : Args) (t : Tile) (s : Regs) : Prop where
  batchSize : s.batchSize = a.batchSize
  inRowDim : s.inRowDim = a.inRowDim
  inColDim : s.inColDim = a.inColDim
  inStride : s.inStride = a.inStride
  stride : s.stride = a.stride
  kernelDilation : s.kernelDilation = a.kernelDilation
  batches : s.batches = (batches' a t).toNat
  kchs : s.kchs = (kchs' a t).toNat
  krows : s.krows = (krows' a t).toNat
  kcols : s.kcols = (kcols' a t).toNat
  orows : s.orows = ((rowSide a t).orows a).toNat
  ocols : s.ocols = ((colSide a t).orows a).toNat
  upad : s.upad = ((rowSide a t).before a).toNat
  dpad : s.dpad = ((rowSide a t).after a).toNat
  lpad : s.lpad = ((colSide a t).before a).toNat
  rpad : s.rpad = ((colSide a t).after a).toNat
  input : s.input = (BitVec.ofInt 64 (inputPtr p a t)).toNat
  transInput3120 : s.transInput3120 = a.transInput3120
  downsample : s.downsample = a.downsample
  inputDilated : s.inputDilated = a.inputDilated
  repeats : s.maxPixelsPerRow =
    if (maxPixelsPerRow p a t).toNat = 0 then 1 else (maxPixelsPerRow p a t).toNat
  aSpadId : s.aSpadId = aSpadId a t

theorem holds_regs (sized : Sized p a t) (s : Regs) : Holds p a t (regs p a t s) := by
  have narrow : 8 ≤ 10 := by decide
  have read {fs v pos len} (mem : fs ∈ operands p a t 8) (hf : ⟨v, pos, len⟩ ∈ fs) :=
    slice_of_fits narrow sized.fields mem hf
  have readBit {fs b pos} (mem : fs ∈ operands p a t 8) (hf : Field.flag b pos ∈ fs) :=
    bit_of_fits narrow sized.fields mem hf
  have held {v pos len} (hf : ⟨v, pos, len⟩ ∈ fields4a a t 8) := read (by simp [operands]) hf
  constructor
  case batchSize => exact read (v := a.batchSize) (by simp [operands]) (by simp [fields1a])
  case inRowDim => exact read (v := a.inRowDim) (by simp [operands]) (by simp [fields1a])
  case inColDim => exact read (v := a.inColDim) (by simp [operands]) (by simp [fields3b])
  case inStride => exact read (v := a.inStride) (by simp [operands]) (by simp [fields4b])
  case stride => exact read (v := a.stride) (by simp [operands]) (by simp [fields1b])
  case kernelDilation => exact held (v := a.kernelDilation) (by simp [fields4a])
  case orows => exact held (by simp [fields4a])
  case aSpadId => exact read (v := aSpadId a t) (by simp [operands]) (by simp [fields7a])
  case input => rfl
  case repeats =>
    have pixels : slice (word (fields7a p a t)) 8 8 = _ :=
      read (v := maxPixelsPerRow p a t) (by simp [operands]) (by simp [fields7a])
    change (if slice (word (fields7a p a t)) 8 8 = 0 then 1 else slice (word (fields7a p a t)) 8 8) = _
    rw [pixels]
  case transInput3120 | downsample | inputDilated =>
    apply readBit ?_ ?_
    · simp [operands]
    · simp [fields7a, fields7b]
  all_goals
    apply read ?_ ?_
    · simp [operands]
    · simp [fields2b, fields3a, fields3b, fields4b]

/-! ### Sizes -/

section Side

variable {s : Regs} {d : Side}

theorem undilated_eq (dilated : s.inputDilated = a.inputDilated) (x : ℕ) :
    s.undilated x = if a.inputDilated then ((x : ℤ) + 1) / 2 else x := by
  unfold Regs.undilated
  rw [dilated]
  cases a.inputDilated
  · rfl
  · rw [Bool.toNat_true, Nat.shiftRight_one, if_pos rfl]
    rfl

theorem tdiv_two_spec (x : ℤ) : (0 ≤ x → 2 * x.tdiv 2 ≤ x ∧ x ≤ 2 * x.tdiv 2 + 1) ∧
    (x < 0 → x ≤ 2 * x.tdiv 2 ∧ 2 * x.tdiv 2 ≤ x + 1) := by
  constructor
  · intro nonneg
    rw [Int.tdiv_eq_ediv_of_nonneg nonneg]
    omega
  · intro neg
    have flip := Int.neg_tdiv (a := x) (b := 2)
    rw [Int.tdiv_eq_ediv_of_nonneg (by omega)] at flip
    omega

/-- One direction of a tile, in the words of the loops. -/
structure SideHolds (a : Args) (d : Side) (before unpadded after whole : ℤ) : Prop where
  sum : before + unpadded + after = whole
  pos : 0 < whole
  le : whole ≤ 2 ^ 14
  before_le : before ≤ 2 ^ 14
  before_eq : before = d.lead a
  unpadded_eq : unpadded = d.unpadded a
  whole_eq : whole = d.stored a

theorem sideHolds (sound : d.Sound a) (sized : d.Sized a) (stride : 0 < a.stride)
    (dilation : 0 < a.kernelDilation) (hs : s.stride = a.stride)
    (hk : s.kernelDilation = a.kernelDilation) (hd : s.inputDilated = a.inputDilated) :
    SideHolds a d (s.undilated (d.before a).toNat)
      (s.unpadded (d.orows a).toNat d.kernels.toNat (d.before a).toNat (d.after a).toNat)
      (s.undilated (d.after a).toNat)
      (s.padded (d.orows a).toNat d.kernels.toNat (d.before a).toNat (d.after a).toNat) := by
  have before := d.before_nonneg (a := a)
  have after := d.after_nonneg (a := a)
  obtain ⟨irows_le, before_le, after_le⟩ := sized
  have irows := sound.irows_pos stride dilation
  have orows := sound.orows_pos
  have kernels := sound.kernels_pos
  have kernel := sound.dilatedKernel_pos dilation
  have some' : 0 < d.orows a * a.stride := mul_pos orows (by exact_mod_cast stride)
  have without : s.withoutDilation (d.orows a).toNat d.kernels.toNat = d.irows a := by
    unfold Regs.withoutDilation
    unfold Side.irows at irows_le ⊢
    rw [hs, hk, Int.toNat_of_nonneg orows.le, Int.toNat_of_nonneg kernels.le]
    change sint 16 (d.orows a * a.stride + sint 16 (a.dilatedKernel d.kernels) - 1) = _
    rw [sint16 (x := a.dilatedKernel d.kernels) (by omega) (by omega)]
    exact sint16 (by omega) (by omega)
  have half := tdiv_two_spec (d.irows a - d.before a - d.after a + 1)
  have unpadded : s.unpadded (d.orows a).toNat d.kernels.toNat (d.before a).toNat (d.after a).toNat =
      d.unpadded a := by
    unfold Regs.unpadded Side.unpadded
    rw [without, hd, Int.toNat_of_nonneg before, Int.toNat_of_nonneg after,
      sint16 (x := d.irows a - d.before a - d.after a) (by omega) (by omega)]
    apply sint16 <;> split_ifs <;> omega
  have lead : s.undilated (d.before a).toNat = d.lead a := by
    rw [undilated_eq hd, Int.toNat_of_nonneg before]
    rfl
  have trail : s.undilated (d.after a).toNat =
      if a.inputDilated then (d.after a + 1) / 2 else d.after a := by
    rw [undilated_eq hd, Int.toNat_of_nonneg after]
  have sum : d.lead a + d.unpadded a + (if a.inputDilated then (d.after a + 1) / 2 else d.after a) =
      d.stored a := by
    unfold Side.lead Side.unpadded Side.stored
    split_ifs <;> omega
  have range : 0 < d.stored a ∧ d.stored a ≤ 2 ^ 14 ∧ d.lead a ≤ 2 ^ 14 := by
    unfold Side.stored Side.lead
    split_ifs <;> omega
  have whole : s.padded (d.orows a).toNat d.kernels.toNat (d.before a).toNat (d.after a).toNat =
      d.stored a := by
    unfold Regs.padded
    rw [unpadded, lead, trail, without, hd]
    cases on : a.inputDilated
    · simp only [Side.stored, on, Bool.false_eq_true, if_false]
      exact sint16 (by omega) (by omega)
    · simp only [on, if_true] at sum ⊢
      rw [show d.unpadded a + d.lead a + (d.after a + 1) / 2 = d.stored a by omega]
      exact sint16 (by omega) (by omega)
  rw [unpadded, lead, trail, whole]
  exact ⟨sum, range.1, range.2.1, range.2.2, rfl, rfl, rfl⟩

end Side

section Tile

variable {s : Regs} (pos : 0 < p.blockSize) (accepted : a.Accepted p) (issued : Issued a t)
  (sized : Sized p a t) (holds : Holds p a t s)
include pos accepted issued sized holds

omit pos in
theorem rows_hold : SideHolds a (rowSide a t) (s.undilated s.upad) (irowsUnpadded s)
    (s.undilated s.dpad) (irows s) := by
  obtain ⟨-, -, -, -, stride, -, dilation, -⟩ := accepted.sizes_pos
  unfold irowsUnpadded irows
  rw [holds.upad, holds.dpad, holds.orows, holds.krows]
  exact sideHolds (rowSide_sound accepted issued sized.pooling) sized.rows stride dilation holds.stride
    holds.kernelDilation holds.inputDilated

omit pos in
theorem cols_hold : SideHolds a (colSide a t) (s.undilated s.lpad) (icolsUnpadded s)
    (s.undilated s.rpad) (icols s) := by
  obtain ⟨-, -, -, -, stride, -, dilation, -⟩ := accepted.sizes_pos
  unfold icolsUnpadded icols
  rw [holds.lpad, holds.rpad, holds.ocols, holds.kcols]
  exact sideHolds (colSide_sound accepted issued sized.pooling) sized.cols stride dilation holds.stride
    holds.kernelDilation holds.inputDilated

omit pos in
theorem ichs_eq : ichs s = kchs' a t := by
  have ch := (planes_spec accepted issued).2.1
  have ch_le := sized.kchs_le
  rw [ichs, holds.kchs, Int.toNat_of_nonneg ch.le]
  exact sint16 (by omega) (by omega)

theorem plain_of_holds : Plain p s := by
  have rows := rows_hold accepted issued sized holds
  have cols := cols_hold accepted issued sized holds
  obtain ⟨⟨b, -⟩, ch, -⟩ := planes_spec accepted issued
  have b_le := sized.batches_le
  have ch_le := sized.kchs_le
  have chs := ichs_eq accepted issued sized holds
  exact {
    block := pos
    chunk := sized.chunk
    batches_pos := by rw [holds.batches]; omega
    batches_le := by rw [holds.batches]; omega
    ichs_pos := by omega
    ichs_le := by omega
    cols := cols.sum
    rows := rows.sum
    icols_pos := cols.pos
    irows_pos := rows.pos
    icols_le := cols.le
    irows_le := rows.le
    left_le := cols.before_le
    up_le := rows.before_le
    downsample := by
      intro ds
      rw [holds.downsample] at ds
      obtain ⟨⟨up, down, height⟩, left, right, width⟩ := sides_even accepted issued ds
      have none : a.inputDilated = false := by
        simp only [Args.downsample, Bool.and_eq_true, beq_iff_eq] at ds
        simp [Args.inputDilated, ds.1.2]
      have before := cols.before_eq
      have above := rows.before_eq
      have between := cols.unpadded_eq
      have high := rows.whole_eq
      have after : s.undilated s.rpad = (colSide a t).after a := by
        rw [undilated_eq holds.inputDilated, holds.rpad, none, if_neg (by decide),
          Int.toNat_of_nonneg (Side.after_nonneg _)]
      simp only [Side.lead, Side.unpadded, Side.stored, none, Bool.false_eq_true, if_false]
        at before above between high
      exact ⟨sized.even ds, by omega, by omega, by omega, by omega, by omega⟩ }

omit pos in
theorem aRows_eq_tileSpadRows : aRows p s = tileSpadRows p a t := by
  have rows := rows_hold accepted issued sized holds
  have cols := cols_hold accepted issued sized holds
  have shift : ∀ {x : ℤ}, 0 ≤ x → (ds s x).toNat = x.toNat >>> a.downsample.toNat := by
    intro x nonneg
    rw [ds, holds.downsample, Nat.shiftRight_eq_div_pow]
    lift x to ℕ using nonneg
    norm_cast
  have high : tileRows s = ((rowSide a t).stored a).toNat >>> a.downsample.toNat := by
    rw [tileRows, shift rows.pos.le, rows.whole_eq]
  have wide : tileCols s = ((colSide a t).stored a).toNat >>> a.downsample.toNat := by
    rw [tileCols, shift cols.pos.le, cols.whole_eq]
  have chs := ichs_eq accepted issued sized holds
  have b : (s.batches : ℤ).toNat = (batches' a t).toNat := by rw [holds.batches, Int.toNat_natCast]
  unfold aRows blockRows tileSpadRows outerSize innerSize
  rw [high, wide, holds.transInput3120, chs]
  cases a.transInput3120
  · simp only [Bool.false_eq_true, if_false, b]
    rfl
  · simp only [if_true, b]
    rfl

theorem placed_of_holds : Placed p s where
  toPlain := plain_of_holds pos accepted issued sized holds
  half := by
    rw [aRows_eq_tileSpadRows accepted issued sized holds]
    cases dilated : a.inputDilated
    · exact (tileSpadRows_le pos accepted issued sized.pooling dilated).trans accepted.spad
    · exact sized.dilated dilated
  spad_le := sized.spad_le
  repeat_pos := by
    rw [holds.repeats]
    split_ifs <;> omega

end Tile

/-! ### What is read -/

/-- The pixels of a tile are pixels of the input; the range between the paddings of a dilated input starts
and ends with one. -/
theorem first_spec {d : Side} {n : ℕ} (dilation : a.inputDilation = 1 ∨ a.inputDilation = 2)
    (hn : d.inDim = n + (a.inputDilation - 1) * (n - 1)) :
    0 ≤ d.first a ∧ (0 < d.unpadded a → d.first a + d.unpadded a ≤ n) := by
  rcases dilation with one | two
  · have plain : a.inputDilated = false := by simp [Args.inputDilated, one]
    rw [one] at hn
    simp only [Side.first, Side.unpadded, Side.before, Side.after, plain, Bool.false_eq_true,
      false_and, if_false, Bool.toNat_false, pow_zero, Int.ediv_one]
    split_ifs <;> omega
  · have dilated : a.inputDilated = true := by simp [Args.inputDilated, two]
    rw [two] at hn
    have start : 0 ≤ d.i a + d.before a ∧ 2 ∣ d.i a + d.before a ∧
        (d.i a < 0 → d.i a + d.before a = 0) := by
      unfold Side.before
      simp only [dilated, true_and]
      rcases lt_or_ge (d.i a) 0 with neg | nonneg
      · rw [if_pos neg, if_neg (by omega)]
        omega
      · rw [if_neg (by omega), Int.tmod_eq_emod_of_nonneg nonneg]
        split_ifs <;> omega
    have half := tdiv_two_spec (d.irows a - d.before a - d.after a + 1)
    simp only [Side.first, Side.unpadded, dilated, if_true, Bool.toNat_true, pow_one]
    refine ⟨by omega, fun some' => ?_⟩
    have after := d.after_nonneg (a := a)
    have finish : d.i a + d.irows a - d.after a ≤ d.inDim ∧
        (d.i a + d.irows a - d.after a) % 2 = 1 := by
      have nonneg : 0 ≤ d.i a + d.irows a := by omega
      unfold Side.after
      simp only [dilated, true_and]
      rw [Int.tmod_eq_emod_of_nonneg nonneg]
      split_ifs <;> omega
    omega

theorem index_range {n r c k : ℤ} (n_nonneg : 0 ≤ n) (n_lt : n < a.planes) (r_nonneg : 0 ≤ r)
    (r_lt : r < a.inRowDim) (c_nonneg : 0 ≤ c) (c_lt : c < a.inColDim) (k_nonneg : 0 ≤ k)
    (k_lt : k < a.width) : 0 ≤ a.index n r c k ∧
      a.index n r c k < ((a.planes * a.inRowDim * a.inColDim * a.pitch + a.width : ℕ) : ℤ) := by
  have pixel : r * a.inColDim + c ≤ a.inRowDim * a.inColDim := by
    have := mul_le_mul_of_nonneg_right (show r + 1 ≤ a.inRowDim by omega) (Int.natCast_nonneg a.inColDim)
    rw [add_mul, one_mul] at this
    omega
  have whole : n * a.inRowDim * a.inColDim + r * a.inColDim + c ≤
      a.planes * a.inRowDim * a.inColDim := by
    have := mul_le_mul_of_nonneg_right (show n + 1 ≤ a.planes by omega)
      (Int.natCast_nonneg (a.inRowDim * a.inColDim))
    rw [add_mul, one_mul] at this
    push_cast at this
    rw [mul_assoc, mul_assoc]
    omega
  have scaled := mul_le_mul_of_nonneg_right whole (Int.natCast_nonneg a.pitch)
  unfold Args.index
  refine ⟨by positivity, ?_⟩
  push_cast
  omega

section Reads

variable {s : Regs} (pos : 0 < p.blockSize) (accepted : a.Accepted p) (issued : Issued a t)
  (sized : Sized p a t) (holds : Holds p a t s)

def plane0 (a : Args) (t : Tile) : ℕ := if a.transInput3120 then t.kch else t.b
def k0 (a : Args) (t : Tile) : ℕ := if a.transInput3120 then t.b else t.kch

theorem inputPtr_eq (given : inputPtr p a t ≠ 0) : inputPtr p a t = a.input +
    a.index (plane0 a t) ((rowSide a t).first a) ((colSide a t).first a) (k0 a t) * p.inputBytes := by
  unfold inputPtr at given ⊢
  have moved : ¬(aReuse a ∧ t.poch > 0) := fun reuse => given (if_pos reuse)
  rw [if_neg moved]
  unfold Args.index Args.pitch plane0 k0
  split_ifs <;> rfl

include accepted issued

theorem planes_le : plane0 a t + (if a.transInput3120 then kchs' a t else batches' a t) ≤ a.planes ∧
    k0 a t + (if a.transInput3120 then batches' a t else kchs' a t) ≤ a.width := by
  obtain ⟨⟨-, -, b⟩, -, -, ch⟩ := planes_spec accepted issued
  unfold plane0 k0 Args.planes Args.width
  split_ifs <;> omega

omit issued in
theorem firsts : 0 ≤ (rowSide a t).first a ∧ 0 ≤ (colSide a t).first a ∧
    (0 < (rowSide a t).unpadded a →
      (rowSide a t).first a + (rowSide a t).unpadded a ≤ a.inRowDim) ∧
    (0 < (colSide a t).unpadded a →
      (colSide a t).first a + (colSide a t).unpadded a ≤ a.inColDim) := by
  obtain ⟨-, -, -, -, -, dilation, -⟩ := accepted.sizes_pos
  have few := accepted.dilation
  have row := first_spec (d := rowSide a t) (by omega : a.inputDilation = 1 ∨ a.inputDilation = 2) rfl
  have col := first_spec (d := colSide a t) (by omega : a.inputDilation = 1 ∨ a.inputDilation = 2) rfl
  exact ⟨row.1, col.1, row.2, col.2⟩

include sized holds

theorem sizes_eq :
    innerSize s = (if a.transInput3120 then kchs' a t else batches' a t) ∧
      outerSize s = if a.transInput3120 then batches' a t else kchs' a t := by
  have b := (planes_spec accepted issued).1.1
  have chs := ichs_eq accepted issued sized holds
  unfold innerSize outerSize
  rw [holds.transInput3120, chs, holds.batches, Int.toNat_of_nonneg b.le]
  exact ⟨rfl, rfl⟩

omit accepted issued in
theorem dramStride_eq :
    (dramStride p s <<< s.downsample.toNat) % 2 ^ 32 = 2 ^ a.downsample.toNat * (a.pitch * p.inputBytes) := by
  have stride : ((a.inStride : ℕ) : ℤ) < 2 ^ 16 := (sized.fields (fields4b a t) (by simp)
    ⟨a.inStride, 48, 16⟩ (by simp [fields4b])).2
  have batch : ((a.batchSize : ℕ) : ℤ) < 2 ^ 16 := (sized.fields (fields1a a) (by simp)
    ⟨a.batchSize, 0, 16⟩ (by simp [fields1a])).2
  have pitch : a.pitch ≤ 2 ^ 16 := by
    unfold Args.pitch
    split_ifs <;> omega
  have small : a.pitch * p.inputBytes ≤ 2 ^ 16 * 2 ^ 14 := Nat.mul_le_mul pitch sized.bytes_le
  have whole : dramStride p s = a.pitch * p.inputBytes := by
    unfold dramStride
    rw [holds.transInput3120, holds.batchSize, holds.inStride]
    exact Nat.mod_eq_of_lt (by unfold Args.pitch at small; omega)
  rw [whole, holds.downsample, Nat.shiftLeft_eq, Nat.mul_comm]
  apply Nat.mod_eq_of_lt
  cases a.downsample
  · rw [Bool.toNat_false, pow_zero]
    omega
  · rw [Bool.toNat_true, pow_one]
    omega

omit accepted issued sized in
theorem source_eq {irow icol : ℤ} (b ich : ℤ) (pixel : ¬(irow < 0 ∨ irow ≥ irowsUnpadded s ∨ icol < 0 ∨
    icol ≥ icolsUnpadded s)) : source p s b irow icol ich = s.input +
      sint 32 (a.index (if s.transInput3120 then ich else b) irow icol
        (if s.transInput3120 then b else ich)) * p.inputBytes := by
  unfold source Args.index Args.pitch
  rw [if_neg pixel, holds.transInput3120, holds.inRowDim, holds.inColDim, holds.batchSize,
    holds.inStride]
  split_ifs <;> rfl

omit accepted issued sized holds in
theorem index_add (n n' r r' c c' k k' : ℤ) :
    a.index n r c k + a.index n' r' c' k' = a.index (n + n') (r + r') (c + c') (k + k') := by
  unfold Args.index
  ring

omit accepted issued in
theorem input_eq (given : s.input ≠ 0)
    (start : 0 ≤ a.index (plane0 a t) ((rowSide a t).first a) ((colSide a t).first a) (k0 a t) ∧
      a.index (plane0 a t) ((rowSide a t).first a) ((colSide a t).first a) (k0 a t) <
        ((a.planes * a.inRowDim * a.inColDim * a.pitch + a.width : ℕ) : ℤ)) :
    (s.input : ℤ) = a.input + a.index (plane0 a t) ((rowSide a t).first a) ((colSide a t).first a)
      (k0 a t) * p.inputBytes := by
  have given' : inputPtr p a t ≠ 0 := by
    intro null
    rw [holds.input, null] at given
    exact given rfl
  have whole := inputPtr_eq given'
  have below := mul_le_mul_of_nonneg_right start.2.le (Int.natCast_nonneg p.inputBytes)
  have nonneg := mul_nonneg start.1 (Int.natCast_nonneg p.inputBytes)
  have room := Int.ofNat_lt.mpr sized.addresses
  rw [Nat.cast_add, Nat.cast_mul] at room
  rw [← whole, holds.input, BitVec.toNat_ofInt]
  exact wire_of_range (by omega) (by omega)

include pos

theorem reads_input (given : s.input ≠ 0) {b irow icol ich : ℤ} (at_x : At p s b irow icol ich) :
    (move p s b irow icol ich).Reads p s (a.InInput p) := by
  have plain := plain_of_holds pos accepted issued sized holds
  by_cases zeros : irow < 0 ∨ irow ≥ irowsUnpadded s ∨ icol < 0 ∨ icol ≥ icolsUnpadded s
  · left
    change wire 64 (source p s b irow icol ich) = 0
    rw [source, if_pos zeros]
    decide
  have from_input := source_eq holds b ich zeros
  simp only [not_or, not_lt, ge_iff_le, not_le] at zeros
  obtain ⟨irow_nonneg, irow_lt, icol_nonneg, icol_lt⟩ := zeros
  right
  intro row hrow col hcol
  obtain ⟨row0_nonneg, col0_nonneg, row0, col0⟩ := firsts (t := t) accepted
  rw [← (rows_hold accepted issued sized holds).unpadded_eq] at row0
  rw [← (cols_hold accepted issued sized holds).unpadded_eq] at col0
  obtain ⟨plane_le, k_le⟩ := planes_le accepted issued
  obtain ⟨inner_eq, outer_eq⟩ := sizes_eq accepted issued sized holds
  rw [← inner_eq] at plane_le
  rw [← outer_eq] at k_le
  have inner := at_x.inner_nonneg
  have inner_lt := Plain.inner_lt at_x
  have outer := at_x.outer_nonneg
  have cols_le := (plain.move_cols at_x).2.1
  have rows := plain.move_rows at_x
  have chunk := plain.pixels_le_unpadded icol_nonneg icol_lt
  have pixel_lt : icol + row * 2 ^ a.downsample.toNat < icolsUnpadded s := by
    unfold ds at rows
    rw [holds.downsample] at rows
    cases on : a.downsample
    · rw [on, Bool.toNat_false, pow_zero, Int.ediv_one] at rows
      simp only [Bool.toNat_false, pow_zero, mul_one]
      omega
    · rw [on, Bool.toNat_true, pow_one] at rows
      simp only [Bool.toNat_true, pow_one]
      omega
  generalize hn : (if s.transInput3120 then ich else b) = n at *
  generalize hk : (if s.transInput3120 then b else ich) = k at *
  have start := index_range (a := a) (Int.natCast_nonneg (plane0 a t)) (by omega) row0_nonneg
    (by omega) col0_nonneg (by omega) (Int.natCast_nonneg (k0 a t)) (by omega)
  have first := index_range (a := a) (n := plane0 a t + n) (r := (rowSide a t).first a + irow)
    (c := (colSide a t).first a + icol) (k := k0 a t + k) (by omega) (by omega) (by omega) (by omega)
    (by omega) (by omega) (by omega) (by omega)
  rw [← index_add] at first
  have elements := sized.elements
  have bound := input_eq sized holds given start
  have below := mul_le_mul_of_nonneg_right first.2.le (Int.natCast_nonneg p.inputBytes)
  have nonneg := mul_nonneg first.1 (Int.natCast_nonneg p.inputBytes)
  have room := Int.ofNat_lt.mpr sized.addresses
  have dram : ((move p s b irow icol ich).dram : ℤ) = s.input + a.index n irow icol k * p.inputBytes := by
    change (wire 64 (source p s b irow icol ich) : ℤ) = _
    rw [Nat.cast_add, Nat.cast_mul] at room
    rw [add_mul] at below nonneg
    rw [from_input, sint_of_range (w := 31) (by omega) (by omega)]
    exact wire_of_range (by omega) (by omega)
  refine ⟨(plane0 a t + n).toNat, ((rowSide a t).first a + irow).toNat,
    ((colSide a t).first a + (icol + row * 2 ^ a.downsample.toNat)).toNat,
    (k0 a t + (k + col)).toNat, by omega, by omega, by omega, by omega, ?_⟩
  have step : 0 ≤ (row : ℤ) * 2 ^ a.downsample.toNat := by positivity
  rw [Int.toNat_of_nonneg (by omega), Int.toNat_of_nonneg (by omega), Int.toNat_of_nonneg (by omega),
    Int.toNat_of_nonneg (by omega), ← index_add, Move.source, dramStride_eq sized holds]
  push_cast
  rw [dram, bound]
  unfold Args.index
  ring

end Reads

/-- The input of a tile of a convolution that `tiled_conv` accepts: it lands in the region of the tile
and comes from the input, if the tile is not narrower than its left padding or a number of blocks wide,
and rows are not repeated at the start of the second half of the scratchpad. -/
theorem input_moves_iff (pos : 0 < p.blockSize) (accepted : a.Accepted p) (issued : Issued a t)
    (sized : Sized p a t) (s : Regs) :
    (∀ m ∈ moves p (regs p a t s), m.Lands p (regs p a t s) (tileSpadRows p a t) ∧
        m.Reads p (regs p a t s) (a.InInput p)) ↔
      BitVec.ofInt 64 (inputPtr p a t) = 0 ∨
        (((colSide a t).lead a ≤ (colSide a t).stored a ∨
            (p.blockSize : ℤ) ∣ (colSide a t).stored a) ∧
          (aSpadId a t ≠ 2 ∨ maxPixelsPerRow p a t ≤ 1)) := by
  have holds := holds_regs sized s
  have placed := placed_of_holds pos accepted issued sized holds
  have cols := cols_hold accepted issued sized holds
  have pointer : (regs p a t s).input = 0 ↔ BitVec.ofInt 64 (inputPtr p a t) = 0 := by
    rw [holds.input, ← BitVec.toNat_inj]
    rfl
  have single : (regs p a t s).maxPixelsPerRow ≤ 1 ↔ maxPixelsPerRow p a t ≤ 1 := by
    rw [holds.repeats]
    split_ifs <;> omega
  rw [← pointer]
  by_cases null : (regs p a t s).input = 0
  · have nothing : moves p (regs p a t s) = [] := if_pos null
    simp [nothing, null]
  · have iff := placed.lands_iff null
    rw [aRows_eq_tileSpadRows accepted issued sized holds, cols.before_eq, cols.whole_eq, holds.aSpadId,
      single] at iff
    rw [or_iff_right null, ← iff]
    constructor
    · exact fun all m mem => (all m mem).1
    · intro lands m mem
      obtain ⟨-, b, irow, icol, ich, at_x, rfl⟩ := placed.toPlain.at_of_mem mem
      exact ⟨lands _ mem, reads_input pos accepted issued sized holds null at_x⟩

end Functional

instance (a : Args) (s : Side) : Decidable (s.Sized a) :=
  decidable_of_iff (s.irows a ≤ 2 ^ 14 ∧ s.before a ≤ 2 ^ 14 ∧ s.after a ≤ 2 ^ 14)
    ⟨fun h => ⟨h.1, h.2.1, h.2.2⟩, fun h => ⟨h.1, h.2, h.3⟩⟩

theorem firstTap_sized {n : ℕ} (tap : n = 0 ∨ n = 2) :
    Sized smallParams widePadding (firstTap n) := by
  rcases tap with rfl | rfl <;> constructor <;> decide

/-- The state for the first tap of the output at `(n, n)`. -/
def tapRegs (n : ℕ) : Functional.Regs :=
  Functional.regs smallParams widePadding (firstTap n) Functional.blankRegs

theorem unpadded_tile_moved :
    Functional.moves smallParams (tapRegs 2) ≠ [] ∧
    ∀ m ∈ Functional.moves smallParams (tapRegs 2),
      m.Lands smallParams (tapRegs 2)
        (tileSpadRows smallParams widePadding (firstTap 2)) ∧
      m.Reads smallParams (tapRegs 2) (widePadding.InInput smallParams) :=
  ⟨by decide, (Functional.input_moves_iff (by decide) widePadding_accepted
    (firstTap_issued (by decide)) (firstTap_sized (.inr rfl)) Functional.blankRegs).mpr
    (.inr (by decide))⟩

/-- The first tap of the first output lies in the padding.  The tile has one row in the scratchpad, and two
rows are moved. -/
theorem padding_tile_overrun :
    widePadding.Accepted smallParams ∧ Issued widePadding (firstTap 0) ∧
      tileSpadRows smallParams widePadding (firstTap 0) = 1 ∧
      ∃ m ∈ Functional.moves smallParams (tapRegs 0),
        m.rows = 2 ∧ m.addr = 0 ∧ ¬m.Lands smallParams (tapRegs 0) 1 := by
  refine ⟨widePadding_accepted, firstTap_issued (by decide), by decide,
    Functional.move smallParams (tapRegs 0) 0 (-2) (-2) 0, by decide, by decide,
    by decide, fun lands => ?_⟩
  have second := (lands 1 (by decide) 0 (by decide) 0 (by decide)
    (Nat.zero_le _)).2
  revert second
  decide

end Gemmini.Conv
