import Gemmini.Conv.Tiles
import Gemmini.LoopConv.LdInput

/-!
# The input loader on the tiles of a convolution

What the input loader of `LoopConv` does with the requests of `tiled_conv`.  The paddings of a tile
wholly in the padding exceed its size.
-/

namespace Gemmini.Conv

open LoopConv (Params Cfg Req undilated smallParams blankCfg)
open LoopConv.LdInput
open LoopMatmul (wire)

variable (p : Params) (a : Args) (t : Tile)

/-- The request of a tile for a unit; `c` is what the slot held before. -/
def request (c : Cfg) (base : ℕ) (loopId : Bool) : Req :=
  ⟨(loopCmds p a t).foldl (fun c x => x.edit p c) c, base, loopId⟩

/-- Every size fits its field, and the array has what the convolution asks for. -/
structure Named : Prop where
  fields : ∀ fs ∈ [fields1a a, fields1b a, fields2a a, fields2b a t, fields3a a t, fields3b a t,
    fields4a a t 10, fields4b a t, fields7a p a t, fields7b a], ∀ f ∈ fs, f.Fits
  training : a.inputDilated = true ∨ a.transInput3120 = true → p.hasTrainingConvs = true

variable {p a t}

def operands (p : Params) (a : Args) (t : Tile) (bits : ℕ) : List (List Field) :=
  [fields1a a, fields1b a, fields2a a, fields2b a t, fields3a a t, fields3b a t, fields4a a t bits,
    fields4b a t, fields7a p a t, fields7b a]

section Operands

variable {bits : ℕ} (narrow : bits ≤ 10) (fit : ∀ fs ∈ operands p a t bits, ∀ f ∈ fs, f.Fits)
  {fs : List Field} (mem : fs ∈ operands p a t bits) {pos : ℕ}
include narrow fit mem

theorem slice_of_fits {v : ℤ} {len : ℕ} (hf : ⟨v, pos, len⟩ ∈ fs) :
    slice (word fs) pos len = v.toNat := by
  refine slice_word ?_ ?_ (fit fs mem) hf
  all_goals
    simp only [operands, List.mem_cons, List.not_mem_nil, or_false] at mem
    rcases mem with rfl | rfl | rfl | rfl | rfl | rfl | rfl | rfl | rfl | rfl
  all_goals simp [Descending, fields1a, fields1b, fields2a, fields2b, fields3a, fields3b, fields4a,
    fields4b, fields7a, fields7b, Field.flag]
  all_goals omega

theorem bit_of_fits {b : Bool} (hf : Field.flag b pos ∈ fs) : bit (word fs) pos = b := by
  have same := slice_of_fits narrow fit mem hf
  rw [bit_eq_slice, same]
  cases b <;> rfl

end Operands

/-- What the loader reads of a request is what `tiled_conv` has computed for the tile. -/
structure Carries (a : Args) (t : Tile) (c : Cfg) : Prop where
  batches : c.batches = (batches' a t).toNat
  ichs : c.ichs = (kchs' a t).toNat
  krows : c.krows = (krows' a t).toNat
  kcols : c.kcols = (kcols' a t).toNat
  stride : c.stride = a.stride
  kernelDilation : c.kernelDilation = a.kernelDilation
  orows : c.orows = ((rowSide a t).orows a).toNat
  ocols : c.ocols = ((colSide a t).orows a).toNat
  upad : c.upad = ((rowSide a t).before a).toNat
  dpad : c.dpad = ((rowSide a t).after a).toNat
  lpad : c.lpad = ((colSide a t).before a).toNat
  rpad : c.rpad = ((colSide a t).after a).toNat
  inputDilated : c.inputDilated = a.inputDilated
  transInput3120 : c.transInput3120 = a.transInput3120
  downsample : c.downsample = a.downsample
  aExSpadId : c.aExSpadId = aSpadId a t

theorem carries_request (named : Named p a t) (c : Cfg) (base : ℕ) (loopId : Bool) :
    Carries a t (request p a t c base loopId).cfg := by
  have read {fs v pos len} (mem : fs ∈ operands p a t 10) (hf : ⟨v, pos, len⟩ ∈ fs) :=
    slice_of_fits le_rfl named.fields mem hf
  have readBit {fs b pos} (mem : fs ∈ operands p a t 10) (hf : Field.flag b pos ∈ fs) :=
    bit_of_fits le_rfl named.fields mem hf
  have gated {fs b pos} (needs : b = true → p.hasTrainingConvs = true) (mem : fs ∈ operands p a t 10)
      (hf : Field.flag b pos ∈ fs) : (p.hasTrainingConvs && bit (word fs) pos) = b := by
    rw [readBit mem hf]
    cases b
    · simp
    · simp [needs]
  constructor
  case stride => exact read (v := a.stride) (by simp [operands]) (by simp [fields1b])
  case kernelDilation => exact read (v := a.kernelDilation) (by simp [operands]) (by simp [fields4a])
  case aExSpadId => exact read (v := aSpadId a t) (by simp [operands]) (by simp [fields7a])
  case downsample => exact readBit (by simp [operands]) (by simp [fields7b])
  case inputDilated => exact gated (named.training ∘ .inl) (by simp [operands]) (by simp [fields7b])
  case transInput3120 => exact gated (named.training ∘ .inr) (by simp [operands]) (by simp [fields7a])
  all_goals
    apply read ?_ ?_
    · simp [operands]
    · simp [fields2b, fields3a, fields3b, fields4a, fields4b]

/-! ### Sizes in the hardware -/

theorem wire_of_range {bits : ℕ} {x : ℤ} (nonneg : 0 ≤ x) (lt : x < 2 ^ bits) :
    (wire bits x : ℤ) = x := by
  rw [wire, Int.emod_eq_of_lt nonneg lt, Int.toNat_of_nonneg nonneg]

theorem extent_eq {s : Side} (sound : s.Sound a) (stride : 0 < a.stride)
    (dilation : 0 < a.kernelDilation) (dilation_lt : a.kernelDilation < 2 ^ 10)
    (kernels_lt : s.kernels < 2 ^ 16) (le : s.irows a ≤ 2 ^ 15) :
    (wire 34 ((s.orows a).toNat * a.stride + wire 32 (s.kernels.toNat +
      wire 16 (a.kernelDilation - 1) * wire 16 (s.kernels.toNat - 1)) - 1) : ℤ) = s.irows a := by
  have kernels := sound.kernels_pos
  have orows := sound.orows_pos
  have irows := sound.irows_pos stride dilation
  rw [Int.toNat_of_nonneg kernels.le, Int.toNat_of_nonneg orows.le,
    wire_of_range (x := (a.kernelDilation : ℤ) - 1) (by omega) (by omega),
    wire_of_range (x := s.kernels - 1) (by omega) (by omega)]
  have product : ((a.kernelDilation : ℤ) - 1) * (s.kernels - 1) ≤ (2 ^ 10) * 2 ^ 16 :=
    mul_le_mul (by omega) (by omega) (by omega) (by norm_num)
  have product_nonneg : 0 ≤ ((a.kernelDilation : ℤ) - 1) * (s.kernels - 1) :=
    mul_nonneg (by omega) (by omega)
  rw [wire_of_range (x := s.kernels + ((a.kernelDilation : ℤ) - 1) * (s.kernels - 1)) (by omega)
    (by omega)]
  have whole : s.orows a * a.stride + (s.kernels + ((a.kernelDilation : ℤ) - 1) * (s.kernels - 1)) - 1 =
      s.irows a := rfl
  rw [whole, wire_of_range irows.le (by omega)]

theorem undilated_false (x : ℕ) : undilated false x = x := rfl

theorem undilated_true (x : ℕ) : undilated true x = (x + 1) / 2 := by
  simp [undilated, Nat.shiftRight_one]

/-- Half of the wrapped number of unpadded pixels is zero again, if the paddings exceed a dilated side by
one pixel. -/
theorem unpadded_eq (dilated : Bool) {n l r : ℕ} (le : l + r ≤ n + dilated.toNat) (narrow : n ≤ 2 ^ 15) :
    undilated dilated (wire 36 (wire 35 (n - l) - r)) % 2 ^ 16 = undilated dilated (n - l - r) := by
  cases dilated
  · simp only [undilated_false, wire, Bool.toNat_false] at le ⊢
    omega
  · simp only [undilated_true, wire, Bool.toNat_true] at le ⊢
    omega

theorem undilated_add (dilated : Bool) {n l r w : ℕ} (le : l + r ≤ n + dilated.toNat) (narrow : n ≤ 2 ^ 15)
    (pos : 0 < n) (hw : undilated dilated w % 2 ^ 16 = undilated dilated (n - l - r)) :
    undilated dilated l + undilated dilated w % 2 ^ 16 + undilated dilated r =
      (if dilated then undilated dilated w + undilated true l + undilated true r else n) % 2 ^ 16 ∧
    (if dilated then undilated dilated w + undilated true l + undilated true r else n) % 2 ^ 16 =
      (if dilated then (n - l - r + 1) / 2 + (l + 1) / 2 + (r + 1) / 2 else n) ∧
    0 < (if dilated then (n - l - r + 1) / 2 + (l + 1) / 2 + (r + 1) / 2 else n) ∧
    (if dilated then (n - l - r + 1) / 2 + (l + 1) / 2 + (r + 1) / 2 else n) ≤ 2 ^ 15 := by
  cases dilated
  · simp only [undilated_false, Bool.false_eq_true, if_false, Bool.toNat_false] at le hw ⊢
    omega
  · simp only [undilated_true, if_true, Bool.toNat_true] at le hw ⊢
    omega

structure Handled (p : Params) (a : Args) (t : Tile) : Prop where
  named : Named p a t
  pooling : a.poolPadding < a.poolSize
  rows : (rowSide a t).before a + (rowSide a t).after a ≤ (rowSide a t).irows a + a.inputDilated.toNat
  cols : (colSide a t).before a + (colSide a t).after a ≤ (colSide a t).irows a + a.inputDilated.toNat
  rows_le : (rowSide a t).irows a ≤ 2 ^ 15
  cols_le : (colSide a t).irows a ≤ 2 ^ 15
  batches_le : batches' a t ≤ 2 ^ 15
  kchs_le : kchs' a t ≤ 2 ^ 15
  spad_le : p.maxAddr ≤ 2 ^ 16
  /-- The check of `tiled_conv` leaves out the rounding of the paddings of a dilated input. -/
  dilated : a.inputDilated = true → tileSpadRows p a t ≤ p.maxAddr / 2

/-- One direction of a request: its padded size, what is between the paddings, and these. -/
structure SideFits (a : Args) (s : Side) (before unpadded after whole : ℕ) : Prop where
  sum : before + unpadded + after = whole
  pos : 0 < whole
  le : whole ≤ 2 ^ 15
  eq : whole = (s.stored a).toNat

theorem sideFits {s : Side} (sound : s.Sound a) (stride : 0 < a.stride)
    (dilation : 0 < a.kernelDilation) (le : s.before a + s.after a ≤ s.irows a + a.inputDilated.toNat)
    (narrow : s.irows a ≤ 2 ^ 15) {n : ℕ} (hn : (n : ℤ) = s.irows a) :
    SideFits a s (undilated a.inputDilated (s.before a).toNat)
      (undilated a.inputDilated
        (wire 36 (wire 35 (n - (s.before a).toNat) - (s.after a).toNat)) % 2 ^ 16)
      (undilated a.inputDilated (s.after a).toNat)
      ((if a.inputDilated then undilated a.inputDilated
          (wire 36 (wire 35 (n - (s.before a).toNat) - (s.after a).toNat)) +
          undilated true (s.before a).toNat + undilated true (s.after a).toNat
        else n) % 2 ^ 16) := by
  have before := s.before_nonneg (a := a)
  have after := s.after_nonneg (a := a)
  have irows := sound.irows_pos stride dilation
  have room : (s.before a).toNat + (s.after a).toNat ≤ n + a.inputDilated.toNat := by omega
  obtain ⟨sum, eq, pos, le'⟩ := undilated_add a.inputDilated room (by omega) (by omega)
    (unpadded_eq a.inputDilated room (by omega))
  refine ⟨sum, eq ▸ pos, eq ▸ le', ?_⟩
  rw [eq, Side.stored]
  cases dilated : a.inputDilated
  · simp only [Bool.false_eq_true, if_false]
    omega
  · rw [dilated, Bool.toNat_true] at le
    rw [Int.tdiv_eq_ediv_of_nonneg (by omega)]
    simp only [if_true]
    omega

section Request

variable {c : Cfg} (accepted : a.Accepted p) (issued : Issued a t) (handled : Handled p a t)
  (carries : Carries a t c)
include accepted issued handled carries

omit accepted issued carries in
theorem dilation_lt : a.kernelDilation < 2 ^ 10 := by
  have narrow : (a.kernelDilation : ℤ) < 2 ^ 10 := (handled.named.fields (fields4a a t 10) (by simp)
    ⟨a.kernelDilation, 0, 10⟩ (by simp [fields4a])).2
  exact_mod_cast narrow

theorem rows_fit (base : ℕ) (loopId : Bool) :
    SideFits a (rowSide a t) (upad ⟨c, base, loopId⟩) c.irowsUnpadded
      (dpad ⟨c, base, loopId⟩) c.irows := by
  obtain ⟨-, -, -, -, stride, -, dilation, -⟩ := accepted.sizes_pos
  have sound := rowSide_sound accepted issued handled.pooling
  have kernels := (handled.named.fields (fields3a a t) (by simp) ⟨krows' a t, 48, 16⟩
    (by simp [fields3a])).2
  simp only [upad, dpad, Cfg.irowsUnpadded, Cfg.irows, Cfg.wideIrowsUnpadded,
    Cfg.irowsWithoutDilation, Cfg.dilatedKrows, carries.upad, carries.dpad, carries.inputDilated,
    carries.orows, carries.stride, carries.krows, carries.kernelDilation]
  exact sideFits sound stride dilation handled.rows handled.rows_le
    (extent_eq sound stride dilation (dilation_lt handled) kernels handled.rows_le)

theorem cols_fit (base : ℕ) (loopId : Bool) :
    SideFits a (colSide a t) (lpad ⟨c, base, loopId⟩) c.icolsUnpadded
      (rpad ⟨c, base, loopId⟩) c.icols := by
  obtain ⟨-, -, -, -, stride, -, dilation, -⟩ := accepted.sizes_pos
  have sound := colSide_sound accepted issued handled.pooling
  have kernels := (handled.named.fields (fields3a a t) (by simp) ⟨kcols' a t, 32, 16⟩
    (by simp [fields3a])).2
  simp only [lpad, rpad, Cfg.icolsUnpadded, Cfg.icols, Cfg.wideIcolsUnpadded,
    Cfg.icolsWithoutDilation, Cfg.dilatedKcols, carries.lpad, carries.rpad, carries.inputDilated,
    carries.ocols, carries.stride, carries.kcols, carries.kernelDilation]
  exact sideFits sound stride dilation handled.cols handled.cols_le
    (extent_eq sound stride dilation (dilation_lt handled) kernels handled.cols_le)

theorem aRows_eq (base : ℕ) (loopId : Bool) :
    aRows p ⟨c, base, loopId⟩ = tileSpadRows p a t := by
  have rows := (rows_fit accepted issued handled carries base loopId).eq
  have cols := (cols_fit accepted issued handled carries base loopId).eq
  simp only [aRows, blockRows, outerSize,
    innerSize, tileRows, tileCols,
    Cfg.downsampled, tileSpadRows, carries.transInput3120, carries.downsample, carries.batches,
    carries.ichs, rows, cols]
  cases a.transInput3120 <;> rfl

end Request

theorem irows_le_extent {s : Side} {po k : ℕ} (accepted : a.Accepted p) (sound : s.Sound a)
    (plain : a.inputDilated = false) (pools : s.pools ≤ po) (kernels : s.kernels ≤ k) :
    (s.stored a).toNat ≤ a.inputExtent po k := by
  obtain ⟨-, -, -, -, stride, dilation, kernelDilation, size⟩ := accepted.sizes_pos
  have one : a.inputDilation = 1 := by
    have := accepted.dilation
    simp only [Args.inputDilated, beq_eq_false_iff_ne] at plain
    omega
  have kernels_pos := sound.kernels_pos
  have orows : s.orows a ≤ po * a.poolStride + a.poolSize - 1 := by
    have := mul_le_mul_of_nonneg_right pools (Int.natCast_nonneg a.poolStride)
    unfold Side.orows Side.outs Side.poolBefore Side.poolAfter
    split_ifs <;> omega
  have scaled := mul_le_mul_of_nonneg_right orows (Int.natCast_nonneg a.stride)
  have dilated : ((a.kernelDilation : ℤ) - 1) * (s.kernels - 1) ≤ (a.kernelDilation - 1) * (k - 1) :=
    mul_le_mul_of_nonneg_left (by omega) (by omega)
  have whole : (a.inputExtent po k : ℤ) = (po * a.poolStride + a.poolSize - 1) * a.stride +
      (k + (a.kernelDilation - 1) * (k - 1)) - 1 := by
    simp only [Args.inputExtent, one, Nat.div_one, Nat.mod_one, ne_eq, not_true_eq_false, if_false,
      Nat.add_zero]
    obtain ⟨n, hn⟩ : ∃ n, a.poolSize = n + 1 := ⟨a.poolSize - 1, by omega⟩
    obtain ⟨d, hd⟩ : ∃ d, a.kernelDilation = d + 1 := ⟨a.kernelDilation - 1, by omega⟩
    obtain ⟨m, hm⟩ : ∃ m, k = m + 1 := ⟨k - 1, by omega⟩
    rw [hn, hd, hm]
    simp only [Nat.add_sub_cancel, ← Nat.add_assoc]
    push_cast
    rw [show (po * a.poolStride + n) * a.stride + m + 1 + d * m - 1 =
      (po * a.poolStride + n) * a.stride + m + d * m by omega]
    push_cast
    ring
  rw [Side.stored, if_neg (by simp [plain])]
  unfold Side.irows Args.dilatedKernel
  omega

theorem perBank_mono (pos : 0 < p.blockSize) {m n : ℕ} (le : m ≤ n) :
    Args.perBank p m ≤ Args.perBank p n := by
  by_contra more
  have := (lt_blocksOf pos).mp (not_le.mp more)
  have := mt (lt_blocksOf pos).mpr (Nat.lt_irrefl (Args.perBank p n))
  omega

theorem tileSpadRows_le (pos : 0 < p.blockSize) (accepted : a.Accepted p) (issued : Issued a t)
    (pooling : a.poolPadding < a.poolSize) (plain : a.inputDilated = false) :
    tileSpadRows p a t ≤ a.totalSpadRows p := by
  obtain ⟨-, porows, pocols, -, krows, kcols, -⟩ := accepted.steps_pos
  obtain ⟨⟨-, b, -⟩, -, ch, -⟩ := planes_spec accepted issued
  have b' : (batches' a t).toNat ≤ a.batches := by omega
  have ch' : (kchs' a t).toNat ≤ a.kchs := by omega
  have rows := irows_le_extent accepted (rowSide_sound accepted issued pooling) plain
      (rest_spec issued.porow.2 (by omega)).2.1
      (rest_spec (by have := issued.krow.2; omega) (by omega)).2.1
  have cols := irows_le_extent accepted (colSide_sound accepted issued pooling) plain
      (rest_spec issued.pocol.2 (by omega)).2.1
      (rest_spec (by have := issued.kcol.2; omega) (by omega)).2.1
  have shift : ∀ {m n : ℕ}, m ≤ n → m >>> a.downsample.toNat ≤ n >>> a.downsample.toNat := by
    intro m n le
    rw [Nat.shiftRight_eq_div_pow, Nat.shiftRight_eq_div_pow]
    exact Nat.div_le_div_right le
  refine le_trans ?_ (Nat.le_add_right _ _)
  unfold tileSpadRows
  rw [← Nat.mul_assoc, ← Nat.mul_assoc]
  cases a.transInput3120
  · exact Nat.mul_le_mul (Nat.mul_le_mul (Nat.mul_le_mul (perBank_mono pos ch') b') (shift rows)) (shift cols)
  · exact Nat.mul_le_mul (Nat.mul_le_mul (Nat.mul_le_mul (perBank_mono pos b') ch') (shift rows)) (shift cols)

theorem even_of_downsample {s : Side} (ds : a.downsample = true) (pool : 0 ≤ s.pool)
    (kernel : s.kernel = 0) (kernels : s.kernels = 1) (inDim : 2 ∣ s.inDim) :
    s.before a = 0 ∧ 2 ∣ s.after a ∧ 2 ∣ s.irows a := by
  simp only [Args.downsample, Bool.and_eq_true, beq_iff_eq, Bool.not_eq_true'] at ds
  obtain ⟨⟨⟨⟨⟨⟨⟨stride, -⟩, -⟩, -⟩, padding⟩, noPool⟩, dilation⟩, -⟩ := ds
  have plain : a.inputDilated = false := by simp [Args.inputDilated, dilation]
  have o : s.o a = s.pool := by simp [Side.o, Args.poolStride, Args.poolPadding, noPool]
  have i : s.i a = s.pool * 2 := by
    rw [Side.i, o, if_neg (by omega), stride, kernel, padding]
    simp
  have irows : s.irows a = s.orows a * 2 := by
    rw [Side.irows, stride, kernels]
    simp [Args.dilatedKernel]
  refine ⟨?_, ?_, ⟨s.orows a, by rw [irows, mul_comm]⟩⟩
  · simp only [Side.before, plain, Bool.false_eq_true, false_and, if_false, i]
    split_ifs <;> omega
  · simp only [Side.after, plain, Bool.false_eq_true, false_and, if_false, i, irows]
    split_ifs <;> omega

theorem sides_even (accepted : a.Accepted p) (issued : Issued a t) (ds : a.downsample = true) :
    ((rowSide a t).before a = 0 ∧ 2 ∣ (rowSide a t).after a ∧ 2 ∣ (rowSide a t).irows a) ∧
      (colSide a t).before a = 0 ∧ 2 ∣ (colSide a t).after a ∧ 2 ∣ (colSide a t).irows a := by
  obtain ⟨-, -, -, -, krows, kcols, -⟩ := accepted.steps_pos
  have flags := ds
  simp only [Args.downsample, Bool.and_eq_true, beq_iff_eq, Bool.not_eq_true'] at flags
  obtain ⟨⟨⟨⟨⟨⟨⟨-, kernelDim⟩, rows⟩, cols⟩, -⟩, -⟩, dilation⟩, -⟩ := flags
  have krow := issued.krow.2
  have kcol := issued.kcol.2
  constructor
  · apply even_of_downsample ds
    · simp [rowSide]
    · simp only [rowSide]
      omega
    · simp only [rowSide, krows', rest]
      split_ifs <;> omega
    · simp only [rowSide, Args.dilatedInRowDim, dilation]
      omega
  · apply even_of_downsample ds
    · simp [colSide]
    · simp only [colSide]
      omega
    · simp only [colSide, kcols', rest]
      split_ifs <;> omega
    · simp only [colSide, Args.dilatedInColDim, dilation]
      omega

theorem aStart_le {c : Cfg} (carries : Carries a t c)
    (slot : c.aAddrStart = 0 ∨ c.aAddrStart = p.maxAddr / 2) : c.aStart p ≤ p.maxAddr / 2 := by
  have id : aSpadId a t = 0 ∨ aSpadId a t = 1 ∨ aSpadId a t = 2 := by
    unfold aSpadId
    split_ifs <;> simp
  have low : wire 2 ((1 : ℕ) - 1) = 0 := by decide
  have high : wire 2 ((2 : ℕ) - 1) = 1 := by decide
  refine (Nat.mod_le _ _).trans ?_
  rw [carries.aExSpadId]
  rcases id with id | id | id
  · rw [id, if_pos rfl]
    omega
  · rw [id, if_neg (by decide), low, Nat.zero_mul]
    exact Nat.zero_le _
  · rw [id, if_neg (by decide), high, Nat.one_mul]

theorem proper_of_handled (pow : p.blockSize = 2 ^ log2Up p.blockSize) (accepted : a.Accepted p)
    (issued : Issued a t) (handled : Handled p a t) (c : Cfg)
    (slot : c.aAddrStart = 0 ∨ c.aAddrStart = p.maxAddr / 2) (base : ℕ) (loopId : Bool) :
    Proper p (request p a t c base loopId) := by
  have pos : 0 < p.blockSize := pow ▸ Nat.two_pow_pos _
  have carries := carries_request handled.named c base loopId
  have start := aStart_le carries slot
  obtain ⟨⟨b, -⟩, ch, -⟩ := planes_spec accepted issued
  have b_le := handled.batches_le
  have ch_le := handled.kchs_le
  have rows := rows_fit accepted issued handled carries base loopId
  have cols := cols_fit accepted issued handled carries base loopId
  have region : aRows p (request p a t c base loopId) ≤ p.maxAddr / 2 := by
    rw [show request p a t c base loopId = ⟨(request p a t c base loopId).cfg, base, loopId⟩ from rfl,
      aRows_eq accepted issued handled carries]
    cases dilated : a.inputDilated
    · exact (tileSpadRows_le pos accepted issued handled.pooling dilated).trans accepted.spad
    · exact handled.dilated dilated
  generalize request p a t c base loopId = r at *
  have blocks : 0 < blocksOf p.blockSize (outerSize r) := by
    apply blocksOf_pos pos
    unfold outerSize
    rw [carries.batches, carries.ichs]
    split_ifs <;> omega
  have spad := handled.spad_le
  apply proper_of_fits ?_ pow
  exact {
    batches_pos := by rw [carries.batches]; omega
    batches_le := by rw [carries.batches]; omega
    ichs_pos := by rw [carries.ichs]; omega
    ichs_le := by rw [carries.ichs]; omega
    cols := cols.sum
    rows := rows.sum
    icols_pos := cols.pos
    irows_pos := rows.pos
    icols_le := cols.le
    irows_le := rows.le
    stride := by
      have := Nat.le_mul_of_pos_left (blockRows r) blocks
      unfold aRows at region
      omega
    region := by omega
    downsample := by
      intro ds
      rw [carries.downsample] at ds
      obtain ⟨⟨up, down, height⟩, left, right, width⟩ := sides_even accepted issued ds
      have plain : a.inputDilated = false := by
        simp only [Args.downsample, Bool.and_eq_true, beq_iff_eq] at ds
        simp [Args.inputDilated, ds.1.2]
      have even : 2 ∣ p.blockSize := by
        rw [pow]
        exact dvd_pow_self 2 (Nat.one_le_iff_ne_zero.mp (le_max_left 1 _))
      have sum := cols.sum
      have wide := cols.eq
      have high := rows.eq
      simp only [Side.stored, plain, Bool.false_eq_true, if_false] at wide high
      have left' : lpad r = ((colSide a t).before a).toNat := by
        rw [lpad, carries.inputDilated, plain, carries.lpad, undilated_false]
      have right' : rpad r = ((colSide a t).after a).toNat := by
        rw [rpad, carries.inputDilated, plain, carries.rpad, undilated_false]
      have up' : upad r = ((rowSide a t).before a).toNat := by
        rw [upad, carries.inputDilated, plain, carries.upad, undilated_false]
      refine ⟨even, by omega, by omega, by omega, ?_, by omega⟩
      change lpad r + _ + rpad r = _ at sum
      omega }

/-- The request keeps a null pointer, and the loader drops it. -/
def Dropped (p : Params) (a : Args) (t : Tile) : Prop :=
  slice (BitVec.ofInt 64 (inputPtr p a t)) 0 p.coreMaxAddrBits = 0

theorem dead_request (p : Params) (a : Args) (t : Tile) (c : Cfg) (base : ℕ) (loopId : Bool) :
    (spec p).dead (request p a t c base loopId) = true ↔ Dropped p a t := beq_iff_eq

/-- The first command moves the left padding up to a block, whatever the width of the tile. -/
theorem lpad_le_of_proper {r : Req} (proper : Proper p r) (alive : (spec p).dead r = false)
    (some : 0 < lpad r) (narrow : lpad r ≤ 2 ^ 15) (plain : r.cfg.downsample = false)
    (block : p.blockSize < 2 ^ p.mvinRowsBits) : min (lpad r) p.blockSize ≤ tileCols r := by
  obtain ⟨es, total, inTile⟩ := proper
  rw [Walker.total_iff_emits alive] at total
  obtain ⟨es', rest, rfl⟩ := total.tail rfl
  obtain ⟨rows, -⟩ := inTile _ (List.mem_append_right _ (rest.emit_mem rfl))
  have start : (first r).icol = -lpad r := by
    simp only [first, leftmost]
    rw [sint_of_le] <;> omega
  have columns : columns p r (first r) = (min (lpad r) p.blockSize : ℕ) := by
    simp only [columns, start]
    split_ifs <;> omega
  rw [columns, plain, Bool.toNat_false, pow_zero, Int.ediv_one, LoopConv.LdInput.wire_natCast,
    Nat.mod_eq_of_lt (by omega)] at rows
  exact rows

/-- A three by three kernel over two by two pixels, padded by two, in the smallest tiles. -/
def widePadding : Args := squareConv 2 4 3 2

/-- The first tap of the output at `(n, n)`. -/
def firstTap (n : ℕ) : Tile := ⟨0, n, n, 0, 0, 0, 0⟩

theorem widePadding_accepted : widePadding.Accepted smallParams := by
  constructor <;> decide

theorem firstTap_issued {n : ℕ} (inside : n < 4) : Issued widePadding (firstTap n) := by
  have rows : widePadding.poolOutRowDim = 4 := by decide
  have cols : widePadding.poolOutColDim = 4 := by decide
  constructor
  · exact ⟨one_dvd 0, Nat.one_pos⟩
  · exact ⟨one_dvd n, by rw [rows]; exact_mod_cast inside⟩
  · exact ⟨one_dvd n, by rw [cols]; exact_mod_cast inside⟩
  · exact ⟨one_dvd 0, Nat.one_pos⟩
  · exact ⟨one_dvd 0, Nat.zero_lt_succ 2⟩
  · exact ⟨one_dvd 0, Nat.zero_lt_succ 2⟩
  · exact ⟨one_dvd 0, Nat.one_pos⟩

instance (f : Field) : Decidable f.Fits := by
  unfold Field.Fits
  infer_instance

theorem firstTap_two_handled : Handled smallParams widePadding (firstTap 2) where
  named := ⟨by decide, by decide⟩
  pooling := by decide
  rows := by decide
  cols := by decide
  rows_le := by decide
  cols_le := by decide
  batches_le := by decide
  kchs_le := by decide
  spad_le := by decide
  dilated := by decide

/-- The first tap of the first output lies in the padding, which is wider than the tile. -/
def paddingRequest : Req := request smallParams widePadding (firstTap 0) (blankCfg false) 0 false

end Gemmini.Conv
