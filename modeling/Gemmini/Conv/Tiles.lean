import Gemmini.LoopConv.Model

/-!
# The tiles of a convolution

`tiled_conv` of `gemmini.h` hands each tile to `sp_tiled_conv`, which packs it into seven loop commands.
A tile is a range of batches, pooled rows, pooled columns and output channels, and a part of the kernel;
its input can lie partly or wholly in the padding.
-/

namespace Gemmini

/-! ### Packed words -/

theorem slice_or (x y : BitVec 64) (lo len : Nat) :
    slice (x ||| y) lo len = slice x lo len ||| slice y lo len := by
  simp only [slice, BitVec.toNat_or, ← Nat.shiftRight_eq_div_pow, Nat.shiftRight_or_distrib,
    Nat.or_mod_two_pow]

theorem slice_ofInt_same {v : ℤ} {lo len : Nat} (room : lo + len ≤ 64) (nonneg : 0 ≤ v)
    (fits : v < 2 ^ len) : slice (BitVec.ofInt 64 v <<< lo) lo len = v.toNat := by
  lift v to ℕ using nonneg
  have small : v < 2 ^ len := by exact_mod_cast fits
  have word : v * 2 ^ lo < 2 ^ 64 :=
    calc v * 2 ^ lo < 2 ^ len * 2 ^ lo := Nat.mul_lt_mul_of_pos_right small (Nat.two_pow_pos lo)
      _ = 2 ^ (lo + len) := by rw [← Nat.pow_add, Nat.add_comm]
      _ ≤ 2 ^ 64 := Nat.pow_le_pow_right Nat.two_pos room
  have v_lt : v < 2 ^ 64 := (Nat.le_mul_of_pos_right v (Nat.two_pow_pos lo)).trans_lt word
  have whole : (BitVec.ofInt 64 (v : ℤ) <<< lo).toNat = v * 2 ^ lo := by
    rw [BitVec.toNat_shiftLeft, BitVec.ofInt_natCast, BitVec.toNat_ofNat, Nat.mod_eq_of_lt v_lt,
      Nat.shiftLeft_eq, Nat.mod_eq_of_lt word]
  rw [slice, whole, Nat.mul_div_cancel _ (Nat.two_pow_pos lo), Nat.mod_eq_of_lt small,
    Int.toNat_natCast]

theorem slice_ofInt_above {v : ℤ} {lo len pos : Nat} (above : lo + len ≤ pos) :
    slice (BitVec.ofInt 64 v <<< pos) lo len = 0 := by
  apply Nat.eq_of_testBit_eq
  intro i
  rw [slice, Nat.testBit_mod_two_pow, Nat.testBit_div_two_pow, BitVec.toNat_shiftLeft,
    Nat.testBit_mod_two_pow, Nat.testBit_shiftLeft, Nat.zero_testBit]
  by_cases low : i < len
  · have : ¬pos ≤ i + lo := by omega
    simp [this]
  · simp [low]

theorem slice_ofInt_below {v : ℤ} {lo len pos : Nat} (below : pos ≤ lo) (nonneg : 0 ≤ v)
    (fits : v < 2 ^ (lo - pos)) : slice (BitVec.ofInt 64 v <<< pos) lo len = 0 := by
  lift v to ℕ using nonneg
  have small : v < 2 ^ (lo - pos) := by exact_mod_cast fits
  have word : v * 2 ^ pos < 2 ^ lo :=
    calc v * 2 ^ pos < 2 ^ (lo - pos) * 2 ^ pos :=
          Nat.mul_lt_mul_of_pos_right small (Nat.two_pow_pos pos)
      _ = 2 ^ lo := by rw [← Nat.pow_add, Nat.sub_add_cancel below]
  have whole : (BitVec.ofInt 64 (v : ℤ) <<< pos).toNat < 2 ^ lo := by
    rw [BitVec.toNat_shiftLeft, BitVec.ofInt_natCast, BitVec.toNat_ofNat, Nat.shiftLeft_eq]
    exact ((Nat.mod_le _ _).trans (Nat.mul_le_mul_right _ (Nat.mod_le _ _))).trans_lt word
  rw [slice, Nat.div_eq_of_lt whole, Nat.zero_mod]

/-- A value at a bit position of a word, and its bits for the receiver. -/
structure Field where
  value : ℤ
  pos : ℕ
  len : ℕ

def Field.Fits (f : Field) : Prop := 0 ≤ f.value ∧ f.value < 2 ^ f.len

/-- `((uint64_t)(x) << n) | ...`. -/
def word (fields : List Field) : BitVec 64 :=
  fields.foldr (fun f w => BitVec.ofInt 64 f.value <<< f.pos ||| w) 0

def Descending (fields : List Field) : Prop :=
  fields.Pairwise fun f g => g.pos + g.len ≤ f.pos

theorem slice_word_eq_zero {fields : List Field} {lo len : ℕ}
    (below : ∀ f ∈ fields, f.pos + f.len ≤ lo) (fits : ∀ f ∈ fields, f.Fits) :
    slice (word fields) lo len = 0 := by
  induction fields with
  | nil => simp [word, slice]
  | cons f fields ih =>
    have under := below f List.mem_cons_self
    obtain ⟨nonneg, lt⟩ := fits f List.mem_cons_self
    have narrow : f.value < 2 ^ (lo - f.pos) :=
      lt.trans_le (pow_le_pow_right₀ (by norm_num) (by omega))
    have first : slice (BitVec.ofInt 64 f.value <<< f.pos) lo len = 0 :=
      slice_ofInt_below (by omega) nonneg narrow
    have rest := ih (fun g mem => below g (List.mem_cons_of_mem f mem))
      (fun g mem => fits g (List.mem_cons_of_mem f mem))
    have split : word (f :: fields) = BitVec.ofInt 64 f.value <<< f.pos ||| word fields := rfl
    rw [split, slice_or, first, rest]
    rfl

theorem slice_word {fields : List Field} (order : Descending fields)
    (room : ∀ f ∈ fields, f.pos + f.len ≤ 64) (fits : ∀ f ∈ fields, f.Fits) {f : Field}
    (mem : f ∈ fields) : slice (word fields) f.pos f.len = f.value.toNat := by
  induction fields with
  | nil => simp at mem
  | cons g fields ih =>
    obtain ⟨first, later⟩ := List.pairwise_cons.mp order
    have split : word (g :: fields) = BitVec.ofInt 64 g.value <<< g.pos ||| word fields := rfl
    rw [split, slice_or]
    rcases List.mem_cons.mp mem with rfl | mem
    · obtain ⟨nonneg, lt⟩ := fits f List.mem_cons_self
      rw [slice_ofInt_same (room f List.mem_cons_self) nonneg lt,
        slice_word_eq_zero first (fun h mem => fits h (List.mem_cons_of_mem f mem)), Nat.or_zero]
    · rw [slice_ofInt_above (first f mem), Nat.zero_or]
      exact ih later (fun h mem => room h (List.mem_cons_of_mem g mem))
        (fun h mem => fits h (List.mem_cons_of_mem g mem)) mem

theorem bit_eq_slice (x : BitVec 64) (i : ℕ) : bit x i = decide (slice x i 1 = 1) := by
  rw [bit, slice, pow_one, Nat.testBit_eq_decide_div_mod_eq]

def Field.flag (b : Bool) (pos : ℕ) : Field := ⟨b.toNat, pos, 1⟩

namespace Conv

open LoopConv (Params)

/-- The arguments of `tiled_conv`; a null pointer is zero. -/
structure Args where
  batchSize : ℕ
  inRowDim : ℕ
  inColDim : ℕ
  inChannels : ℕ
  outChannels : ℕ
  outRowDim : ℕ
  outColDim : ℕ
  stride : ℕ
  inputDilation : ℕ
  kernelDilation : ℕ
  padding : ℕ
  kernelDim : ℕ
  inStride : ℕ
  weightStride : ℕ
  outStride : ℕ
  wrot180 : Bool
  transOutput1203 : Bool
  transInput3120 : Bool
  transWeight1203 : Bool
  transWeight0132 : Bool
  batches : ℕ
  porows : ℕ
  pocols : ℕ
  pochs : ℕ
  krows : ℕ
  kcols : ℕ
  kchs : ℕ
  input : ℕ
  weights : ℕ
  bias : ℕ
  output : ℕ
  act : ℕ
  poolSizeArg : ℕ
  poolStrideArg : ℕ
  poolPaddingArg : ℕ
  deriving DecidableEq, Repr

namespace Args

variable (p : Params) (a : Args)

def noPool : Bool := a.poolStrideArg == 0
def poolSize : ℕ := if a.noPool then 1 else a.poolSizeArg
def poolStride : ℕ := if a.noPool then 1 else a.poolStrideArg
def poolPadding : ℕ := if a.noPool then 0 else a.poolPaddingArg

def downsample : Bool :=
  a.stride == 2 && a.kernelDim == 1 && a.inRowDim % 2 == 0 && a.inColDim % 2 == 0 &&
    a.padding == 0 && a.noPool && a.inputDilation == 1 && !a.transInput3120

def inputDilated : Bool := a.inputDilation == 2

/-- `krows + (kernel_dilation - 1)*(krows - 1)`. -/
def dilatedKernel (k : ℤ) : ℤ := k + (a.kernelDilation - 1) * (k - 1)

def perBank (n : ℕ) : ℕ := n / p.blockSize + if n % p.blockSize ≠ 0 then 1 else 0

/-- The padded size of a tile of `po` pooled rows and `k` kernel rows in `tiled_conv_total_spad_rows`. -/
def inputExtent (po k : ℕ) : ℕ :=
  let i := (po * a.poolStride + a.poolSize - 1) * a.stride +
    (k + (a.kernelDilation - 1) * (k - 1)) - 1
  i / a.inputDilation + if i % a.inputDilation ≠ 0 then 1 else 0

/-- `tiled_conv_total_spad_rows(false, ...)`. -/
def totalSpadRows : ℕ :=
  let irows := a.inputExtent a.porows a.krows >>> a.downsample.toNat
  let icols := a.inputExtent a.pocols a.kcols >>> a.downsample.toNat
  let aRows := if a.transInput3120 then perBank p a.batches * a.kchs * irows * icols
    else perBank p a.kchs * a.batches * irows * icols
  let bRows := if a.transWeight0132 then perBank p a.kchs * a.kcols * a.krows * a.pochs
    else perBank p a.pochs * a.kcols * a.krows * a.kchs
  aRows + bRows

/-- `tiled_conv_total_spad_rows(true, ...)`. -/
def totalAccRows : ℕ :=
  perBank p a.pochs * a.batches * (a.porows * a.poolStride + a.poolSize - 1) *
    (a.pocols * a.poolStride + a.poolSize - 1)

/-- `tiled_conv` runs the convolution on the array: its checks pass, and every size and step is
positive. -/
structure Accepted : Prop where
  weights : ¬(a.transWeight1203 = true ∧ a.transWeight0132 = true)
  spad : a.totalSpadRows p ≤ p.maxAddr / 2
  acc : a.totalAccRows p ≤ p.maxAccAddr / 2
  padding : a.padding < a.kernelDim
  dilation : a.inputDilation ≤ 2
  dilatedStride : 1 < a.inputDilation → a.stride ≤ 1
  output : a.transOutput1203 = true → a.noPool = true
  transposed : ¬(a.transInput3120 = true ∧ a.transWeight0132 = true)
  steps_pos : 0 < a.batches ∧ 0 < a.porows ∧ 0 < a.pocols ∧ 0 < a.pochs ∧ 0 < a.krows ∧
    0 < a.kcols ∧ 0 < a.kchs
  sizes_pos : 0 < a.inRowDim ∧ 0 < a.inColDim ∧ 0 < a.outRowDim ∧ 0 < a.outColDim ∧ 0 < a.stride ∧
    0 < a.inputDilation ∧ 0 < a.kernelDilation ∧ 0 < a.poolSize

def poolOutRowDim : ℤ :=
  ((a.outRowDim : ℤ) + 2 * a.poolPadding - a.poolSize).tdiv a.poolStride + 1
def poolOutColDim : ℤ :=
  ((a.outColDim : ℤ) + 2 * a.poolPadding - a.poolSize).tdiv a.poolStride + 1

def dilatedInRowDim : ℤ := a.inRowDim + (a.inputDilation - 1) * (a.inRowDim - 1)
def dilatedInColDim : ℤ := a.inColDim + (a.inputDilation - 1) * (a.inColDim - 1)

end Args

def ceilDivideInt (a b : ℤ) : ℤ :=
  if a < b then 1 else if a.tmod b = 0 then a.tdiv b else a.tdiv b + 1

/-- The loop variables of `tiled_conv`. -/
structure Tile where
  b : ℕ
  porow : ℕ
  pocol : ℕ
  poch : ℕ
  krow : ℕ
  kcol : ℕ
  kch : ℕ
  deriving DecidableEq, Repr

structure Issued (a : Args) (t : Tile) : Prop where
  b : a.batches ∣ t.b ∧ t.b < a.batchSize
  porow : a.porows ∣ t.porow ∧ (t.porow : ℤ) < a.poolOutRowDim
  pocol : a.pocols ∣ t.pocol ∧ (t.pocol : ℤ) < a.poolOutColDim
  poch : a.pochs ∣ t.poch ∧ t.poch < a.outChannels
  krow : a.krows ∣ t.krow ∧ t.krow < a.kernelDim
  kcol : a.kcols ∣ t.kcol ∧ t.kcol < a.kernelDim
  kch : a.kchs ∣ t.kch ∧ t.kch < a.inChannels

/-! ### One tile -/

section Tile

variable (p : Params) (a : Args) (t : Tile)

/-- `whole - first > size ? size : whole - first`. -/
def rest (whole first size : ℤ) : ℤ := if whole - first > size then size else whole - first

def batches' : ℤ := rest a.batchSize t.b a.batches
def porows' : ℤ := rest a.poolOutRowDim t.porow a.porows
def pocols' : ℤ := rest a.poolOutColDim t.pocol a.pocols
def pochs' : ℤ := rest a.outChannels t.poch a.pochs
def krows' : ℤ := rest a.kernelDim t.krow a.krows
def kcols' : ℤ := rest a.kernelDim t.kcol a.kcols
def kchs' : ℤ := rest a.inChannels t.kch a.kchs

/-- One direction of a tile: the pooled range, the ranges of outputs and inputs, and the two paddings. -/
structure Side where
  /-- `porow` and `porows_`. -/
  pool : ℤ
  pools : ℤ
  /-- `krow` and `krows_`. -/
  kernel : ℤ
  kernels : ℤ
  outDim : ℤ
  /-- `dilated_in_row_dim`. -/
  inDim : ℤ

def rowSide : Side := ⟨t.porow, porows' a t, t.krow, krows' a t, a.outRowDim, a.dilatedInRowDim⟩
def colSide : Side := ⟨t.pocol, pocols' a t, t.kcol, kcols' a t, a.outColDim, a.dilatedInColDim⟩

namespace Side

variable (s : Side)

/-- `orow`. -/
def o : ℤ := s.pool * a.poolStride - a.poolPadding

/-- `irow`. -/
def i : ℤ := (if s.o a < 0 then 0 else s.o a) * a.stride + s.kernel * a.kernelDilation - a.padding

/-- `orows_`, with the pooling padding. -/
def outs : ℤ := s.pools * a.poolStride + a.poolSize - 1

/-- `pupad` and `pdpad`. -/
def poolBefore : ℤ := if s.o a < 0 then -s.o a else 0
def poolAfter : ℤ := if s.o a + s.outs a > s.outDim then s.o a + s.outs a - s.outDim else 0

/-- `orows` of `sp_tiled_conv`. -/
def orows : ℤ := s.outs a - s.poolBefore a - s.poolAfter a

/-- `irows_`: with the padding, and with the zeros of a dilated input. -/
def irows : ℤ := s.orows a * a.stride + a.dilatedKernel s.kernels - 1

/-- `upad` and `dpad`; between them a dilated input starts and ends with a pixel. -/
def before : ℤ :=
  let pad := if s.i a < 0 then -s.i a else 0
  pad + if a.inputDilated ∧ pad = 0 ∧ (s.i a).tmod 2 ≠ 0 then 1 else 0

def after : ℤ :=
  let pad := if s.i a + s.irows a > s.inDim then s.i a + s.irows a - s.inDim else 0
  pad + if a.inputDilated ∧ pad = 0 ∧ (s.i a + s.irows a).tmod 2 ≠ 1 then 1 else 0

/-- `irows` of `sp_tiled_conv`: without the zeros of a dilated input. -/
def stored : ℤ :=
  if a.inputDilated then (s.irows a - s.before a - s.after a + 1).tdiv 2 + (s.before a + 1) / 2 +
    (s.after a + 1) / 2
  else s.irows a

def first : ℤ := (s.i a + s.before a) / 2 ^ a.inputDilated.toNat

end Side

def tileSpadRows : ℕ :=
  Args.perBank p (if a.transInput3120 then batches' a t else kchs' a t).toNat *
    ((if a.transInput3120 then kchs' a t else batches' a t).toNat *
      (((rowSide a t).stored a).toNat >>> a.downsample.toNat) *
      (((colSide a t).stored a).toNat >>> a.downsample.toNat))

/-! The pointers of a tile; a tile that is kept in the scratchpad for the next one has no pointer. -/

def aReuse : Bool :=
  ceilDivideInt a.inChannels a.kchs * ceilDivideInt a.kernelDim a.krows *
    ceilDivideInt a.kernelDim a.kcols * ceilDivideInt a.batchSize a.batches *
    ceilDivideInt a.poolOutRowDim a.porows * ceilDivideInt a.poolOutColDim a.pocols ≤ 2

def bReuse : Bool :=
  ceilDivideInt a.inChannels a.kchs * ceilDivideInt a.outChannels a.pochs *
    ceilDivideInt a.kernelDim a.krows * ceilDivideInt a.kernelDim a.kcols ≤ 2

def aSpadId : ℕ :=
  if aReuse a then if t.kch + t.krow + t.kcol + t.b + t.porow + t.pocol = 0 then 1 else 2 else 0

def bSpadId : ℕ :=
  if bReuse a then if t.kch + t.poch + t.krow + t.kcol = 0 then 1 else 2 else 0

/-- `in`. -/
def inputPtr : ℤ :=
  if aReuse a ∧ t.poch > 0 then 0
  else if a.transInput3120 then
    a.input + ((t.kch * a.inRowDim * a.inColDim + (rowSide a t).first a * a.inColDim +
      (colSide a t).first a) * a.batchSize + t.b) * p.inputBytes
  else
    a.input + ((t.b * a.inRowDim * a.inColDim + (rowSide a t).first a * a.inColDim +
      (colSide a t).first a) * a.inStride + t.kch) * p.inputBytes

/-- `weights_slice`. -/
def weightsPtr : ℤ :=
  let krow := if a.wrot180 then a.kernelDim - t.krow - krows' a t else t.krow
  let kcol := if a.wrot180 then a.kernelDim - t.kcol - kcols' a t else t.kcol
  if bReuse a ∧ t.pocol + t.porow + t.b > 0 then 0
  else if a.transWeight1203 then
    a.weights + ((t.kch * a.kernelDim * a.kernelDim + krow * a.kernelDim + kcol) * a.outChannels +
      t.poch) * p.inputBytes
  else if a.transWeight0132 then
    a.weights + ((krow * a.kernelDim * a.outChannels + kcol * a.outChannels + t.poch) *
      a.inChannels + t.kch) * p.inputBytes
  else
    a.weights + ((krow * a.kernelDim * a.inChannels + kcol * a.inChannels + t.kch) *
      a.weightStride + t.poch) * p.inputBytes

/-- `out`: only the last part of the kernel and of the channels is stored. -/
def outputPtr : ℤ :=
  if t.krow + a.krows < a.kernelDim ∨ t.kcol + a.kcols < a.kernelDim ∨
      t.kch + a.kchs < a.inChannels then 0
  else if a.transOutput1203 then
    a.output + ((t.porow * a.poolOutColDim * a.batchSize + t.pocol * a.batchSize + t.b) *
      a.outChannels + t.poch) * p.inputBytes
  else
    a.output + ((t.b * a.poolOutRowDim * a.poolOutColDim + t.porow * a.poolOutColDim + t.pocol) *
      a.outStride + t.poch) * p.inputBytes

/-- `bias_`: only for the first part; without a bias the pointer is that of address one. -/
def biasPtr : ℤ :=
  if t.krow > 0 ∨ t.kcol > 0 ∨ t.kch > 0 then 0
  else (if a.bias = 0 then 1 else (a.bias : ℤ)) + t.poch * p.accBytes

def maxPixelsPerRow : ℤ :=
  if p.hasFirstLayerOptimizations then
    let pixels := if a.transOutput1203 ∨ a.transInput3120 ∨ a.transWeight1203 ∨ a.transWeight0132 ∨
        a.wrot180 ∨ a.downsample ∨ a.inputDilated ∨ a.kernelDilation > 1 ∨
        kchs' a t > p.blockSize then 1
      else (p.blockSize : ℤ).tdiv (kchs' a t)
    if pixels > kcols' a t then kcols' a t else pixels
  else 1

/-! `gemmini_loop_conv_ws`, operand by operand. -/

def fields1a : List Field :=
  [⟨a.outChannels, 48, 16⟩, ⟨a.inChannels, 32, 16⟩, ⟨a.inRowDim, 16, 16⟩, ⟨a.batchSize, 0, 16⟩]

def fields1b : List Field :=
  [⟨a.padding, 56, 8⟩, ⟨a.stride, 48, 8⟩, ⟨a.outColDim, 32, 16⟩, ⟨a.poolOutRowDim, 16, 16⟩,
    ⟨a.outRowDim, 0, 16⟩]

def fields2a : List Field :=
  [⟨a.kernelDim, 48, 16⟩, ⟨a.poolOutColDim, 32, 16⟩, ⟨a.poolSize, 16, 16⟩, ⟨a.poolStride, 8, 8⟩,
    ⟨a.poolPadding, 0, 8⟩]

def fields2b : List Field :=
  [⟨batches' a t, 48, 16⟩, ⟨porows' a t, 32, 16⟩, ⟨pocols' a t, 16, 16⟩, ⟨pochs' a t, 0, 16⟩]

def fields3a : List Field :=
  [⟨krows' a t, 48, 16⟩, ⟨kcols' a t, 32, 16⟩, ⟨kchs' a t, 16, 16⟩,
    ⟨(colSide a t).before a, 0, 16⟩]

def fields3b : List Field :=
  [⟨(colSide a t).after a, 48, 16⟩, ⟨(rowSide a t).before a, 32, 16⟩,
    ⟨(rowSide a t).after a, 24, 8⟩, ⟨(colSide a t).poolBefore a, 16, 8⟩, ⟨a.inColDim, 0, 16⟩]

/-- The reader of the dilation takes it to have only `dilationBits` bits. -/
def fields4a (dilationBits : ℕ) : List Field :=
  [⟨(rowSide a t).orows a, 48, 16⟩, ⟨(colSide a t).poolAfter a, 32, 16⟩,
    ⟨(rowSide a t).poolBefore a, 21, 11⟩, ⟨(rowSide a t).poolAfter a, 10, 11⟩,
    ⟨a.kernelDilation, 0, dilationBits⟩]

def fields4b : List Field :=
  [⟨a.inStride, 48, 16⟩, ⟨a.weightStride, 32, 16⟩, ⟨a.outStride, 16, 16⟩,
    ⟨(colSide a t).orows a, 0, 16⟩]

/-- Depthwise convolutions have a function of their own: `dw` is not set. -/
def fields7a : List Field :=
  [⟨aSpadId a t, 18, 2⟩, ⟨bSpadId a t, 16, 2⟩, ⟨maxPixelsPerRow p a t, 8, 8⟩, Field.flag false 6,
    Field.flag a.transInput3120 5, Field.flag a.transWeight0132 4, Field.flag a.transWeight1203 3,
    Field.flag a.transOutput1203 2, Field.flag a.wrot180 1, Field.flag (a.bias == 0) 0]

def fields7b : List Field :=
  [⟨a.act, 3, 2⟩, Field.flag a.inputDilated 2, Field.flag a.downsample 1, Field.flag a.noPool 0]

def loopCmds : List LoopConv.Cmd :=
  [⟨.config1, word (fields1a a), word (fields1b a)⟩,
    ⟨.config2, word (fields2a a), word (fields2b a t)⟩,
    ⟨.config3, word (fields3a a t), word (fields3b a t)⟩,
    ⟨.config4, word (fields4a a t 10), word (fields4b a t)⟩,
    ⟨.config5, BitVec.ofInt 64 (weightsPtr p a t), BitVec.ofInt 64 (outputPtr p a t)⟩,
    ⟨.config6, BitVec.ofInt 64 (biasPtr p a t), BitVec.ofInt 64 (inputPtr p a t)⟩,
    ⟨.loopConvWs, word (fields7a p a t), word (fields7b a)⟩]

end Tile

/-! ### Sizes of a tile -/

theorem rest_spec {whole first size : ℤ} (inside : first < whole) (pos : 0 < size) :
    0 < rest whole first size ∧ rest whole first size ≤ size ∧ first + rest whole first size ≤ whole := by
  unfold rest
  split_ifs <;> omega

section Sizes

variable {p : Params} {a : Args} {t : Tile}

theorem Args.poolStride_pos (a : Args) : 0 < a.poolStride := by
  unfold Args.poolStride Args.noPool
  split_ifs with none
  · exact Nat.one_pos
  · simp only [beq_iff_eq] at none
    omega

theorem pool_lt {out pad size stride pos : ℕ} (out_pos : 0 < out) (stride_pos : 0 < stride)
    (narrow : pad < size) (inside : (pos : ℤ) < ((out : ℤ) + 2 * pad - size).tdiv stride + 1) :
    (pos : ℤ) * stride - pad < out := by
  rcases le_or_gt 0 ((out : ℤ) + 2 * pad - size) with enough | short
  · rw [Int.tdiv_eq_ediv_of_nonneg enough] at inside
    have le : (pos : ℤ) ≤ ((out : ℤ) + 2 * pad - size) / stride := by omega
    have := (Int.le_ediv_iff_mul_le (by exact_mod_cast stride_pos)).mp le
    omega
  · -- the quotient of a negative number is rounded to zero
    have zero : 0 ≤ (-((out : ℤ) + 2 * pad - size)).tdiv stride :=
      Int.tdiv_nonneg (by omega) (by positivity)
    rw [Int.neg_tdiv] at zero
    obtain rfl : pos = 0 := by omega
    push_cast
    omega

/-- A side of a tile that the loops reach, if pooling does not pad by whole windows. -/
structure Side.Sound (a : Args) (s : Side) : Prop where
  pools_pos : 0 < s.pools
  kernels_pos : 0 < s.kernels
  starts : s.o a < s.outDim
  outDim_pos : 0 < s.outDim
  narrow : -s.o a < a.poolSize
  poolSize_pos : 0 < a.poolSize

section

variable (accepted : a.Accepted p) (issued : Issued a t)
include accepted issued

theorem planes_spec :
    (0 < batches' a t ∧ batches' a t ≤ a.batches ∧ t.b + batches' a t ≤ a.batchSize) ∧
      0 < kchs' a t ∧ kchs' a t ≤ a.kchs ∧ t.kch + kchs' a t ≤ a.inChannels := by
  obtain ⟨batches, -, -, -, -, -, kchs⟩ := accepted.steps_pos
  have b := issued.b.2
  have ch := issued.kch.2
  exact ⟨rest_spec (by omega) (by omega), rest_spec (by omega) (by omega)⟩

theorem rowSide_sound (narrow : a.poolPadding < a.poolSize) : (rowSide a t).Sound a := by
  obtain ⟨-, -, outRow, outCol, -, -, -, size⟩ := accepted.sizes_pos
  obtain ⟨-, porows, -, -, krows, -⟩ := accepted.steps_pos
  refine ⟨(rest_spec issued.porow.2 (by omega)).1, (rest_spec (by have := issued.krow.2; omega) (by omega)).1,
    pool_lt outRow a.poolStride_pos narrow issued.porow.2, ?_, ?_, size⟩
  · simp only [rowSide]
    omega
  · have : (0 : ℤ) ≤ t.porow * a.poolStride := by positivity
    simp only [Side.o, rowSide]
    omega

theorem colSide_sound (narrow : a.poolPadding < a.poolSize) : (colSide a t).Sound a := by
  obtain ⟨-, -, outRow, outCol, -, -, -, size⟩ := accepted.sizes_pos
  obtain ⟨-, -, pocols, -, -, kcols, -⟩ := accepted.steps_pos
  refine ⟨(rest_spec issued.pocol.2 (by omega)).1, (rest_spec (by have := issued.kcol.2; omega) (by omega)).1,
    pool_lt outCol a.poolStride_pos narrow issued.pocol.2, ?_, ?_, size⟩
  · simp only [colSide]
    omega
  · have : (0 : ℤ) ≤ t.pocol * a.poolStride := by positivity
    simp only [Side.o, colSide]
    omega

end

namespace Side.Sound

variable {s : Side} (sound : s.Sound a)
include sound

theorem outs_ge : (a.poolSize : ℤ) ≤ s.outs a := by
  have stride := a.poolStride_pos
  have pools := sound.pools_pos
  have : (1 : ℤ) * 1 ≤ s.pools * a.poolStride := mul_le_mul (by omega) (by omega) (by omega) (by omega)
  unfold Side.outs
  omega

theorem orows_pos : 0 < s.orows a := by
  have outs := sound.outs_ge
  have narrow := sound.narrow
  have starts := sound.starts
  have outDim := sound.outDim_pos
  have size := sound.poolSize_pos
  unfold Side.orows Side.poolBefore Side.poolAfter
  split_ifs <;> omega

theorem dilatedKernel_pos (dilation : 0 < a.kernelDilation) : 0 < a.dilatedKernel s.kernels := by
  have kernels := sound.kernels_pos
  have : 0 ≤ ((a.kernelDilation : ℤ) - 1) * (s.kernels - 1) :=
    mul_nonneg (by omega) (by omega)
  unfold Args.dilatedKernel
  omega

theorem irows_pos (stride : 0 < a.stride) (dilation : 0 < a.kernelDilation) : 0 < s.irows a := by
  have kernel := sound.dilatedKernel_pos dilation
  have : 0 < s.orows a * a.stride := mul_pos sound.orows_pos (by exact_mod_cast stride)
  unfold Side.irows
  omega

end Side.Sound

theorem Side.before_nonneg (s : Side) : 0 ≤ s.before a := by
  simp only [Side.before]
  split_ifs <;> omega

theorem Side.after_nonneg (s : Side) : 0 ≤ s.after a := by
  simp only [Side.after]
  split_ifs <;> omega

end Sizes

/-- A kernel over an image of one channel, in tiles of one pixel and one tap. -/
def squareConv (inDim outDim kernelDim padding : ℕ) : Args :=
  { batchSize := 1, inRowDim := inDim, inColDim := inDim, inChannels := 1, outChannels := 1
    outRowDim := outDim, outColDim := outDim, stride := 1, inputDilation := 1, kernelDilation := 1
    padding := padding, kernelDim := kernelDim, inStride := 1, weightStride := 1, outStride := 1
    wrot180 := false, transOutput1203 := false, transInput3120 := false, transWeight1203 := false
    transWeight0132 := false, batches := 1, porows := 1, pocols := 1, pochs := 1, krows := 1, kcols := 1
    kchs := 1, input := 256, weights := 512, bias := 0, output := 1024, act := 0, poolSizeArg := 0
    poolStrideArg := 0, poolPaddingArg := 0 }

end Conv

end Gemmini
