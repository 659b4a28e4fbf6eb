import Gemmini.Lib.SInt
import Gemmini.Lib.Walker
import Gemmini.LoopMatmul.Units

/-!
# The units that unroll a convolution

`LoopConv.scala`: three load units, the execute unit and the store unit each hold the request for one
loop.  For each, the commands at its positions and how it steps; registers of bounds and counters have
16 bits.
-/

namespace Gemmini.LoopConv

open LoopMatmul (wire Operand castToSpAddr castToAccAddr garbageAddr dramAddrOf)
open Odometer (floorAdd)

/-- The parameters of `LoopConv`. -/
structure Params extends LoopMatmul.Params where
  hasTrainingConvs : Bool
  hasMaxPool : Bool
  hasFirstLayerOptimizations : Bool
  hasDwConvs : Bool
  /-- The widths of two fields of a load configuration. -/
  blockStrideBits : ℕ
  pixelRepeatsBits : ℕ

namespace Params

variable (p : Params)

def maxBlockLen : ℕ := max (p.dmaMaxBytes / (p.blockSize * (p.inputW / 8))) 1
def maxBlockLenAcc : ℕ := max (p.dmaMaxBytes / (p.blockSize * (p.accW / 8))) 1

/-- `input_w/8` and `acc_w/8`. -/
def inputBytes : ℕ := p.inputW / 8
def accBytes : ℕ := p.accW / 8

end Params

/-- `LoopConvOuterBounds`, `LoopConvInnerBounds` and the rest of `LoopConvState`, as far as it is read. -/
structure Cfg where
  batchSize : ℕ
  inRowDim : ℕ
  inColDim : ℕ
  inChannels : ℕ
  outChannels : ℕ
  outColDim : ℕ
  outRowDim : ℕ
  outStride : ℕ
  inStride : ℕ
  weightStride : ℕ
  poolOutRowDim : ℕ
  poolOutColDim : ℕ
  stride : ℕ
  kernelDim : ℕ
  kernelDilation : ℕ
  poolSize : ℕ
  poolStride : ℕ
  batches : ℕ
  porows : ℕ
  pocols : ℕ
  pochs : ℕ
  krows : ℕ
  kcols : ℕ
  kchs : ℕ
  lpad : ℕ
  rpad : ℕ
  upad : ℕ
  dpad : ℕ
  plpad : ℕ
  pupad : ℕ
  orows : ℕ
  ocols : ℕ
  biasDramAddr : ℕ
  weightsDramAddr : ℕ
  inputDramAddr : ℕ
  outputDramAddr : ℕ
  noBias : Bool
  wrot180 : Bool
  noPool : Bool
  downsample : Bool
  inputDilated : Bool
  activation : ℕ
  transOutput1203 : Bool
  transWeight1203 : Bool
  transWeight0132 : Bool
  transInput3120 : Bool
  dw : Bool
  maxPixelsPerRow : ℕ
  aExSpadId : ℕ
  bExSpadId : ℕ
  aAddrStart : ℕ
  bAddrEnd : ℕ
  deriving DecidableEq, Repr

inductive OutCmd
  /-- `CONFIG_LOAD` for a state: block stride, repeats and main memory stride. -/
  | configLd (state blockStride pixelRepeats dramStride : ℕ)
  /-- `LOAD_CMD`, `LOAD2_CMD` and `LOAD3_CMD` by their state. -/
  | load (state dram : ℕ) (dst : Operand)
  /-- `CONFIG_EX` that sets only the strides. -/
  | configEx (aStride cStride : ℕ)
  | preload (src dst : Operand)
  | compute (flip : Bool) (a b : Operand)
  /-- `CONFIG_STORE` with the geometry of a pooled store. -/
  | configPool (ocols orows pocols porows poolOutDim lpad upad poolSize poolStride activation
      stride : ℕ)
  /-- `CONFIG_STORE` after the pooled stores. -/
  | configSt (activation stride : ℕ)
  | store (dram : ℕ) (src : Operand)
  /-- A pooled store; its number of rows is not set. -/
  | storePool (dram cols : ℕ) (src : LocalAddr)
  deriving DecidableEq, Repr

/-! ### Sizes -/

/-- `max - cur` on 16 bits. -/
def left (max cur : ℕ) : ℕ := wire 16 (max - cur)

/-- `Mux(x > n, n, x)`. -/
def atMost (n x : ℕ) : ℕ := if x > n then n else x

/-- `undilated`: halved, rounding up, if the input is dilated. -/
def undilated (dilated : Bool) (x : ℕ) : ℕ := (x + dilated.toNat) >>> dilated.toNat

namespace Cfg

variable (p : Params) (c : Cfg)

/-! `derived_params`, with the widths of the wires. -/

def ochs : ℕ := c.pochs
def ichs : ℕ := c.kchs

def dilatedKrows : ℕ :=
  wire 32 (c.krows + wire 16 (c.kernelDilation - 1) * wire 16 (c.krows - 1))

def dilatedKcols : ℕ :=
  wire 32 (c.kcols + wire 16 (c.kernelDilation - 1) * wire 16 (c.kcols - 1))

def irowsWithoutDilation : ℕ := wire 34 (c.orows * c.stride + c.dilatedKrows - 1)
def icolsWithoutDilation : ℕ := wire 34 (c.ocols * c.stride + c.dilatedKcols - 1)

/-- `irows_unpadded`, on its wire. -/
def wideIrowsUnpadded : ℕ :=
  undilated c.inputDilated (wire 36 (wire 35 (c.irowsWithoutDilation - c.upad) - c.dpad))

/-- `icols_unpadded`, on its wire. -/
def wideIcolsUnpadded : ℕ :=
  undilated c.inputDilated (wire 36 (wire 35 (c.icolsWithoutDilation - c.lpad) - c.rpad))

def irowsUnpadded : ℕ := c.wideIrowsUnpadded % 2 ^ 16
def icolsUnpadded : ℕ := c.wideIcolsUnpadded % 2 ^ 16

def irows : ℕ :=
  (if c.inputDilated then
    c.wideIrowsUnpadded + undilated true c.upad + undilated true c.dpad
  else c.irowsWithoutDilation) % 2 ^ 16

def icols : ℕ :=
  (if c.inputDilated then
    c.wideIcolsUnpadded + undilated true c.lpad + undilated true c.rpad
  else c.icolsWithoutDilation) % 2 ^ 16

def outChannelsPerBank : ℕ :=
  (c.ochs / p.blockSize + (c.ochs % p.blockSize != 0).toNat) % 2 ^ 16

def inChannelsPerBank : ℕ :=
  (c.ichs / p.blockSize + (c.ichs % p.blockSize != 0).toNat) % 2 ^ 16

/-- `x >> downsample`. -/
def downsampled (x : ℕ) : ℕ := x >>> c.downsample.toNat

def biasSpadStride : ℕ := c.batches * c.orows * c.ocols % 2 ^ 16

def inputSpadStride : ℕ :=
  (if c.transInput3120 then c.ichs * c.downsampled c.irows * c.downsampled c.icols
  else c.batches * c.downsampled c.irows * c.downsampled c.icols) % 2 ^ 16

def weightSpadStride : ℕ :=
  (if c.transWeight0132 then c.krows * c.kcols * c.pochs else c.krows * c.kcols * c.kchs) % 2 ^ 16

def bRows : ℕ :=
  if c.transWeight0132 then c.inChannelsPerBank p * c.kcols * c.krows * c.ochs
  else c.outChannelsPerBank p * c.kcols * c.krows * c.kchs

/-- `a_addr_start` of a request: the slot's own half, or a half that the software chose. -/
def aStart : ℕ :=
  (if c.aExSpadId = 0 then c.aAddrStart else wire 2 (c.aExSpadId - 1) * (p.maxAddr / 2)) %
    2 ^ log2Up p.maxAddr

/-- `b_addr_end` of a request. -/
def bEnd : ℕ :=
  (if c.bExSpadId = 0 then c.bAddrEnd else c.bExSpadId * (p.maxAddr / 2)) %
    2 ^ log2Up (p.maxAddr + 1)

def accRow (b orow ocol och : ℕ) : ℕ :=
  och / p.blockSize * c.batches * c.orows * c.ocols + b * c.orows * c.ocols + orow * c.ocols + ocol

end Cfg

/-- The configuration of the slot, the accumulator base for the units that have one, and the slot. -/
structure Req where
  cfg : Cfg
  base : ℕ
  loopId : Bool
  deriving DecidableEq, Repr

inductive LdPos (α : Type)
  | config
  | ld (x : α)
  deriving DecidableEq, Repr

/-! ### LdBias -/

structure Pixel where
  b : ℕ
  orow : ℕ
  ocol : ℕ
  och : ℕ
  deriving DecidableEq, Repr

namespace Pixel

variable (x : Pixel)

/-- One step of the counters: `och`, then `ocol`, `orow` and `b`. -/
def next (c : Cfg) (dch dcol : ℕ) : Pixel :=
  let och := floorAdd 16 x.och dch c.ochs
  let ocol := if och = 0 then floorAdd 16 x.ocol dcol c.ocols else x.ocol
  let orow := if ocol = 0 ∧ och = 0 then floorAdd 16 x.orow 1 c.orows else x.orow
  let b := if orow = 0 ∧ ocol = 0 ∧ och = 0 then floorAdd 16 x.b 1 c.batches else x.b
  ⟨b, orow, ocol, och⟩

def atStart : Prop := x = ⟨0, 0, 0, 0⟩

instance : Decidable x.atStart := inferInstanceAs (Decidable (x = _))

end Pixel

namespace LdBias

variable (p : Params) (r : Req)

def maxOchsPerMvin : ℕ :=
  if r.cfg.ochs < p.maxBlockLenAcc * p.blockSize then r.cfg.ochs else p.maxBlockLenAcc * p.blockSize

def mvinCmd (x : Pixel) : OutCmd :=
  .load 2
    -- this offset has no more bits than the address
    (if r.cfg.noBias then 0
      else dramAddrOf p.toParams r.cfg.biasDramAddr (x.och * p.accBytes) % 2 ^ max p.coreMaxAddrBits 32)
    { rows := atMost p.blockSize (left r.cfg.ocols x.ocol) % 2 ^ p.mvinRowsBits
      cols := atMost (maxOchsPerMvin p r) (left r.cfg.ochs x.och) % 2 ^ p.mvinColsBits
      addr := castToAccAddr p.geometry (r.base + r.cfg.accRow p x.b x.orow x.ocol x.och) false false }

/-- `LoopConvLdBias`. -/
def spec : Walker.Spec Req (LdPos Pixel) OutCmd where
  start _ := .config
  step r x := match x with
    | .config => some (.ld ⟨0, 0, 0, 0⟩)
    | .ld x =>
      let next := x.next r.cfg (maxOchsPerMvin p r) p.blockSize
      if next.atStart then none else some (.ld next)
  emit r x := match x with
    | .config => some (.configLd 2 (r.cfg.biasSpadStride % 2 ^ p.blockStrideBits)
        (1 % 2 ^ p.pixelRepeatsBits) 0)
    | .ld x => some (mvinCmd p r x)
  dead r := r.cfg.biasDramAddr == 0

end LdBias

/-! ### LdInput -/

structure InPixel where
  b : ℤ
  irow : ℤ
  icol : ℤ
  ich : ℤ
  deriving DecidableEq, Repr

/-- `sFloorAdd`, on wires that are wide enough. -/
def sFloorAdd (s : ℤ) (n : ℕ) (maxPlusOne min : ℤ) : ℤ :=
  if s + n > maxPlusOne - 1 then min else s + n

namespace LdInput

variable (p : Params) (r : Req) (x : InPixel)

def maxChsPerMvin : ℕ :=
  let n := if r.cfg.transInput3120 then r.cfg.batches else r.cfg.ichs
  if n < p.maxBlockLen * p.blockSize then n else p.maxBlockLen * p.blockSize

/-- `undilated(upad)`, and so for the other sides. -/
def upad : ℕ := undilated r.cfg.inputDilated r.cfg.upad
def dpad : ℕ := undilated r.cfg.inputDilated r.cfg.dpad
def lpad : ℕ := undilated r.cfg.inputDilated r.cfg.lpad
def rpad : ℕ := undilated r.cfg.inputDilated r.cfg.rpad

def isZeros : Bool :=
  x.irow < 0 || x.irow ≥ r.cfg.irowsUnpadded || x.icol < 0 || x.icol ≥ r.cfg.icolsUnpadded

def dramStride : ℕ :=
  if r.cfg.transInput3120 then r.cfg.batchSize * p.inputBytes else r.cfg.inStride * p.inputBytes

def dramOffset : ℤ :=
  if r.cfg.transInput3120 then
    ((x.ich * r.cfg.inColDim * r.cfg.inRowDim + x.irow * r.cfg.inColDim + x.icol) * r.cfg.batches +
      x.b) * p.inputBytes
  else
    ((x.b * r.cfg.inRowDim * r.cfg.inColDim + x.irow * r.cfg.inColDim + x.icol) * r.cfg.inStride +
      x.ich) * p.inputBytes

def spadAddr : ℤ :=
  let rows := r.cfg.downsampled r.cfg.irows
  let cols := r.cfg.downsampled r.cfg.icols
  let ds := r.cfg.downsample.toNat
  let outer := if r.cfg.transInput3120 then x.b else x.ich
  let inner := if r.cfg.transInput3120 then x.ich else x.b
  r.cfg.aStart p + outer / 2 ^ log2Up p.blockSize * r.cfg.inputSpadStride + inner * rows * cols +
    (x.irow + upad r) / 2 ^ ds * cols + (x.icol + lpad r) / 2 ^ ds

/-- `I`. -/
def columns : ℤ :=
  let unpadded : ℤ := r.cfg.icolsUnpadded
  let block : ℤ := p.blockSize
  if x.icol < 0 then if -x.icol > block then block else -x.icol
  else if x.icol ≥ unpadded then
    if unpadded + rpad r - x.icol > block then block else unpadded + rpad r - x.icol
  else
    let wide := block * 2 ^ r.cfg.downsample.toNat
    if unpadded - x.icol > wide then wide else unpadded - x.icol

/-- `K`. -/
def channels : ℤ :=
  let rest : ℤ := if r.cfg.transInput3120 then r.cfg.batches - x.b else r.cfg.ichs - x.ich
  if rest > maxChsPerMvin p r then maxChsPerMvin p r else rest

def mvinCmd : OutCmd :=
  .load 0
    (if isZeros r x then 0
    else dramAddrOf p.toParams r.cfg.inputDramAddr (wire 32 (dramOffset p r x)))
    { rows := wire p.mvinRowsBits (columns p r x / 2 ^ r.cfg.downsample.toNat)
      cols := wire p.mvinColsBits (channels p r x)
      addr := castToSpAddr p.geometry (spadAddr p r x) }

def top : ℤ := 0 - upad r
def leftmost : ℤ := 0 - lpad r

def first : InPixel := ⟨0, sint 16 (top r), sint 16 (leftmost r), 0⟩

/-- The counters of the next position, on their wires: `ich`, then `icol`, `irow` and `b`. -/
def next : InPixel :=
  let bIt := if r.cfg.transInput3120 then maxChsPerMvin p r else 1
  let ichIt := if r.cfg.transInput3120 then 1 else maxChsPerMvin p r
  let ich := sFloorAdd x.ich ichIt r.cfg.ichs 0
  let icol := if ich = 0 then
      sFloorAdd x.icol (columns p r x).toNat (r.cfg.icolsUnpadded + rpad r) (leftmost r)
    else x.icol
  let irow := if icol = leftmost r ∧ ich = 0 then
      -- the sum has only the width of the counter
      if x.irow + 2 ^ r.cfg.downsample.toNat > r.cfg.irowsUnpadded + dpad r - 1 then top r
      else sint 16 (x.irow + 2 ^ r.cfg.downsample.toNat)
    else x.irow
  let b := if irow = top r ∧ icol = leftmost r ∧ ich = 0 then sFloorAdd x.b bIt r.cfg.batches 0
    else x.b
  ⟨b, irow, icol, ich⟩

/-- `LoopConvLdInput`. -/
def spec : Walker.Spec Req (LdPos InPixel) OutCmd where
  start _ := .config
  step r x := match x with
    | .config => some (.ld (first r))
    | .ld x =>
      let y := next p r x
      if y = ⟨0, top r, leftmost r, 0⟩ then none
      else some (.ld ⟨sint 16 y.b, sint 16 y.irow, sint 16 y.icol, sint 16 y.ich⟩)
  emit r x := match x with
    | .config => some (.configLd 0 (r.cfg.inputSpadStride % 2 ^ p.blockStrideBits)
        (r.cfg.maxPixelsPerRow % 2 ^ p.pixelRepeatsBits)
        (dramStride p r <<< r.cfg.downsample.toNat))
    | .ld x => some (mvinCmd p r x)
  dead r := r.cfg.inputDramAddr == 0

end LdInput

/-! ### LdWeights -/

structure Weight where
  och : ℕ
  krow : ℕ
  kcol : ℕ
  kch : ℕ
  deriving DecidableEq, Repr

namespace LdWeights

variable (p : Params) (r : Req) (x : Weight)

def maxChsPerMvin : ℕ :=
  let n := if r.cfg.transWeight0132 then r.cfg.kchs else r.cfg.ochs
  if n < p.maxBlockLen * p.blockSize then n else p.maxBlockLen * p.blockSize

def dramStride : ℕ :=
  (if r.cfg.dw then 1
  else if r.cfg.transWeight1203 then r.cfg.kernelDim * r.cfg.kernelDim * r.cfg.outChannels
  else if r.cfg.transWeight0132 then r.cfg.inChannels
  else r.cfg.weightStride) * p.inputBytes

def dramOffset : ℕ :=
  if r.cfg.dw then (x.krow * r.cfg.kernelDim + x.kcol) * p.inputBytes
  else if r.cfg.transWeight1203 then
    ((x.kch * r.cfg.kernelDim * r.cfg.kernelDim + x.krow * r.cfg.kernelDim + x.kcol) *
      r.cfg.outChannels + x.och) * p.inputBytes
  else if r.cfg.transWeight0132 then
    ((x.krow * r.cfg.kernelDim * r.cfg.outChannels + x.kcol * r.cfg.outChannels + x.och) *
      r.cfg.inChannels + x.kch) * p.inputBytes
  else
    ((x.krow * r.cfg.kernelDim * r.cfg.inChannels + x.kcol * r.cfg.inChannels + x.kch) *
      r.cfg.weightStride + x.och) * p.inputBytes

def spadAddr : ℤ :=
  r.cfg.bEnd p - r.cfg.bRows p +
    if r.cfg.transWeight0132 then
      x.kch / p.blockSize * r.cfg.krows * r.cfg.kcols * r.cfg.ochs +
        x.krow * r.cfg.kcols * r.cfg.ochs + x.kcol * r.cfg.ochs + x.och
    else
      x.och / p.blockSize * r.cfg.krows * r.cfg.kcols * r.cfg.kchs +
        x.krow * r.cfg.kcols * r.cfg.kchs + x.kcol * r.cfg.kchs + x.kch

/-- `mvin_cmd`: rows `K` and columns `J`. -/
def mvinCmd : OutCmd :=
  let rows := if r.cfg.transWeight0132 then left r.cfg.ochs x.och else left r.cfg.kchs x.kch
  let cols := if r.cfg.transWeight0132 then left r.cfg.kchs x.kch else left r.cfg.ochs x.och
  .load 1 (dramAddrOf p.toParams r.cfg.weightsDramAddr (dramOffset p r x))
    { rows := atMost p.blockSize rows % 2 ^ p.mvinRowsBits
      cols := atMost (maxChsPerMvin p r) cols % 2 ^ p.mvinColsBits
      addr := castToSpAddr p.geometry (spadAddr p r x) }

/-- One step of the counters: `kch`, then `kcol`, `krow` and `och`. -/
def next : Weight :=
  let ochIt := if r.cfg.transWeight0132 then p.blockSize else maxChsPerMvin p r
  let kchIt := if r.cfg.transWeight0132 then maxChsPerMvin p r else p.blockSize
  let kch := floorAdd 16 x.kch kchIt r.cfg.kchs
  let kcol := if kch = 0 then floorAdd 16 x.kcol 1 r.cfg.kcols else x.kcol
  let krow := if kcol = 0 ∧ kch = 0 then floorAdd 16 x.krow 1 r.cfg.krows else x.krow
  let och := if krow = 0 ∧ kcol = 0 ∧ kch = 0 then floorAdd 16 x.och ochIt r.cfg.ochs else x.och
  ⟨och, krow, kcol, kch⟩

/-- `LoopConvLdWeight`. -/
def spec : Walker.Spec Req (LdPos Weight) OutCmd where
  start _ := .config
  step r x := match x with
    | .config => some (.ld ⟨0, 0, 0, 0⟩)
    | .ld x => if next p r x = ⟨0, 0, 0, 0⟩ then none else some (.ld (next p r x))
  emit r x := match x with
    | .config => some (.configLd 1 (r.cfg.weightSpadStride % 2 ^ p.blockStrideBits)
        (1 % 2 ^ p.pixelRepeatsBits) (dramStride p r))
    | .ld x => some (mvinCmd p r x)
  dead r := r.cfg.weightsDramAddr == 0

end LdWeights

/-! ### Execute -/

inductive ExPhase
  | config
  | pre
  | comp
  deriving DecidableEq, Repr

structure Tap where
  och : ℕ
  krow : ℕ
  kcol : ℕ
  kch : ℕ
  b : ℕ
  orow : ℕ
  ocol : ℕ
  deriving DecidableEq, Repr

/-- State, counters and `new_weights`. -/
structure ExPos where
  phase : ExPhase
  tap : Tap
  newWeights : Bool
  deriving DecidableEq, Repr

namespace Execute

variable (p : Params) (r : Req) (x : Tap)

/-- `skip_iteration`, in the states after the configuration: between the pixels of a dilated input. -/
def skips : Bool :=
  r.cfg.inputDilated &&
    ((x.krow * r.cfg.kernelDilation + x.orow - r.cfg.upad : ℤ) % 2 != 0 ||
      (x.kcol * r.cfg.kernelDilation + x.ocol - r.cfg.lpad : ℤ) % 2 != 0)

def pixels : ℕ := atMost r.cfg.maxPixelsPerRow (left r.cfg.kcols x.kcol)

def irow : ℕ :=
  undilated r.cfg.inputDilated (x.orow * r.cfg.stride + x.krow * r.cfg.kernelDilation)

def icol : ℕ :=
  undilated r.cfg.inputDilated (x.ocol * r.cfg.stride + x.kcol * r.cfg.kernelDilation)

/-- `I`. -/
def rows : ℕ :=
  if r.cfg.transInput3120 then atMost p.blockSize (left r.cfg.batches x.b)
  else undilated r.cfg.inputDilated
    (atMost (p.blockSize <<< r.cfg.inputDilated.toNat) (left r.cfg.ocols x.ocol))

/-- `J`. -/
def cols : ℕ := atMost p.blockSize (left r.cfg.ochs x.och)

/-- `K`. -/
def depth : ℕ := pixels r x * atMost p.blockSize (left r.cfg.kchs x.kch)

def aAddr : ℕ :=
  let rows := r.cfg.downsampled r.cfg.irows
  let cols := r.cfg.downsampled r.cfg.icols
  let outer := if r.cfg.transInput3120 then x.b else x.kch
  let inner := if r.cfg.transInput3120 then x.kch else x.b
  r.cfg.aStart p + outer / p.blockSize * r.cfg.inputSpadStride + inner * rows * cols +
    r.cfg.downsampled (irow r x) * cols + r.cfg.downsampled (icol r x)

def cAddr : ℕ := r.base + r.cfg.accRow p x.b x.orow x.ocol x.och

def bAddr : ℤ :=
  let krow := if r.cfg.wrot180 then wire 16 (r.cfg.krows - x.krow - 1) else x.krow
  let kcol := if r.cfg.wrot180 then wire 16 (r.cfg.kcols - x.kcol - 1) else x.kcol
  r.cfg.bEnd p - r.cfg.bRows p +
    if r.cfg.transWeight0132 then
      x.kch / p.blockSize * r.cfg.krows * r.cfg.kcols * r.cfg.ochs +
        krow * r.cfg.kcols * r.cfg.ochs + kcol * r.cfg.ochs + x.och
    else
      x.och / p.blockSize * r.cfg.krows * r.cfg.kcols * r.cfg.kchs +
        krow * r.cfg.kcols * r.cfg.kchs + kcol * r.cfg.kchs + x.kch

def preCmd (newWeights : Bool) : OutCmd :=
  .preload
    { rows := depth p r x % 2 ^ p.mvinRowsBits
      cols := cols p r x % 2 ^ p.mvinColsBits
      addr := if newWeights then castToSpAddr p.geometry (bAddr p r x) else garbageAddr p.geometry }
    { rows := rows p r x % 2 ^ p.mvoutRowsBits
      cols := cols p r x % 2 ^ p.mvoutColsBits
      addr := castToAccAddr p.geometry (cAddr p r x) true false }

def compCmd (newWeights : Bool) : OutCmd :=
  .compute newWeights
    { rows := rows p r x % 2 ^ p.mvinRowsBits
      cols := depth p r x % 2 ^ p.mvinColsBits
      addr := castToSpAddr p.geometry (aAddr p r x) }
    { rows := rows p r x % 2 ^ p.mvinRowsBits
      cols := cols p r x % 2 ^ p.mvinColsBits
      addr := garbageAddr p.geometry }

/-- One step of the counters: `ocol`, then `orow`, `b`, `kch`, `kcol`, `krow` and `och`. -/
def next : Tap :=
  let bIt := if r.cfg.transInput3120 then p.blockSize else 1
  let ocolIt := if skips r x || r.cfg.transInput3120 then 1
    else p.blockSize <<< r.cfg.inputDilated.toNat
  let ocol := floorAdd 16 x.ocol ocolIt r.cfg.ocols
  let orow := if ocol = 0 then floorAdd 16 x.orow 1 r.cfg.orows else x.orow
  let b := if orow = 0 ∧ ocol = 0 then floorAdd 16 x.b bIt r.cfg.batches else x.b
  let inner := b = 0 ∧ orow = 0 ∧ ocol = 0
  let kch := if inner then floorAdd 16 x.kch p.blockSize r.cfg.kchs else x.kch
  let kcol := if kch = 0 ∧ inner then floorAdd 16 x.kcol r.cfg.maxPixelsPerRow r.cfg.kcols
    else x.kcol
  let krow := if kcol = 0 ∧ kch = 0 ∧ inner then floorAdd 16 x.krow 1 r.cfg.krows else x.krow
  let och := if krow = 0 ∧ kcol = 0 ∧ kch = 0 ∧ inner then floorAdd 16 x.och p.blockSize r.cfg.ochs
    else x.och
  ⟨och, krow, kcol, kch, b, orow, ocol⟩

/-- `new_weights` after a position in state `comp`: set when the pixels start again, cleared by a
command. -/
def nextWeights (newWeights : Bool) : Bool :=
  if (next p r x).b = 0 ∧ (next p r x).orow = 0 ∧ (next p r x).ocol = 0 then true
  else newWeights && skips r x

/-- `LoopConvExecute`. -/
def spec : Walker.Spec Req ExPos OutCmd where
  start r := ⟨if r.cfg.transInput3120 then .config else .pre, ⟨0, 0, 0, 0, 0, 0, 0⟩, true⟩
  step r x := match x.phase with
    | .config => some { x with phase := .pre }
    | .pre => some { x with phase := .comp }
    | .comp =>
      if next p r x.tap = ⟨0, 0, 0, 0, 0, 0, 0⟩ then none
      else some ⟨.pre, next p r x.tap, nextWeights p r x.tap x.newWeights⟩
  emit r x := match x.phase with
    | .config => some (.configEx (r.cfg.irows * r.cfg.icols % 2 ^ 16)
        (r.cfg.orows * r.cfg.ocols % 2 ^ 16))
    | .pre => if skips r x.tap then none else some (preCmd p r x.tap x.newWeights)
    | .comp => if skips r x.tap then none else some (compCmd p r x.tap x.newWeights)
  dead _ := false

end Execute

/-! ### St -/

/-- The positions of the store unit; the pooled stores only count batches and channels. -/
inductive StPos
  | st (x : Pixel)
  | prePoolConfig
  | pool (b och : ℕ)
  | postPoolConfig
  deriving DecidableEq, Repr

namespace St

variable (p : Params) (r : Req)

def dramOffset (x : Pixel) : ℕ :=
  if r.cfg.transOutput1203 then
    ((x.orow * r.cfg.outColDim * r.cfg.batchSize + x.ocol * r.cfg.batchSize + x.b) *
      r.cfg.outChannels + x.och) * p.inputBytes
  else
    ((x.b * r.cfg.outRowDim * r.cfg.outColDim + x.orow * r.cfg.outColDim + x.ocol) *
      r.cfg.outStride + x.och) * p.inputBytes

def mvoutCmd (x : Pixel) : OutCmd :=
  .store (dramAddrOf p.toParams r.cfg.outputDramAddr (dramOffset p r x))
    { rows := atMost p.blockSize (left r.cfg.ocols x.ocol) % 2 ^ p.mvoutRowsBits
      cols := atMost p.blockSize (left r.cfg.ochs x.och) % 2 ^ p.mvoutColsBits
      addr := castToAccAddr p.geometry (r.base + r.cfg.accRow p x.b x.orow x.ocol x.och) false false }

/-- `pool_cmd`: here the offset is not cut. -/
def poolCmd (b och : ℕ) : OutCmd :=
  .storePool
    ((r.cfg.outputDramAddr +
      (b * r.cfg.poolOutColDim * r.cfg.poolOutRowDim * r.cfg.outStride + och) * p.inputBytes) %
        2 ^ 64)
    (atMost p.blockSize (left r.cfg.ochs och) % 2 ^ p.mvoutColsBits)
    (castToAccAddr p.geometry (r.base + r.cfg.accRow p b 0 0 och) false false)

def prePoolConfigCmd : OutCmd :=
  .configPool (r.cfg.ocols % 2 ^ 8) (r.cfg.orows % 2 ^ 8) (r.cfg.pocols % 2 ^ 8)
    (r.cfg.porows % 2 ^ 8) (r.cfg.poolOutColDim % 2 ^ 8) (r.cfg.plpad % 2 ^ 2)
    (r.cfg.pupad % 2 ^ 2) (r.cfg.poolSize % 2 ^ 2) (r.cfg.poolStride % 2 ^ 2) r.cfg.activation
    (r.cfg.outStride * p.inputBytes % 2 ^ 32)

/-- `LoopConvSt`. -/
def spec : Walker.Spec Req StPos OutCmd where
  start r := if r.cfg.noPool then .st ⟨0, 0, 0, 0⟩ else .prePoolConfig
  step r x := match x with
    | .st x =>
      let next := x.next r.cfg p.blockSize p.blockSize
      if next.atStart then none else some (.st next)
    | .prePoolConfig => some (.pool 0 0)
    | .pool b och =>
      let och' := floorAdd 16 och p.blockSize r.cfg.ochs
      let b' := if och' = 0 then floorAdd 16 b 1 r.cfg.batches else b
      if b' = 0 ∧ och' = 0 then some .postPoolConfig else some (.pool b' och')
    | .postPoolConfig => none
  emit r x := match x with
    | .st x => some (mvoutCmd p r x)
    | .prePoolConfig => some (prePoolConfigCmd p r)
    | .pool b och => some (poolCmd p r b och)
    | .postPoolConfig => some (.configSt r.cfg.activation (r.cfg.outStride * p.inputBytes % 2 ^ 32))
  dead r := r.cfg.outputDramAddr == 0

end St

end Gemmini.LoopConv
