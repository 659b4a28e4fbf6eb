import Gemmini.Conv.Tiles
import Gemmini.Lib.Loop

/-!
# Moving in the input of a tile on the functional model

`loop_conv_ws` of `gemmini.cc`, up to the end of its loops over the input.  Sizes and loop counters are
`int16_t`; the size between the paddings can be negative.  Every move is an `mvin`, which with several
pixels in a row also writes the rows before.
-/

namespace Gemmini.Conv

open LoopConv (Params)
open LoopMatmul (wire)

namespace Functional

/-- The fields of `gemmini_state` that the input loops read. -/
structure Regs where
  batchSize : ℕ
  inRowDim : ℕ
  inColDim : ℕ
  inStride : ℕ
  stride : ℕ
  kernelDilation : ℕ
  batches : ℕ
  krows : ℕ
  kcols : ℕ
  kchs : ℕ
  lpad : ℕ
  rpad : ℕ
  upad : ℕ
  dpad : ℕ
  orows : ℕ
  ocols : ℕ
  input : ℕ
  transInput3120 : Bool
  downsample : Bool
  inputDilated : Bool
  maxPixelsPerRow : ℕ
  aSpadId : ℕ

def blankRegs : Regs :=
  { batchSize := 0, inRowDim := 0, inColDim := 0, inStride := 0, stride := 0, kernelDilation := 0
    batches := 0, krows := 0, kcols := 0, kchs := 0, lpad := 0, rpad := 0, upad := 0, dpad := 0
    orows := 0, ocols := 0, input := 0, transInput3120 := false, downsample := false
    inputDilated := false, maxPixelsPerRow := 1, aSpadId := 0 }

/-- `loop_conv_ws_config_1` to `loop_conv_ws_config_6`, and the operands of `loop_conv_ws`. -/
def Regs.edit (s : Regs) (x : LoopConv.Cmd) : Regs :=
  match x.funct with
  | .config1 => { s with
      batchSize := slice x.rs1 0 16, inRowDim := slice x.rs1 16 16, stride := slice x.rs2 48 8 }
  | .config2 => { s with batches := slice x.rs2 48 16 }
  | .config3 => { s with
      krows := slice x.rs1 48 16, kcols := slice x.rs1 32 16, kchs := slice x.rs1 16 16
      lpad := slice x.rs1 0 16, rpad := slice x.rs2 48 16, upad := slice x.rs2 32 16
      dpad := slice x.rs2 24 8, inColDim := slice x.rs2 0 16 }
  | .config4 => { s with
      orows := slice x.rs1 48 16, kernelDilation := slice x.rs1 0 8
      inStride := slice x.rs2 48 16, ocols := slice x.rs2 0 16 }
  | .config5 => s
  | .config6 => { s with input := x.rs2.toNat }
  | .loopConvWs => { s with
      transInput3120 := bit x.rs1 5
      maxPixelsPerRow := if slice x.rs1 8 8 = 0 then 1 else slice x.rs1 8 8
      aSpadId := slice x.rs1 18 2
      downsample := bit x.rs2 1
      inputDilated := bit x.rs2 2 }

/-- `mvin`: the pixels, the channels, and from where to where. -/
structure Move where
  dram : ℕ
  rows : ℕ
  cols : ℕ
  addr : ℕ
  deriving DecidableEq

section Loops

variable (p : Params) (s : Regs)

def Regs.undilated (x : ℕ) : ℤ := ((x + s.inputDilated.toNat) >>> s.inputDilated.toNat : ℕ)

/-- `irows_without_dilation` or `icols_without_dilation`, from the outputs and the kernel. -/
def Regs.withoutDilation (outs kernels : ℕ) : ℤ :=
  sint 16 (outs * s.stride + sint 16 (kernels + (s.kernelDilation - 1) * (kernels - 1)) - 1)

/-- `irows_unpadded` or `icols_unpadded`. -/
def Regs.unpadded (outs kernels before after : ℕ) : ℤ :=
  let unpadded := sint 16 (s.withoutDilation outs kernels - before - after)
  sint 16 (if s.inputDilated then (unpadded + 1).tdiv 2 else unpadded)

/-- `irows` or `icols`. -/
def Regs.padded (outs kernels before after : ℕ) : ℤ :=
  sint 16 (if s.inputDilated then
      s.unpadded outs kernels before after + s.undilated before + s.undilated after
    else s.withoutDilation outs kernels)

def irowsUnpadded : ℤ := s.unpadded s.orows s.krows s.upad s.dpad
def icolsUnpadded : ℤ := s.unpadded s.ocols s.kcols s.lpad s.rpad
def irows : ℤ := s.padded s.orows s.krows s.upad s.dpad
def icols : ℤ := s.padded s.ocols s.kcols s.lpad s.rpad

def ichs : ℤ := sint 16 s.kchs

def ds (x : ℤ) : ℤ := x / 2 ^ s.downsample.toNat

def aSpAddrStart : ℕ := if s.aSpadId = 2 then p.maxAddr / 2 else 0

def maxChsPerMvin : ℤ :=
  let n : ℤ := if s.transInput3120 then s.batches else ichs s
  sint 16 (if n < p.maxBlockLen * p.blockSize then n else p.maxBlockLen * p.blockSize)

def dramStride : ℕ := (if s.transInput3120 then s.batchSize else s.inStride) * p.inputBytes % 2 ^ 32

def spadStride : ℤ :=
  (if s.transInput3120 then ichs s else s.batches) * ds s (irows s) * ds s (icols s)

/-- `I`. -/
def pixels (icol : ℤ) : ℤ :=
  sint 16 (if icol < 0 then rest 0 icol p.blockSize
    else if icol ≥ icolsUnpadded s then
      rest (icolsUnpadded s + s.undilated s.rpad) icol p.blockSize
    else rest (icolsUnpadded s) icol (p.blockSize * 2 ^ s.downsample.toNat))

/-- `K`. -/
def channels (b ich : ℤ) : ℤ :=
  sint 16 (if s.transInput3120 then rest s.batches b (maxChsPerMvin p s)
    else rest (ichs s) ich (maxChsPerMvin p s))

/-- `in`, or zero for a move of zeros.  The index of the element is an `int`. -/
def source (b irow icol ich : ℤ) : ℤ :=
  if irow < 0 ∨ irow ≥ irowsUnpadded s ∨ icol < 0 ∨ icol ≥ icolsUnpadded s then 0
  else if s.transInput3120 then
    s.input + sint 32 ((ich * s.inRowDim * s.inColDim + irow * s.inColDim + icol) * s.batchSize + b) *
      p.inputBytes
  else
    s.input + sint 32 ((b * s.inRowDim * s.inColDim + irow * s.inColDim + icol) * s.inStride + ich) *
      p.inputBytes

def aSpAddr (b irow icol ich : ℤ) : ℤ :=
  let outer := if s.transInput3120 then b else ich
  let inner := if s.transInput3120 then ich else b
  aSpAddrStart p s + outer.tdiv p.blockSize * spadStride s +
    inner * ds s (irows s) * ds s (icols s) +
    ds s (sint 16 (irow + s.undilated s.upad)) * ds s (icols s) +
    ds s (sint 16 (icol + s.undilated s.lpad))

/-- The `mvin` of one iteration, with the fields of its operands. -/
def move (b irow icol ich : ℤ) : Move where
  dram := wire 64 (source p s b irow icol ich)
  rows := wire 16 (ds s (pixels p s icol))
  cols := wire 16 (channels p s b ich)
  addr := wire 29 (aSpAddr p s b irow icol ich)

/-! The loops; an `int16_t` counter runs over at most `2 ^ 16` values, or for ever. -/

def batchLoop : List ℤ :=
  upTo s.batches (fun b => sint 16 (b + if s.transInput3120 then maxChsPerMvin p s else 1)) (2 ^ 16) 0

def rowLoop : List ℤ :=
  upTo (irowsUnpadded s + s.undilated s.dpad) (fun i => sint 16 (i + 2 ^ s.downsample.toNat)) (2 ^ 16)
    (sint 16 (-s.undilated s.upad))

def colLoop : List ℤ :=
  upTo (icolsUnpadded s + s.undilated s.rpad) (fun i => sint 16 (i + pixels p s i)) (2 ^ 16)
    (sint 16 (-s.undilated s.lpad))

def channelLoop : List ℤ :=
  upTo (ichs s) (fun c => sint 16 (c + if s.transInput3120 then 1 else maxChsPerMvin p s)) (2 ^ 16) 0

def moves : List Move :=
  if s.input = 0 then []
  else (batchLoop p s).flatMap fun b => (rowLoop s).flatMap fun irow =>
    (colLoop p s).flatMap fun icol => (channelLoop p s).map fun ich => move p s b irow icol ich

/-! ### What a move does -/

def blockStride : ℕ := wire 16 (spadStride s)

/-- The row of an element; the other pixels of a row are the rows before. -/
def Move.spadRow (m : Move) (row col : ℕ) : ℕ :=
  m.addr + row + col / p.blockSize * blockStride s

def Move.source (m : Move) (row col : ℕ) : ℕ :=
  m.dram + row * ((dramStride p s <<< s.downsample.toNat) % 2 ^ 32) + col * p.inputBytes

def Move.Lands (m : Move) (region : ℕ) : Prop :=
  ∀ row < m.rows, ∀ col < m.cols, ∀ pixel < s.maxPixelsPerRow, pixel ≤ m.spadRow p s row col →
    aSpAddrStart p s ≤ m.spadRow p s row col - pixel ∧
      m.spadRow p s row col - pixel < aSpAddrStart p s + region

def Move.Reads (m : Move) (allowed : ℕ → Prop) : Prop :=
  m.dram = 0 ∨ ∀ row < m.rows, ∀ col < m.cols, allowed (m.source p s row col)

end Loops

def regs (p : Params) (a : Args) (t : Tile) (s : Regs) : Regs := (loopCmds p a t).foldl Regs.edit s

end Functional

/-! ### The input tensor -/

namespace Args

variable (p : Params) (a : Args)

/-- Images of pixels of channels, or channels of pixels of images. -/
def planes : ℕ := if a.transInput3120 then a.inChannels else a.batchSize
def width : ℕ := if a.transInput3120 then a.batchSize else a.inChannels
def pitch : ℕ := if a.transInput3120 then a.batchSize else a.inStride

def index (plane row col k : ℤ) : ℤ :=
  (plane * a.inRowDim * a.inColDim + row * a.inColDim + col) * a.pitch + k

def InInput (addr : ℕ) : Prop :=
  ∃ plane row col k : ℕ, plane < a.planes ∧ row < a.inRowDim ∧ col < a.inColDim ∧ k < a.width ∧
    (addr : ℤ) = a.input + a.index plane row col k * p.inputBytes

end Args

end Gemmini.Conv
