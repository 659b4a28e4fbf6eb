import Gemmini.ArrayConfig
import Gemmini.Lib.Odometer

/-!
# Moving rows out of the local memories

`StoreController.scala`: one DMA request for every row and block of a plain or one-dimensional mvout,
and one for every element of every window of a pooled one.  Pooling is on while the pooling stride is
not zero; a pooling size without a stride makes the mvout one-dimensional, with the rows that the last
such configuration left.
-/

namespace Gemmini.Store

open ReservationStation (Cmd)
open Odometer (wrappingAdd)

structure Regs where
  poolStride : Nat
  poolSize : Nat
  poolOutDim : Nat
  poolPorows : Nat
  poolPocols : Nat
  poolOrows : Nat
  poolOcols : Nat
  poolUpad : Nat
  poolLpad : Nat

/-- The registers after `CONFIG_ST`: the shape registers keep their values unless it is used. -/
def Regs.configure (r : Regs) (c : Cmd) : Regs :=
  let size := slice c.rs1 6 2
  let stride := slice c.rs1 4 2
  if stride ≠ 0 then
    { poolStride := stride
      poolSize := size
      poolOutDim := slice c.rs1 24 8
      poolPorows := slice c.rs1 32 8
      poolPocols := slice c.rs1 40 8
      poolOrows := slice c.rs1 48 8
      poolOcols := slice c.rs1 56 8
      poolUpad := slice c.rs1 8 2
      poolLpad := slice c.rs1 10 2 }
  else if size ≠ 0 then
    { r with
      poolStride := stride
      poolSize := size
      poolOrows := slice c.rs1 48 8
      poolOcols := slice c.rs1 56 8
      poolOutDim := slice c.rs1 24 8 }
  else { r with poolStride := stride, poolSize := size }

variable (p : ArrayConfig)

/-- A store to memory or to the scratchpad that names at least one row and one column. -/
structure Mvout where
  cmd : Cmd
  store : cmd.funct = .store ∨ cmd.funct = .storeSpad
  rows_pos : 0 < slice cmd.rs2 48 p.mvoutRowsBits
  cols_pos : 0 < slice cmd.rs2 32 p.mvoutColsBits

namespace Mvout

variable {p} (c : Mvout p)

def dstIsSpad : Bool := c.cmd.funct == .storeSpad
def localaddr : LocalAddr := LocalAddr.ofWord p.geometry c.cmd.rs2
def rows : Nat := slice c.cmd.rs2 48 p.mvoutRowsBits
def cols : Nat := slice c.cmd.rs2 32 p.mvoutColsBits
def blocks : Nat := blocksOf p.dim c.cols

def dstSpadAddr : LocalAddr := LocalAddr.ofWord p.geometry c.cmd.rs1
def dstSpadStride : Nat := slice c.cmd.rs1 32 32

end Mvout

structure Counters where
  row : Nat
  block : Nat
  porow : Nat
  pocol : Nat
  wrow : Nat
  wcol : Nat
  deriving DecidableEq

def Counters.zero : Counters := ⟨0, 0, 0, 0, 0, 0⟩

section Controller

variable {p} (r : Regs) (c : Mvout p)

def poolingIsEnabled : Bool := p.hasMaxPool && r.poolStride != 0

def mvout1dEnabled : Bool := r.poolSize != 0 && !poolingIsEnabled (p := p) r

def mvout1dRows : Nat := r.poolOrows * r.poolOcols % 2 ^ 16

def next (x : Counters) : Counters :=
  if poolingIsEnabled (p := p) r then
    let lastCol := x.wcol == r.poolSize - 1
    let lastWindow := x.wrow == r.poolSize - 1 && lastCol
    { x with
      wcol := wrappingAdd 2 x.wcol 1 r.poolSize true
      wrow := wrappingAdd 2 x.wrow 1 r.poolSize lastCol
      pocol := wrappingAdd 8 x.pocol 1 r.poolPocols lastWindow
      porow := wrappingAdd 8 x.porow 1 r.poolPorows (x.pocol == r.poolPocols - 1 && lastWindow) }
  else
    let x' := if mvout1dEnabled (p := p) r then
        { x with
          pocol := wrappingAdd 8 x.pocol 1 r.poolOcols true
          porow := wrappingAdd 8 x.porow 1 r.poolOrows (x.pocol == r.poolOcols - 1) }
      else x
    { x' with
      block := wrappingAdd p.mvoutColsBits x.block 1 c.blocks true % 2 ^ 8
      row := (if mvout1dEnabled (p := p) r then wrappingAdd 16 x.row 1 (mvout1dRows r) true
        else wrappingAdd p.mvoutRowsBits x.row 1 c.rows (x.block == c.blocks - 1)) % 2 ^ 12 }

def back (x : Counters) : Bool :=
  if poolingIsEnabled (p := p) r then x.porow == 0 && x.pocol == 0 && x.wrow == 0 && x.wcol == 0
  else x.block == 0 && x.row == 0

def last (x : Counters) : Bool :=
  if poolingIsEnabled (p := p) r then
    x.porow == r.poolPorows - 1 && x.pocol == r.poolPocols - 1 && x.wrow == r.poolSize - 1 &&
      x.wcol == r.poolSize - 1
  else
    x.block == c.blocks - 1 &&
      x.row == (if mvout1dEnabled (p := p) r then mvout1dRows r else c.rows) - 1

/-- The counters at the further requests of a store, `fuel` of them at most. -/
def walk : Nat → Counters → List Counters
  | 0, _ => []
  | fuel + 1, x =>
    if back (p := p) r x then []
    else x :: if last r c x then [] else walk fuel (next r c x)

/-- The counters at all requests of a store.  The fuel covers every setting of the counters. -/
def positions : List Counters := .zero :: walk r c (2 ^ 20) (next r c .zero)

/-- `io.dma.req.bits.laddr`; outside the tile a pooled store reads zeros, which is no row. -/
def laddr (x : Counters) : Option LocalAddr :=
  if poolingIsEnabled (p := p) r then
    let orow := x.porow * r.poolStride + x.wrow
    let ocol := x.pocol * r.poolStride + x.wcol
    if orow < r.poolUpad ∨ ocol < r.poolLpad ∨ orow - r.poolUpad ≥ r.poolOrows ∨
        ocol - r.poolLpad ≥ r.poolOcols then none
    else some (c.localaddr.add p.geometry
      ((orow - r.poolUpad) * r.poolOcols + (ocol - r.poolLpad)))
  else some (c.localaddr.add p.geometry (x.block * p.dim + x.row))

/-- The scratchpad rows written with the request of the last block of a row: the blocks are written
one behind the other. -/
def dstRows (x : Counters) : List Nat :=
  if c.dstIsSpad ∧ x.block = c.blocks - 1 then
    (List.range c.blocks).map fun b => c.dstSpadAddr.data + x.row * c.dstSpadStride + b
  else []

end Controller

end Gemmini.Store
