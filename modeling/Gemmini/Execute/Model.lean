import Gemmini.ArrayConfig
import Gemmini.Lib.Odometer
import Gemmini.Mesh.Model

/-!
# The rows of a matmul

`ExecuteController.scala` without the im2col unit: the rows that a preload and a compute read and write.
An operand fires for every one of `total_rows` rows, and reads the rows its size names; the others are
zeros.  The rows of D are read from the last to the first, and so are the rows of C written in the
output-stationary dataflow.
-/

namespace Gemmini.Execute

open ReservationStation (Cmd)
open Odometer (wrappingAdd)
open Mesh (Dataflow Support)

/-- The registers that `CONFIG_EX` sets; the last one is of the preload unroller. -/
structure Regs where
  dataflow : Dataflow
  aTranspose : Bool
  bdTranspose : Bool
  aAddrStride : Nat
  cAddrStride : Nat
  bTransposedAndWs : Bool

def IsConfigEx (c : Cmd) : Prop := c.funct = .config ∧ c.configCmdType = 0

instance (c : Cmd) : Decidable (IsConfigEx c) := by
  unfold IsConfigEx
  infer_instance

def Regs.configure (df : Support) (r : Regs) (c : Cmd) : Regs :=
  if IsConfigEx c then
    let setOnlyStrides := bit c.rs1 7
    { dataflow := if setOnlyStrides then r.dataflow else if bit c.rs1 2 then .ws else .os
      aTranspose := if setOnlyStrides then r.aTranspose else bit c.rs1 8
      bdTranspose := if setOnlyStrides then r.bdTranspose else bit c.rs1 9
      aAddrStride := slice c.rs1 16 16
      cAddrStride := slice c.rs2 48 16
      bTransposedAndWs := if setOnlyStrides then r.bTransposedAndWs
        else (df = .ws || bit c.rs1 2) && bit c.rs1 9 }
  else r

/-- A preload and its compute; an operand has at most `dim` rows and columns. -/
structure Pair (p : ArrayConfig) where
  preload : Cmd
  compute : Cmd
  isPreload : preload.funct = .preload
  isCompute : compute.functIsCompute = true
  sizes : ∀ x ∈ [preload.rs1, preload.rs2, compute.rs1, compute.rs2],
    slice x 48 (log2Up (p.dim + 1)) ≤ p.dim ∧ slice x 32 (log2Up (p.dim + 1)) ≤ p.dim

structure LocalRow where
  isAcc : Bool
  row : Nat
  deriving DecidableEq, Repr

section Controller

variable (p : ArrayConfig) (df : Support) (hardcodeDToGarbageAddr : Bool) (r : Regs)

def currentDataflow : Dataflow :=
  match df with
  | .os => .os
  | .ws => .ws
  | .both => r.dataflow

def aShouldBeFedIntoTransposer : Bool :=
  if currentDataflow df r = .os then !r.aTranspose else r.aTranspose

def bShouldBeFedIntoTransposer : Bool := currentDataflow df r = .os && r.bdTranspose

def dShouldBeFedIntoTransposer : Bool := currentDataflow df r = .ws && r.bdTranspose

def rowsDefault (x : BitVec 64) : Nat := slice x 48 (log2Up (p.dim + 1))
def colsDefault (x : BitVec 64) : Nat := slice x 32 (log2Up (p.dim + 1))

def aRows (x : BitVec 64) : Nat := if r.aTranspose then colsDefault p x else rowsDefault p x

def bRows (x : BitVec 64) : Nat :=
  if currentDataflow df r = .os && r.bdTranspose then colsDefault p x else rowsDefault p x

def dRows (x : BitVec 64) : Nat :=
  if currentDataflow df r = .ws && r.bdTranspose then colsDefault p x else rowsDefault p x

def aGarbage (x : BitVec 64) : Bool := (LocalAddr.ofWord p.geometry x).isGarbage p.geometry

/-- An array for the weight-stationary dataflow alone can do without B. -/
def bGarbage (x : BitVec 64) : Bool :=
  (df = .ws && hardcodeDToGarbageAddr) || (LocalAddr.ofWord p.geometry x).isGarbage p.geometry

def dGarbage (x : BitVec 64) : Bool :=
  (df = .os && hardcodeDToGarbageAddr) || (LocalAddr.ofWord p.geometry x).isGarbage p.geometry

/-- `total_rows` while a compute is fed.  `noD` says that no D is fed at the same time: there is no next
preload, or its D is garbage. -/
def totalRows (c : Cmd) (noD : Bool) : Nat :=
  if currentDataflow df r = .ws && noD && !aShouldBeFedIntoTransposer df r &&
      !bShouldBeFedIntoTransposer df r && !dShouldBeFedIntoTransposer df r then
    let rowsA := if aGarbage p c.rs1 then 1 else aRows p r c.rs1
    let rowsB := if bGarbage p df hardcodeDToGarbageAddr c.rs2 then 1 else bRows p df r c.rs2
    max (max rowsA rowsB) 4 % 2 ^ log2Up (p.dim + 1)
  else p.dim

structure Fire where
  counter : Nat
  offset : Nat

/-- The counter after a row, and the offset `a_addr_offset`. -/
def Fire.next (stride total : Nat) (x : Fire) : Fire where
  counter := wrappingAdd (log2Up (p.dim + 1)) x.counter 1 total true % 2 ^ log2Up p.dim
  offset := if x.counter = total - 1 then 0 else (x.offset + stride) % 2 ^ (16 + log2Up p.dim)

/-- The counter and the offset at each of the `total` rows. -/
def fires (stride total : Nat) : List Fire :=
  (List.range total).map fun n => (Fire.next p stride total)^[n] ⟨0, 0⟩

/-- The row that is read at an address: an accumulator row only if the array reads the accumulator. -/
def readRow (a : LocalAddr) : Option LocalRow :=
  if p.exReadFromAcc && a.isAccAddr then some ⟨true, a.fullAccAddr p.geometry⟩
  else if p.exReadFromSpad then some ⟨false, a.fullSpAddr p.geometry⟩
  else none

def writeRow (a : LocalAddr) : Option LocalRow :=
  if a.isAccAddr then if p.exWriteToAcc then some ⟨true, a.fullAccAddr p.geometry⟩ else none
  else if p.exWriteToSpad then some ⟨false, a.fullSpAddr p.geometry⟩
  else none

def aReads (c : Cmd) (noD : Bool) : List LocalRow :=
  if aGarbage p c.rs1 then []
  else (fires p r.aAddrStride (totalRows p df hardcodeDToGarbageAddr r c noD)).filterMap fun x =>
    if x.counter < aRows p r c.rs1 then
      readRow p ((LocalAddr.ofWord p.geometry c.rs1).add p.geometry x.offset)
    else none

def bReads (c : Cmd) (noD : Bool) : List LocalRow :=
  if bGarbage p df hardcodeDToGarbageAddr c.rs2 then []
  else (fires p 0 (totalRows p df hardcodeDToGarbageAddr r c noD)).filterMap fun x =>
    if x.counter < bRows p df r c.rs2 then
      readRow p ((LocalAddr.ofWord p.geometry c.rs2).add p.geometry x.counter)
    else none

/-- A D that is not garbage is fed with `total_rows` being the block size. -/
def dReads (c : Cmd) : List LocalRow :=
  if dGarbage p df hardcodeDToGarbageAddr c.rs1 then []
  else (fires p 0 p.dim).filterMap fun x =>
    if p.dim - 1 - x.counter < dRows p df r c.rs1 then
      readRow p ((LocalAddr.ofWord p.geometry c.rs1).add p.geometry (p.dim - 1 - x.counter))
    else none

/-- `w_address` of the row with this output counter. -/
def wAddress (c : LocalAddr) (total counter : Nat) : LocalAddr :=
  match currentDataflow df r with
  | .ws => c.add p.geometry (counter * r.cAddrStride)
  | .os => c.add p.geometry
      ((total - 1 + 2 ^ (16 + log2Up p.dim) - counter * r.cAddrStride) % 2 ^ (16 + log2Up p.dim))

def writeThisRow (cRows total counter : Nat) : Bool :=
  match currentDataflow df r with
  | .ws => counter < cRows
  | .os => total - 1 - counter < cRows

/-- The rows that the results of a compute are written to; the preload before it names them. -/
def cWrites (preload compute : Cmd) (noD : Bool) : List LocalRow :=
  let c := LocalAddr.ofWord p.geometry preload.rs2
  let total := totalRows p df hardcodeDToGarbageAddr r compute noD
  if c.isGarbage p.geometry then []
  else (fires p 0 total).filterMap fun x =>
    if writeThisRow df r (rowsDefault p preload.rs2) total x.counter then
      writeRow p (wAddress p df r c total x.counter)
    else none

/-- `garbage_addr` in place of the address of an operand. -/
def withGarbageAddr (x : BitVec 64) : BitVec 64 := x ||| 0xFFFFFFFF

/-- The pairs that the preload unroller makes of a pair.  Its first compute keeps its operands. -/
def unroll (c : Pair p) : List (Cmd × Cmd) :=
  if r.bTransposedAndWs && c.compute.funct = .computeAndFlip then
    [({ c.preload with rs2 := withGarbageAddr c.preload.rs2 },
      { c.compute with funct := .computeAndStay }),
     ({ c.preload with rs1 := withGarbageAddr c.preload.rs1 }, c.compute)]
  else [(c.preload, c.compute)]

def rowsUsed (c : Pair p) (noD : Bool) : List LocalRow :=
  (unroll p r c).flatMap fun x =>
    dReads p df hardcodeDToGarbageAddr r x.1 ++ aReads p df hardcodeDToGarbageAddr r x.2 noD ++
      bReads p df hardcodeDToGarbageAddr r x.2 noD ++
      cWrites p df hardcodeDToGarbageAddr r x.1 x.2 noD

end Controller

end Gemmini.Execute
