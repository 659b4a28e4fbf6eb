import Gemmini.Lib.Odometer
import Gemmini.LocalAddr

/-!
# The units that unroll a matrix multiplication

`LoopMatmul.scala`: three load units, the execute unit and two store units each hold the request for one
loop and count through its blocks.  For every unit, its request, the command at its counters, and how
they step.
-/

namespace Gemmini.LoopMatmul

open Odometer (floorAdd)

def wire (bits : ℕ) (x : ℤ) : ℕ := (x % 2 ^ bits).toNat

/-- The parameters of `LoopMatmul`; the two memory sizes come from the geometry. -/
structure Params where
  geometry : Geometry
  blockSize : ℕ
  coreMaxAddrBits : ℕ
  inputW : ℕ
  accW : ℕ
  dmaMaxBytes : ℕ
  mvinRowsBits : ℕ
  mvinColsBits : ℕ
  mvoutRowsBits : ℕ
  mvoutColsBits : ℕ

namespace Params

variable (p : Params)

def maxAddr : ℕ := p.geometry.spRows
def maxAccAddr : ℕ := p.geometry.accRows

def maxAllAddr : ℕ := max p.maxAddr p.maxAccAddr

def maxBlockLen : ℕ := max (p.dmaMaxBytes / (p.blockSize * p.inputW / 8)) 1
def maxBlockLenAcc : ℕ := max (p.dmaMaxBytes / (p.blockSize * p.accW / 8)) 1

def padBits : ℕ := log2Up p.blockSize

end Params

structure Operand where
  rows : ℕ
  cols : ℕ
  addr : LocalAddr
  deriving DecidableEq, Repr

inductive OutCmd
  /-- `LOAD_CMD`, `LOAD2_CMD` and `LOAD3_CMD` by their state. -/
  | load (state dram : ℕ) (dst : Operand)
  | preload (src dst : Operand)
  | compute (flip : Bool) (a b : Operand)
  | store (dram : ℕ) (src : Operand)
  | storeSpad (dst : LocalAddr) (src : Operand)
  | configNorm (statsId : ℕ)
  deriving DecidableEq, Repr

/-! ### Local addresses -/

def castToSpAddr (g : Geometry) (x : ℤ) : LocalAddr where
  isAccAddr := false
  accumulate := false
  readFullAccRow := false
  normCmd := wire 29 x / 2 ^ 26
  garbageBit := (wire 32 x).testBit g.maxAddrBits
  data := wire g.maxAddrBits x

def castToAccAddr (g : Geometry) (x : ℤ) (accumulate readFull : Bool) : LocalAddr :=
  { castToSpAddr g x with isAccAddr := true, accumulate := accumulate, readFullAccRow := readFull }

def garbageAddr (g : Geometry) : LocalAddr where
  isAccAddr := true
  accumulate := true
  readFullAccRow := true
  normCmd := 0
  garbageBit := true
  data := 2 ^ g.maxAddrBits - 1

/-! ### Sizes of a transfer -/

section Sizes

variable (p : Params)

/-- `max_blocks`: as many blocks as there are, up to the longest transfer. -/
def maxBlocksOf (len dim : ℕ) : ℕ := if dim ≤ len then dim else len

/-- `blocks`: the sum is on 16 bits. -/
def blocksOf (maxBlocks col maxCol : ℕ) : ℕ :=
  if (col + maxBlocks) % 2 ^ 16 ≤ maxCol then maxBlocks else wire 16 (maxCol - col)

/-- `cols`: the pad comes off the last block. -/
def colsOf (bits blocks col maxCol pad : ℕ) : ℕ :=
  wire bits (blocks * p.blockSize - if (col + blocks) % 2 ^ 16 ≥ maxCol then (pad : ℤ) else 0)

/-- `rows`: the pad comes off the last row of blocks. -/
def rowsOf (bits row maxRow pad : ℕ) : ℕ :=
  wire bits (p.blockSize - if row = wire 16 (maxRow - 1) then (pad : ℤ) else 0)

/-- A main memory address: the offset is cut to 32 bits, `castDramOffset`, but keeps the width of its
product, so that only the register of the command cuts the sum. -/
def dramAddrOf (base offset : ℕ) : ℕ := (base + offset % 2 ^ 32) % 2 ^ max p.coreMaxAddrBits 64

variable {p} in
theorem dramAddrOf_eq {base offset : ℕ} (small : offset < 2 ^ 32)
    (fits : base + offset < 2 ^ p.coreMaxAddrBits) : dramAddrOf p base offset = base + offset := by
  rw [dramAddrOf, Nat.mod_eq_of_lt small]
  exact Nat.mod_eq_of_lt (fits.trans_le (Nat.pow_le_pow_right (by decide) (le_max_left _ _)))

end Sizes

section Blocks

variable {len dim col col' : ℕ}

theorem maxBlocksOf_pos (hlen : 0 < len) (hdim : 0 < dim) : 0 < maxBlocksOf len dim := by
  unfold maxBlocksOf
  split <;> assumption

/-- A transfer reaches as far as the block of columns that its counter is at, also where the 16-bit
sum overflows. -/
theorem blocksOf_iff (hdim : dim < 2 ^ 16) (pos : 0 < maxBlocksOf len dim)
    (dvd : maxBlocksOf len dim ∣ col) (hcol : col < dim) (hcol' : col' < dim) :
    (col ≤ col' ∧ col' < col + blocksOf (maxBlocksOf len dim) col dim) ↔
      col' / maxBlocksOf len dim = col / maxBlocksOf len dim := by
  have le : maxBlocksOf len dim ≤ dim := by
    unfold maxBlocksOf
    split <;> omega
  generalize maxBlocksOf len dim = m at pos dvd le ⊢
  have reach : col' < col + blocksOf m col dim ↔ col' < col + m := by
    unfold blocksOf
    split
    · rfl
    · rename_i long
      have noWrap : col + m < 2 ^ 16 := by omega
      rw [Nat.mod_eq_of_lt noWrap] at long
      have : wire 16 (dim - col) = dim - col := by
        unfold wire
        omega
      rw [this]
      omega
  rw [reach]
  obtain ⟨q, rfl⟩ := dvd
  rw [Nat.mul_div_cancel_left q pos, Nat.div_eq_iff pos, Nat.mul_comm q m]
  omega

end Blocks

/-! ### LdA -/

/-- `LoopMatmulLdAReq`. -/
structure LdAReq where
  maxI : ℕ
  maxK : ℕ
  padI : ℕ
  padK : ℕ
  dramAddr : ℕ
  dramStride : ℕ
  transpose : Bool
  addrStart : ℕ
  isResadd : Bool
  deriving DecidableEq, Repr

namespace LdAReq

variable (p : Params) (req : LdAReq) (i k : ℕ)

def row : ℕ := if req.transpose then k else i
def col : ℕ := if req.transpose then i else k
def maxRow : ℕ := if req.transpose then req.maxK else req.maxI
def maxCol : ℕ := if req.transpose then req.maxI else req.maxK
def rowPad : ℕ := if req.transpose then req.padK else req.padI
def colPad : ℕ := if req.transpose then req.padI else req.padK
def maxBlocks : ℕ := maxBlocksOf p.maxBlockLen req.maxCol
def blocks : ℕ := blocksOf (req.maxBlocks p) (req.col i k) req.maxCol

def iBlocks : ℕ := if req.transpose then req.maxBlocks p else 1
def kBlocks : ℕ := if req.transpose then 1 else req.maxBlocks p

/-- The counters as a pair, `i` being the inner one. -/
def counters : Odometer.Pair := ⟨i, k, req.iBlocks p, req.kBlocks p⟩

/-- The transfer at the counters `i`, `k` writes the block `(i', k')` of A. -/
def Writes (i' k' : ℕ) : Prop :=
  req.row i' k' = req.row i k ∧ req.col i k ≤ req.col i' k' ∧
    req.col i' k' < req.col i k + req.blocks p i k

/-- `mvin_cmd`. -/
def cmd : OutCmd :=
  let spAddr : ℤ := req.addrStart + (req.row i k * req.maxCol + req.col i k) * p.blockSize
  .load 0
    (dramAddrOf p req.dramAddr
      ((req.row i k * req.dramStride + req.col i k) * p.blockSize * (p.inputW / 8)))
    { rows := rowsOf p p.mvinRowsBits (req.row i k) req.maxRow req.rowPad
      cols := colsOf p p.mvinColsBits (req.blocks p i k) (req.col i k) req.maxCol req.colPad
      addr := if req.isResadd then castToAccAddr p.geometry spAddr false false
        else castToSpAddr p.geometry spAddr }

end LdAReq

/-! ### LdB -/

/-- `LoopMatmulLdBReq`. -/
structure LdBReq where
  maxK : ℕ
  maxJ : ℕ
  padK : ℕ
  padJ : ℕ
  dramAddr : ℕ
  dramStride : ℕ
  transpose : Bool
  addrEnd : ℕ
  isResadd : Bool
  deriving DecidableEq, Repr

namespace LdBReq

variable (p : Params) (req : LdBReq) (k j : ℕ)

def row : ℕ := if req.transpose then j else k
def col : ℕ := if req.transpose then k else j
def maxRow : ℕ := if req.transpose then req.maxJ else req.maxK
def maxCol : ℕ := if req.transpose then req.maxK else req.maxJ
def rowPad : ℕ := if req.transpose then req.padJ else req.padK
def colPad : ℕ := if req.transpose then req.padK else req.padJ
def maxBlocks : ℕ := maxBlocksOf p.maxBlockLen req.maxCol
def blocks : ℕ := blocksOf (req.maxBlocks p) (req.col k j) req.maxCol
def jBlocks : ℕ := if req.transpose then 1 else req.maxBlocks p
def kBlocks : ℕ := if req.transpose then req.maxBlocks p else 1

/-- The counters as a pair, `j` being the inner one. -/
def counters : Odometer.Pair := ⟨j, k, req.jBlocks p, req.kBlocks p⟩

/-- The transfer at the counters `k`, `j` writes the block `(k', j')` of B. -/
def Writes (k' j' : ℕ) : Prop :=
  req.row k' j' = req.row k j ∧ req.col k j ≤ req.col k' j' ∧
    req.col k' j' < req.col k j + req.blocks p k j

/-- `mvin_cmd`.  The row pad is taken off where the number of rows of blocks equals itself less one,
which it never does. -/
def cmd : OutCmd :=
  let start : ℤ :=
    if req.isResadd then req.addrEnd else req.addrEnd - req.maxK * req.maxJ * p.blockSize
  let spAddr : ℤ := start + (req.row k j * req.maxCol + req.col k j) * p.blockSize
  .load 1
    (dramAddrOf p req.dramAddr
      ((req.row k j * req.dramStride + req.col k j) * p.blockSize * (p.inputW / 8)))
    { rows := rowsOf p p.mvinRowsBits req.maxRow req.maxRow req.rowPad
      cols := colsOf p p.mvinColsBits (req.blocks p k j) (req.col k j) req.maxCol req.colPad
      addr := if req.isResadd then castToAccAddr p.geometry spAddr true false
        else castToSpAddr p.geometry spAddr }

end LdBReq

/-! ### LdD -/

/-- `LoopMatmulLdDReq`. -/
structure LdDReq where
  maxJ : ℕ
  maxI : ℕ
  padJ : ℕ
  padI : ℕ
  dramAddr : ℕ
  dramStride : ℕ
  lowD : Bool
  addrStart : ℕ
  deriving DecidableEq, Repr

namespace LdDReq

variable (p : Params) (req : LdDReq) (i j : ℕ)

def maxBlocks : ℕ := maxBlocksOf (if req.lowD then p.maxBlockLen else p.maxBlockLenAcc) req.maxJ
def blocks : ℕ := blocksOf (req.maxBlocks p) j req.maxJ

/-- The counters as a pair, `i` being the inner one. -/
def counters : Odometer.Pair := ⟨i, j, 1, req.maxBlocks p⟩

/-- The transfer at the counters `i`, `j` writes the block `(i', j')` of D. -/
def Writes (i' j' : ℕ) : Prop := i' = i ∧ j ≤ j' ∧ j' < j + req.blocks p j

/-- `mvin_cmd`. -/
def cmd : OutCmd :=
  .load 2
    (dramAddrOf p req.dramAddr
      ((i * req.dramStride + j) * p.blockSize * ((if req.lowD then p.inputW else p.accW) / 8)))
    { rows := rowsOf p p.mvinRowsBits i req.maxI req.padI
      cols := colsOf p p.mvinColsBits (req.blocks p j) j req.maxJ req.padJ
      addr := castToAccAddr p.geometry (req.addrStart + (i * req.maxJ + j) * p.blockSize) false
        false }

end LdDReq

/-! ### Execute -/

/-- `LoopMatmulExecuteReq`. -/
structure ExecuteReq where
  maxJ : ℕ
  maxK : ℕ
  maxI : ℕ
  padJ : ℕ
  padK : ℕ
  padI : ℕ
  aTranspose : Bool
  bTranspose : Bool
  accumulate : Bool
  aAddrStart : ℕ
  bAddrEnd : ℕ
  cAddrStart : ℕ
  skip : Bool
  deriving DecidableEq, Repr

structure Block where
  i : ℕ
  j : ℕ
  k : ℕ
  deriving DecidableEq, Repr

namespace ExecuteReq

variable (p : Params) (req : ExecuteReq) (b : Block)

def bOperand : Operand where
  rows := rowsOf p p.mvinRowsBits b.k req.maxK req.padK
  cols := rowsOf p p.mvinColsBits b.j req.maxJ req.padJ
  addr :=
    let row := if req.bTranspose then b.j else b.k
    let col := if req.bTranspose then b.k else b.j
    let maxCol := if req.bTranspose then req.maxK else req.maxJ
    if b.i = 0 then
      castToSpAddr p.geometry
        (req.bAddrEnd - req.maxK * req.maxJ * p.blockSize + (row * maxCol + col) * p.blockSize)
    else garbageAddr p.geometry

def cOperand : Operand where
  rows := rowsOf p p.mvoutRowsBits b.i req.maxI req.padI
  cols := rowsOf p p.mvoutColsBits b.j req.maxJ req.padJ
  addr := castToAccAddr p.geometry (req.cAddrStart + (b.i * req.maxJ + b.j) * p.blockSize)
    (req.accumulate || b.k != 0) false

def aOperand : Operand where
  rows := rowsOf p p.mvinRowsBits b.i req.maxI req.padI
  cols := rowsOf p p.mvinColsBits b.k req.maxK req.padK
  addr :=
    let row := if req.aTranspose then b.k else b.i
    let col := if req.aTranspose then b.i else b.k
    let maxCol := if req.aTranspose then req.maxI else req.maxK
    castToSpAddr p.geometry (req.aAddrStart + (row * maxCol + col) * p.blockSize)

def preCmd : OutCmd := .preload (req.bOperand p b) (req.cOperand p b)

def compCmd : OutCmd :=
  .compute (b.i == 0) (req.aOperand p b) ⟨p.blockSize, p.blockSize, garbageAddr p.geometry⟩

/-- One step of the counters: `i`, then `j`, then `k`. -/
def next : Block :=
  let i := floorAdd 16 b.i 1 req.maxI
  let j := if i = 0 then floorAdd 16 b.j 1 req.maxJ else b.j
  let k := if i = 0 ∧ j = 0 then floorAdd 16 b.k 1 req.maxK else b.k
  ⟨i, j, k⟩

def wraps : Bool := req.next b == ⟨0, 0, 0⟩

end ExecuteReq

/-! ### StC -/

/-- `LoopMatmulStCReq`. -/
structure StCReq where
  maxK : ℕ
  maxJ : ℕ
  maxI : ℕ
  padJ : ℕ
  padI : ℕ
  dramAddr : ℕ
  dramStride : ℕ
  fullC : Bool
  act : ℕ
  addrStart : ℕ
  isResadd : Bool
  deriving DecidableEq, Repr

/-- `Activation.LAYERNORM`. -/
def layernorm : ℕ := 2

/-- `Activation.SOFTMAX`. -/
def softmax : ℕ := 4

def normStatIds : ℕ := 2

/-- `ln_norm_cmds` and `sm_norm_cmds`: the command for the last group of blocks, or for an earlier
one. -/
def normCmd (act cmd : ℕ) (last : Bool) : ℕ :=
  if act = layernorm then
    match cmd with
    | 0 => if last then 2 else 1
    | 1 => if last then 4 else 3
    | _ => 0
  else
    match cmd with
    | 0 => 5
    | 1 => if last then 7 else 6
    | _ => 0

inductive StCPhase
  | st
  | lnConfig
  | lnSt
  deriving DecidableEq, Repr

structure StCCounters where
  j : ℕ
  i : ℕ
  lnRow : ℕ
  lnCmd : ℕ
  lnStatId : ℕ
  deriving DecidableEq, Repr

namespace StCReq

variable (p : Params) (req : StCReq) (c : StCCounters)

def normalizes : Bool := req.act == layernorm || req.act == softmax

def maxBlocks : ℕ := if req.fullC then 1 else maxBlocksOf p.maxBlockLen req.maxJ
def blocks : ℕ := blocksOf (req.maxBlocks p) c.j req.maxJ
def cols : ℕ := colsOf p p.mvoutColsBits (req.blocks p c) c.j req.maxJ req.padJ
def rows : ℕ := rowsOf p p.mvoutRowsBits c.i req.maxI req.padI

/-- The counters as a pair, `i` being the inner one. -/
def counters : Odometer.Pair := ⟨c.i, c.j, 1, req.maxBlocks p⟩

def mvoutCmd : OutCmd :=
  .store
    (dramAddrOf p req.dramAddr
      ((c.i * req.dramStride + c.j) * p.blockSize * ((if req.fullC then p.accW else p.inputW) / 8)))
    { rows := req.rows p c
      cols := req.cols p c
      addr := castToAccAddr p.geometry (req.addrStart + (c.i * req.maxJ + c.j) * p.blockSize) false
        req.fullC }

def lnStatIds : ℕ :=
  let left := wire 17 (req.rows p c - c.lnRow)
  if left > normStatIds then normStatIds else left

def lnMvoutCmd : OutCmd :=
  let r := c.lnRow + c.lnStatId
  .store
    (dramAddrOf p req.dramAddr
      (((c.i * req.dramStride + c.j) * p.blockSize + r * req.dramStride) * (p.inputW / 8)))
    { rows := 1
      cols := req.cols p c
      addr :=
        { castToAccAddr p.geometry (req.addrStart + (c.i * req.maxJ + c.j) * p.blockSize + r) false
            req.fullC with
          normCmd := normCmd req.act c.lnCmd (c.j + req.maxBlocks p ≥ req.maxJ) } }

def stNext : StCCounters :=
  let q := (req.counters p c).next 16 req.maxI req.maxJ
  { c with i := q.x, j := q.y }

def lnNext : StCCounters :=
  let j := floorAdd 16 c.j (req.maxBlocks p) req.maxJ
  let statId := if j = 0 then floorAdd 17 c.lnStatId 1 (req.lnStatIds p c) else c.lnStatId
  let cmd := if j = 0 ∧ statId = 0 then floorAdd 16 c.lnCmd 1 3 else c.lnCmd
  let row := if j = 0 ∧ statId = 0 ∧ cmd = 0 then floorAdd 16 c.lnRow normStatIds (req.rows p c)
    else c.lnRow
  let i := if j = 0 ∧ statId = 0 ∧ cmd = 0 ∧ row = 0 then floorAdd 16 c.i 1 req.maxI else c.i
  ⟨j, i, row, cmd, statId⟩

end StCReq

/-! ### StCSpad -/

/-- `LoopMatmulStCSpadReq`. -/
structure StCSpadReq where
  maxK : ℕ
  maxJ : ℕ
  maxI : ℕ
  padJ : ℕ
  padI : ℕ
  dstAddr : ℕ
  srcAddr : ℕ
  fullC : Bool
  act : ℕ
  isResadd : Bool
  deriving DecidableEq, Repr

namespace StCSpadReq

variable (p : Params) (req : StCSpadReq) (i j : ℕ)

/-- The unit is built with `max_block_len` 1. -/
def maxBlocks : ℕ := if req.fullC then 1 else maxBlocksOf 1 req.maxJ
def blocks : ℕ := blocksOf req.maxBlocks j req.maxJ

/-- The counters as a pair, `i` being the inner one. -/
def counters : Odometer.Pair := ⟨i, j, 1, req.maxBlocks⟩

def mvoutCmd : OutCmd :=
  let offset : ℤ := (i * req.maxJ + j) * p.blockSize
  .storeSpad (castToSpAddr p.geometry (req.dstAddr + offset))
    { rows := rowsOf p p.mvoutRowsBits i req.maxI req.padI
      cols := colsOf p p.mvoutColsBits (req.blocks j) j req.maxJ req.padJ
      addr := castToAccAddr p.geometry (req.srcAddr + offset) false req.fullC }

end StCSpadReq

end Gemmini.LoopMatmul
