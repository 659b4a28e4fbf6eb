import Gemmini.Lib.Loop

/-!
# The functional model

`libgemmini/gemmini.cc`: what each command does to the scratchpad, the accumulator and main memory.
Elements are bytes, accumulator values 32-bit words, scale factors the bits of a `float`; the
conversions are parameters.  Addresses in main memory are natural numbers.
-/

namespace Gemmini.Simulator

/-- The sizes in `gemmini_params.h`. -/
structure Hw where
  dim : ℕ
  bankNum : ℕ
  bankRows : ℕ
  accRows : ℕ
  normStatIds : ℕ
  dim_pos : 0 < dim
  dim_lt : dim < 2 ^ 16
  spad_le : bankNum * bankRows ≤ 2 ^ 29
  acc_le : accRows ≤ 2 ^ 26
  normStatIds_pos : 0 < normStatIds

theorem sixteen_pos : 0 < 16 := by decide

theorem sixteen_lt : 16 < 2 ^ 16 := by decide

theorem four_banks_le : 4 * 4096 ≤ 2 ^ 29 := by decide

theorem acc_1024_le : 1024 ≤ 2 ^ 26 := by decide

theorem four_pos : 0 < 4 := by decide

theorem four_lt : 4 < 2 ^ 16 := by decide

theorem two_banks_le : 2 * 16 ≤ 2 ^ 29 := by decide

theorem acc_32_le : 32 ≤ 2 ^ 26 := by decide

/-- The generated sizes; `NORM_STAT_IDS` is not among them, so that `libgemmini/gemmini.h` has its own. -/
def gemminiParams : Hw :=
  ⟨16, 4, 4096, 1024, 4, sixteen_pos, sixteen_lt, four_banks_le, acc_1024_le, four_pos⟩

def fourHw : Hw :=
  ⟨4, 2, 16, 32, 2, four_pos, four_lt, two_banks_le, acc_32_le, Nat.two_pos⟩

def Hw.spadRows (hw : Hw) : ℕ := hw.bankNum * hw.bankRows

/-- The conversions that involve floating-point numbers. -/
structure Scaling where
  mvinScale : BitVec 8 → BitVec 32 → BitVec 8
  accScale : BitVec 32 → BitVec 32 → BitVec 32
  /-- the product of an `acc_t` and an `acc_scale_t` -/
  mulScale : BitVec 32 → BitVec 32 → BitVec 32
  /-- the inverse of the square root of a variance -/
  invStddev : BitVec 32 → BitVec 32
  /-- `127.0 / norm_sum` -/
  invSumExp : BitVec 32 → BitVec 32

def saturate (x : BitVec 32) : BitVec 8 := BitVec.ofInt 8 (max (-128) (min 127 x.toInt))

theorem saturate_signExtend (x : BitVec 8) : saturate (x.signExtend 32) = x := by
  have low := x.le_toInt
  have high := x.toInt_lt
  rw [saturate, BitVec.toInt_signExtend_of_le (by norm_num), min_eq_right (by omega), max_eq_right (by omega),
    BitVec.ofInt_toInt]

/-- Bits `lo` to `lo + len - 1`. -/
def field (x lo len : ℕ) : ℕ := x / 2 ^ lo % 2 ^ len

def flag (x i : ℕ) : Bool := field x i 1 = 1

def garbageAddr : ℕ := 2 ^ 32 - 1

inductive Mode
  | os
  | ws
  deriving DecidableEq, Repr

inductive Activation
  | none
  | relu
  | layernorm
  | igelu
  | softmax
  deriving DecidableEq, Repr

def Activation.toNat : Activation → ℕ
  | .none => 0
  | .relu => 1
  | .layernorm => 2
  | .igelu => 3
  | .softmax => 4

inductive NormCmd
  | reset
  | sum
  | mean
  | variance
  | invStddev
  | max
  | sumExp
  | invSumExp
  deriving DecidableEq, Repr

def NormCmd.decode : ℕ → NormCmd
  | 0 => .reset
  | 1 => .sum
  | 2 => .mean
  | 3 => .variance
  | 4 => .invStddev
  | 5 => .max
  | 6 => .sumExp
  | _ => .invSumExp

/-! ### State -/

/-- What `config_ld` sets for one of the three kinds of `mvin`. -/
structure Load where
  stride : ℕ
  blockStride : ℕ
  shrunk : Bool
  scale : BitVec 32
  pixelsPerRow : ℕ

structure Pool where
  stride : ℕ
  size : ℕ
  outDim : ℕ
  porows : ℕ
  pocols : ℕ
  orows : ℕ
  ocols : ℕ
  lpad : ℕ
  upad : ℕ

/-- The registers of `loop_ws`. -/
structure LoopWs where
  I : ℕ
  J : ℕ
  K : ℕ
  padI : ℕ
  padJ : ℕ
  padK : ℕ
  A : ℕ
  B : ℕ
  D : ℕ
  C : ℕ
  strideA : ℕ
  strideB : ℕ
  strideD : ℕ
  strideC : ℕ

/-- The statistics kept under one `norm_stat_id`. -/
structure Norm where
  sum : BitVec 32
  count : BitVec 32
  mean : BitVec 32
  max : BitVec 32
  runningMax : BitVec 32
  invStddev : BitVec 32
  invSumExp : BitVec 32
  reset : Bool

/-- `gemmini_state_t` with main memory.  `ok` is cleared where the program would stop: an access out of
range, a failed assertion or an `exit`. -/
structure State where
  dram : ℕ → BitVec 8
  spad : ℕ × ℕ → BitVec 8
  accumulator : ℕ × ℕ → BitVec 32
  pe : ℕ → ℕ → BitVec 32
  outputAddr : ℕ
  preloadAddr : ℕ
  preloadCols : ℕ
  preloadRows : ℕ
  outputCols : ℕ
  outputRows : ℕ
  mode : Mode
  sysAct : Activation
  accAct : Activation
  sysShift : ℕ
  igeluQb : BitVec 32
  igeluQc : BitVec 32
  qln2 : BitVec 32
  qln2Inv : BitVec 32
  load : ℕ → Load
  storeStride : ℕ
  accShift : BitVec 32
  cStride : ℕ
  aStride : ℕ
  pool : Pool
  aTranspose : Bool
  bTranspose : Bool
  loopWs : LoopWs
  normStatId : ℕ
  norm : ℕ → Norm
  ok : Bool

/-- The program stops unless `c` holds. -/
def State.require (s : State) (c : Prop) [Decidable c] : State := { s with ok := s.ok && decide c }

/-- `read_from_dram<acc_t>` -/
def readAcc (dram : ℕ → BitVec 8) (addr : ℕ) : BitVec 32 :=
  dram (addr + 3) ++ dram (addr + 2) ++ dram (addr + 1) ++ dram addr

/-- `write_to_dram<acc_t>` -/
def writeAcc (addr : ℕ) (x : BitVec 32) (dram : ℕ → BitVec 8) : ℕ → BitVec 8 :=
  forRange 4 (fun byte => modify (addr + byte) fun _ => (x >>> (8 * byte)).setWidth 8) dram

namespace State

variable (hw : Hw) (sc : Scaling) (s : State)

/-! ### `mvin` -/

/-- The loops of `mvin` over rows, columns and pixels; `f` changes one cell. -/
def mvinCells {α : Type} (base rows cols blockStride pixels : ℕ) (f : ℕ → ℕ → α → α)
    (m : ℕ × ℕ → α) : ℕ × ℕ → α :=
  forRange rows (fun row => forRange cols fun col =>
    let spadRow := base + row + col / hw.dim * blockStride
    forRange (min pixels (spadRow + 1)) fun pixel =>
      modify (spadRow - pixel, col % hw.dim + pixel * cols) (f row col)) m

/-- All cells of `mvin` exist. -/
def MvinFits (limit base rows cols blockStride pixels : ℕ) : Prop :=
  ∀ row < rows, ∀ col < cols, ∀ pixel < min pixels (base + row + col / hw.dim * blockStride + 1),
    base + row + col / hw.dim * blockStride - pixel < limit ∧
      col % hw.dim + pixel * cols < hw.dim

instance (limit base rows cols blockStride pixels : ℕ) :
    Decidable (MvinFits hw limit base rows cols blockStride pixels) := by
  unfold MvinFits
  infer_instance

def mvinScale (value : BitVec 8) (scale : BitVec 32) : BitVec 8 :=
  saturate ((sc.mvinScale value scale).signExtend 32)

/-- The value that `mvin` moves to the accumulator. -/
def mvinAccValue (dramAddr id row col : ℕ) : BitVec 32 :=
  let l := s.load id
  let rowAddr := dramAddr + row * l.stride
  if dramAddr = 0 then 0
  else if l.shrunk then (mvinScale sc (s.dram (rowAddr + col)) l.scale).signExtend 32
  else readAcc s.dram (rowAddr + col * 4)

/-- The value that `mvin` moves to the scratchpad. -/
def mvinValue (dramAddr id row col : ℕ) : BitVec 8 :=
  let l := s.load id
  if dramAddr = 0 then 0 else mvinScale sc (s.dram (dramAddr + row * l.stride + col)) l.scale

def mvin (dramAddr spAddr id : ℕ) : State :=
  let base := field spAddr 0 29
  let cols := field spAddr 32 16
  let rows := field spAddr 48 16
  let l := s.load id
  if flag spAddr 31 then
    { s with
      accumulator := mvinCells hw base rows cols l.blockStride l.pixelsPerRow (fun row col old =>
        let value := s.mvinAccValue sc dramAddr id row col
        if flag spAddr 30 then old + value else value) s.accumulator }.require
      (MvinFits hw hw.accRows base rows cols l.blockStride l.pixelsPerRow)
  else
    { s with
      spad := mvinCells hw base rows cols l.blockStride l.pixelsPerRow (fun row col _ =>
        s.mvinValue sc dramAddr id row col) s.spad }.require
      (MvinFits hw hw.spadRows base rows cols l.blockStride l.pixelsPerRow)

/-! ### Activations and normalization -/

def accScale (value : BitVec 32) (scale : BitVec 32) : BitVec 8 := saturate (sc.accScale value scale)

def applyActivation (value : BitVec 8) (act : Activation) : BitVec 8 :=
  if act = .relu then if 0 < value.toInt then value else 0 else value

def applyIgelu (q qb qc : BitVec 32) : BitVec 32 :=
  let sign : BitVec 32 := if q.toInt < 0 then -1 else 1
  let abs : BitVec 32 := if q.toInt < 0 then -q else q
  let clipped := if abs.toInt > (-qb).toInt then -qb else abs
  q * (sign * ((clipped + qb) * (clipped + qb) + qc) + qc)

def applyIexp (q qb qc qln2 qln2Inv : BitVec 32) : BitVec 32 :=
  let z := (-q * qln2Inv).sshiftRight 16
  let qp := q + z * qln2
  ((qp + qb) * (qp + qb) + qc).sshiftRight z.toNat

def applyPreActivationAcc (value : BitVec 32) : BitVec 32 :=
  let stats := s.norm s.normStatId
  match s.accAct with
  | .igelu => applyIgelu value s.igeluQb s.igeluQc
  | .layernorm => sc.mulScale (value - stats.mean) stats.invStddev
  | .softmax => (accScale sc (applyIexp (value - stats.max) s.igeluQb s.igeluQc s.qln2 s.qln2Inv)
      stats.invSumExp).signExtend 32
  | _ => value

/-- `apply_norm` on the statistics, for the elements `x i` with `i < len`. -/
def applyNorm (stats : Norm) (x : ℕ → BitVec 32) (len : ℕ) (cmd : NormCmd) : Norm :=
  let cleared := if stats.reset then
      { stats with sum := 0, count := 0, runningMax := BitVec.ofInt 32 (-2147483648) }
    else stats
  let restarted := { cleared with
    reset := decide (cmd = .reset ∨ cmd = .mean ∨ cmd = .invStddev) }
  match cmd with
  | .reset => restarted
  | .sum => { restarted with
      sum := forRange len (fun i sum => sum + x i) restarted.sum
      count := restarted.count + BitVec.ofNat 32 len }
  | .mean =>
    let sum := forRange len (fun i sum => sum + x i) restarted.sum
    let count := restarted.count + BitVec.ofNat 32 len
    { restarted with sum := sum, count := count, mean := sum.sdiv count }
  | .variance => { restarted with
      sum := forRange len (fun i sum => sum + (x i - restarted.mean) * (x i - restarted.mean))
        restarted.sum
      count := restarted.count + BitVec.ofNat 32 len }
  | .invStddev =>
    let sum := forRange len (fun i sum => sum + (x i - restarted.mean) * (x i - restarted.mean))
      restarted.sum
    let count := restarted.count + BitVec.ofNat 32 len
    { restarted with sum := sum, count := count, invStddev := sc.invStddev (sum.sdiv count) }
  | .max => { restarted with
      runningMax := forRange len (fun i most => if (x i).toInt > most.toInt then x i else most)
        restarted.runningMax }
  | .sumExp => { restarted with
      max := restarted.runningMax
      sum := forRange len (fun i sum => sum + applyIexp (x i - restarted.runningMax) s.igeluQb
        s.igeluQc s.qln2 s.qln2Inv) restarted.sum }
  | .invSumExp =>
    let sum := forRange len (fun i sum => sum + applyIexp (x i - restarted.runningMax) s.igeluQb
      s.igeluQc s.qln2 s.qln2Inv) restarted.sum
    { restarted with
      max := restarted.runningMax
      sum := sum
      runningMax := BitVec.ofInt 32 (-2147483648)
      invSumExp := sc.invSumExp sum }

/-- `non_terminating_norm_cmd` -/
def nonTerminating : NormCmd → NormCmd
  | .mean => .sum
  | .invStddev => .variance
  | .invSumExp => .sumExp
  | cmd => cmd

/-! ### `mvout` -/

def storedElem (value : BitVec 32) : BitVec 8 :=
  applyActivation (accScale sc (s.applyPreActivationAcc sc value) s.accShift) s.accAct

/-- The normalization command for the blocks of row `i`, and whether the row is written. -/
def mvoutNorm (base cols i : ℕ) (cmd : NormCmd) : State × Bool :=
  forRange ((cols + hw.dim - 1) / hw.dim) (fun block state =>
    let j := block * hw.dim
    let s := state.1
    let spadRow := base + block * hw.dim + i
    let len := if cols - j > hw.dim then hw.dim else cols - j
    let cmd := if j + hw.dim ≥ cols then cmd else nonTerminating cmd
    let stats := s.applyNorm sc (s.norm s.normStatId) (fun k => s.accumulator (spadRow, k)) len cmd
    ({ s with norm := modify s.normStatId (fun _ => stats) s.norm }.require (spadRow < hw.accRows),
      decide (cmd = .reset))) (s, true)

/-- One element of row `i`. -/
def mvoutElem (dramAddr base i j : ℕ) (acc full : Bool) : State :=
  let spadRow := base + j / hw.dim * hw.dim + i
  let spadCol := j % hw.dim
  let rowAddr := dramAddr + i * s.storeStride
  if acc then
    let value := s.accumulator (spadRow, spadCol)
    let dram := if full then writeAcc (rowAddr + j * 4) (s.applyPreActivationAcc sc value) s.dram
      else modify (rowAddr + j) (fun _ => s.storedElem sc value) s.dram
    { s with dram := dram }.require (spadRow < hw.accRows)
  else
    { s with dram := modify (rowAddr + j) (fun _ => s.spad (spadRow, spadCol)) s.dram }.require
      (spadRow < hw.spadRows)

/-- The largest element of the window of pooled output `(porow, pocol)` in channel `poch`. -/
def pooled (base porow pocol poch : ℕ) (acc : Bool) : BitVec 8 × Bool :=
  let p := s.pool
  forRange p.size (fun wrow => forRange p.size fun wcol best =>
    let orow : ℤ := porow * p.stride + wrow - p.upad
    let ocol : ℤ := pocol * p.stride + wcol - p.lpad
    let rowAddr := (base + orow * p.ocols + ocol).toNat
    let outside := orow < 0 ∨ ocol < 0 ∨ orow ≥ p.orows ∨ ocol ≥ p.ocols
    let elem : BitVec 8 :=
      if outside then 0
      else if acc then applyActivation (accScale sc (s.accumulator (rowAddr, poch)) s.accShift) s.accAct
      else s.spad (rowAddr, poch)
    (if elem.toInt > best.1.toInt then elem else best.1,
      best.2 && decide (outside ∨ rowAddr < (if acc then hw.accRows else hw.spadRows) ∧ poch < hw.dim)))
    (BitVec.ofInt 8 (-128), true)

def mvout (dramAddr spAddr : ℕ) : State :=
  let acc := flag spAddr 31
  let full := flag spAddr 29
  let cmd := NormCmd.decode (field spAddr 26 3)
  let base := field spAddr 0 26
  let cols := field spAddr 32 16
  let rows := field spAddr 48 16
  if s.pool.stride = 0 then
    forRange rows (fun i s =>
      let (s, shouldWrite) := s.mvoutNorm hw sc base cols i cmd
      if shouldWrite then forRange cols (fun j s => s.mvoutElem hw sc dramAddr base i j acc full) s
      else s) s
  else
    forRange s.pool.porows (fun porow => forRange s.pool.pocols fun pocol => forRange cols fun poch s =>
      let value := s.pooled hw sc base porow pocol poch acc
      let addr := dramAddr + (porow * s.pool.outDim + pocol) * s.storeStride + poch
      { s with dram := modify addr (fun _ => value.1) s.dram }.require (value.2 = true)) s

/-! ### `preload` and `compute` -/

def preload (bdAddr cAddr : ℕ) : State :=
  { s with
    preloadAddr := field bdAddr 0 32
    outputAddr := field cAddr 0 32
    preloadCols := field bdAddr 32 16
    preloadRows := field bdAddr 48 16
    outputCols := field cAddr 32 16
    outputRows := field cAddr 48 16 }

/-- The preload at the start of `compute`. -/
def loadPes : State :=
  let transpose := s.mode = .ws ∧ s.bTranspose
  { s with
    pe := fun i j =>
      if i < hw.dim ∧ j < hw.dim then
        if i < s.preloadRows ∧ j < s.preloadCols then
          if s.preloadAddr = garbageAddr then 0
          else (s.spad (if transpose then (s.preloadAddr + j, i) else (s.preloadAddr + i, j))).signExtend 32
        else 0
      else s.pe i j }.require
    (s.preloadAddr = garbageAddr ∨ field s.preloadAddr 30 2 = 0 ∧
      ∀ i < min s.preloadRows hw.dim, ∀ j < min s.preloadCols hw.dim,
        s.preloadAddr + (if transpose then j else i) < hw.spadRows)

/-- The operand A of `compute`; without one, the source leaves it unspecified. -/
def computeA (aAddr aRows aCols i k : ℕ) : BitVec 8 :=
  if aAddr = garbageAddr then 0
  else if i < aRows ∧ k < aCols then
    s.spad (if s.aTranspose then (aAddr + s.aStride * k, i) else (aAddr + s.aStride * i, k))
  else 0

/-- The operand B of `compute` in the output-stationary dataflow. -/
def computeB (bdAddr bdRows bdCols k j : ℕ) : BitVec 8 :=
  if bdAddr = garbageAddr then 0
  else if k < bdRows ∧ j < bdCols then
    s.spad (if s.bTranspose then (bdAddr + j, k) else (bdAddr + k, j))
  else 0

/-- `ROUNDING_RIGHT_SHIFT` and `sys_shift` -/
def roundingRightShift (x : BitVec 32) (shift : ℕ) : BitVec 32 :=
  if shift = 0 then x
  else
    let pointFive := x.getLsbD (shift - 1)
    let zeros := x &&& (BitVec.ofNat 32 (2 ^ (shift - 1)) - 1) ≠ 0
    x.sshiftRight shift + if pointFive ∧ ((1 < shift ∧ zeros) ∨ (x.sshiftRight shift).getLsbD 0) then 1
      else 0

def shifted (value : BitVec 32) : BitVec 8 :=
  saturate (if s.mode = .os then roundingRightShift value s.sysShift else value)

/-- The part of `compute` after the preload. -/
def multiply (aAddr bdAddr : ℕ) : State :=
  let a := s.computeA (field aAddr 0 32) (field aAddr 48 16) (field aAddr 32 16)
  let b := s.computeB (field bdAddr 0 32) (field bdAddr 48 16) (field bdAddr 32 16)
  let bias := fun i j => if field bdAddr 0 32 = garbageAddr ∨ ¬(i < field bdAddr 48 16 ∧ j < field bdAddr 32 16)
    then 0 else (s.spad (field bdAddr 0 32 + i, j)).signExtend 32
  let results := fun i j => forRange hw.dim (fun k sum => sum + (a i k).signExtend 32 * s.pe k j) (bias i j)
  let pe := fun i j =>
    if s.mode = .os ∧ i < hw.dim ∧ j < hw.dim then
      forRange hw.dim (fun k sum => sum + (a i k).signExtend 32 * (b k j).signExtend 32) (s.pe i j)
    else s.pe i j
  let value := fun i j => if s.mode = .os then pe i j else results i j
  let base := field s.outputAddr 0 29
  let loc := fun i j => (base + s.cStride * i, j)
  if s.outputAddr = garbageAddr then { s with pe := pe }
  else if flag s.outputAddr 31 then
    { s with
      pe := pe
      accumulator := modifyGrid s.outputRows s.outputCols loc (fun i j old =>
        if flag s.outputAddr 30 then old + value i j else value i j) s.accumulator }.require
      (∀ i < s.outputRows, base + s.cStride * i < hw.accRows ∧ i < hw.dim ∧ s.outputCols ≤ hw.dim)
  else
    { s with
      pe := pe
      spad := modifyGrid s.outputRows s.outputCols loc (fun i j _ =>
        applyActivation (s.shifted (value i j)) s.sysAct) s.spad }.require
      (∀ i < s.outputRows, base + s.cStride * i < hw.spadRows ∧ i < hw.dim ∧ s.outputCols ≤ hw.dim)

/-- The operands of `compute` lie in the scratchpad. -/
def ComputeFits (aAddr bdAddr : ℕ) : Prop :=
  (field aAddr 0 32 = garbageAddr ∨ ∀ i < min (field aAddr 48 16) hw.dim,
    ∀ k < min (field aAddr 32 16) hw.dim,
      field aAddr 0 32 + s.aStride * (if s.aTranspose then k else i) < hw.spadRows) ∧
  (field bdAddr 0 32 = garbageAddr ∨ ∀ i < min (field bdAddr 48 16) hw.dim,
    ∀ j < min (field bdAddr 32 16) hw.dim, field bdAddr 0 32 + i < hw.spadRows ∧
      (s.mode = .os → s.bTranspose = true → field bdAddr 0 32 + j < hw.spadRows))

instance (aAddr bdAddr : ℕ) : Decidable (s.ComputeFits hw aAddr bdAddr) := by
  unfold ComputeFits
  infer_instance

def compute (aAddr bdAddr : ℕ) (preloaded : Bool) : State :=
  let s := if preloaded then s.loadPes hw else s
  (s.multiply hw aAddr bdAddr).require (s.ComputeFits hw aAddr bdAddr)

/-! ### `config` -/

/-- The activation that two bits select.  Bits `00` keep a softmax that is configured. -/
def selectAct : ℕ → Activation
  | 0 => if s.accAct = .softmax then .softmax else .none
  | 1 => .relu
  | 2 => .layernorm
  | _ => .igelu

def configEx (rs1 rs2 : ℕ) : State :=
  let mode : Mode := if flag rs1 2 then .ws else .os
  let act := s.selectAct (field rs1 3 2)
  let sysShift := field rs2 0 32
  let aTranspose := flag rs1 8
  let bTranspose := flag rs1 9
  let configured := if flag rs1 7 then s
    else { s with
      mode := mode
      sysAct := act
      sysShift := sysShift
      aTranspose := aTranspose
      bTranspose := bTranspose }
  { configured with cStride := field rs2 48 16, aStride := field rs1 16 16 }.require
    (sysShift < 32 ∧ ¬(mode = Mode.os ∧ aTranspose = false ∧ bTranspose = true) ∧
      ¬(mode = Mode.ws ∧ aTranspose = true ∧ bTranspose = true))

def configLd (rs1 rs2 : ℕ) : State :=
  let pixels := field rs1 8 8
  { s with
    load := modify (field rs1 3 2) (fun _ =>
      { stride := rs2
        blockStride := field rs1 16 16
        shrunk := flag rs1 2
        scale := BitVec.ofNat 32 (rs1 / 2 ^ 32)
        pixelsPerRow := if pixels = 0 then 1 else pixels }) s.load }

def configSt (rs1 rs2 : ℕ) : State :=
  { s with
    storeStride := field rs2 0 32
    accAct := s.selectAct (field rs1 2 2)
    accShift := BitVec.ofNat 32 (field rs2 32 32)
    pool :=
      { stride := field rs1 4 2
        size := field rs1 6 2
        upad := field rs1 8 2
        lpad := field rs1 10 2
        outDim := field rs1 24 8
        porows := field rs1 32 8
        pocols := field rs1 40 8
        orows := field rs1 48 8
        ocols := field rs1 56 8 } }

def configNorm (rs1 rs2 : ℕ) : State :=
  let s := { s with normStatId := field rs1 8 8 }
  let softmax := flag rs1 16
  let const := BitVec.ofNat 32 (field rs1 32 32)
  if flag rs1 17 then s
  else
    { s with
      igeluQb := BitVec.ofNat 32 (field rs2 0 32)
      igeluQc := BitVec.ofNat 32 (field rs2 32 32)
      accAct := if softmax then .softmax else s.accAct
      qln2Inv := if flag rs1 18 then const else s.qln2Inv
      qln2 := if flag rs1 18 then s.qln2 else const }.require
      (softmax = true → s.accAct = Activation.none ∨ s.accAct = Activation.softmax)

def config (rs1 rs2 : ℕ) : State :=
  match field rs1 0 2 with
  | 0 => s.configEx rs1 rs2
  | 1 => s.configLd rs1 rs2
  | 2 => s.configSt rs1 rs2
  | _ => s.configNorm rs1 rs2

end State

/-- A fresh accelerator, with `2` and `1` in main memory. -/
def fresh : State where
  dram := fun addr => if addr = 16 then 2 else if addr = 32 then 1 else 0
  spad := fun _ => 0
  accumulator := fun _ => 0
  pe := fun _ _ => 0
  outputAddr := 0
  preloadAddr := 0
  preloadCols := 0
  preloadRows := 0
  outputCols := 0
  outputRows := 0
  mode := .os
  sysAct := .none
  accAct := .none
  sysShift := 0
  igeluQb := 0
  igeluQc := 0
  qln2 := 0
  qln2Inv := 0
  load := fun _ => ⟨0, 0, false, 0, 0⟩
  storeStride := 0
  accShift := 0
  cStride := 0
  aStride := 0
  pool := ⟨0, 0, 0, 0, 0, 0, 0, 0, 0⟩
  aTranspose := false
  bTranspose := false
  loopWs := ⟨0, 0, 0, 0, 0, 0, 0, 0, 0, 0, 0, 0, 0, 0⟩
  normStatId := 0
  norm := fun _ => ⟨0, 0, 0, 0, 0, 0, 0, true⟩
  ok := true

def unscaled : Scaling := ⟨fun x _ => x, fun x _ => x, fun x _ => x, fun x => x, fun x => x⟩

end Gemmini.Simulator
