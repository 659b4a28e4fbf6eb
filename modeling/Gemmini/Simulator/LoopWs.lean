import Gemmini.Simulator.Model

/-!
# `loop_ws` and the dispatch of commands
-/

namespace Gemmini.Simulator

/-- The value of an `int` expression. -/
def int32 (x : ℕ) : ℤ := (x + 2 ^ 31 : ℤ) % 2 ^ 32 - 2 ^ 31

/-- `x - y` as a `uint32_t`. -/
def sub32 (x y : ℕ) : ℕ := (x + (2 ^ 32 - y % 2 ^ 32)) % 2 ^ 32

/-- An operand with its address, a `uint32_t`. -/
def packed (rows cols addr : ℕ) : ℕ := rows <<< 48 ||| cols <<< 32 ||| addr % 2 ^ 32

/-- `x & ~(1 << i)` -/
def clearBit (x i : ℕ) : ℕ := x - field x i 1 * 2 ^ i

/-- The side of block `i` of `n`, the last of which is padded. -/
def side (hw : Hw) (n pad i : ℕ) : ℕ := hw.dim - if i = n - 1 then pad else 0

/-- The commands of a row for every block but the last, and for the last. -/
def normCmds : Activation → ℕ → ℕ × ℕ
  | .layernorm, 0 => (1, 2)
  | .layernorm, 1 => (3, 4)
  | .softmax, 0 => (5, 5)
  | .softmax, 1 => (6, 7)
  | _, _ => (0, 0)

theorem normAddr_eq {full norm row : ℕ} (small : row < 2 ^ 26) (three : norm < 2 ^ 3) :
    ((3 * 2 ^ 30 + full * 2 ^ 29 + row) ||| norm <<< 26) = (6 + full) * 2 ^ 29 + norm * 2 ^ 26 + row := by
  have low : norm <<< 26 + row < 2 ^ 29 := by
    rw [Nat.shiftLeft_eq]
    omega
  have top : 3 * 2 ^ 30 + full * 2 ^ 29 + row = (6 + full) <<< 29 + row := by
    rw [Nat.shiftLeft_eq]
    ring
  rw [top, Nat.shiftLeft_add_eq_or_of_lt (by omega), Nat.or_assoc, Nat.or_comm row,
    ← Nat.shiftLeft_add_eq_or_of_lt small, ← Nat.shiftLeft_add_eq_or_of_lt low, Nat.shiftLeft_eq,
    Nat.shiftLeft_eq]
  ring

/-- What `loop_ws` decodes from its operands. -/
structure LoopArgs where
  exAccumulate : Bool
  fullC : Bool
  lowD : Bool
  act : ℕ
  aTranspose : Bool
  bTranspose : Bool
  aSpadId : ℕ
  bSpadId : ℕ
  isResadd : Bool
  deriving DecidableEq

def LoopArgs.decode (rs1 rs2 : ℕ) : LoopArgs where
  exAccumulate := flag rs1 0
  fullC := flag rs1 1
  lowD := flag rs1 2
  act := field rs1 8 3
  aTranspose := flag rs2 0
  bTranspose := flag rs2 1
  aSpadId := field rs1 18 2
  bSpadId := field rs1 16 2
  isResadd := flag rs2 2

namespace LoopArgs

variable (hw : Hw) (p : LoopArgs) (l : LoopWs)

def totalSpadRows : ℤ := int32 ((l.I * l.K + l.K * l.J) * hw.dim)

def totalAccRows : ℤ := int32 (l.I * l.J * hw.dim)

def Accepts : Prop :=
  totalSpadRows hw l ≤ (hw.bankNum * hw.bankRows / 2 : ℕ) ∧ totalAccRows hw l ≤ (hw.accRows / 2 : ℕ)

theorem int32_le_iff {x n : ℕ} : int32 x ≤ n ↔ 2 ^ 31 ≤ x % 2 ^ 32 ∨ x % 2 ^ 32 ≤ n := by
  unfold int32
  omega

instance : Decidable (Accepts hw l) :=
  decidable_of_iff' _ (and_congr int32_le_iff int32_le_iff)

variable {hw l} in
theorem accepts_of_le (spad : (l.I * l.K + l.K * l.J) * hw.dim ≤ hw.bankNum * hw.bankRows / 2)
    (acc : l.I * l.J * hw.dim ≤ hw.accRows / 2) : Accepts hw l := by
  rw [Accepts, totalSpadRows, totalAccRows, int32_le_iff, int32_le_iff]
  omega

def sizeofC : ℕ := if p.fullC then 4 else 1

def sizeofD : ℕ := if p.lowD then 1 else 4

def aStart : ℕ := if p.aSpadId = 2 then hw.bankNum * hw.bankRows / 2 else 0

def bStart : ℕ :=
  sub32 (if p.bSpadId = 2 then hw.bankNum * hw.bankRows else hw.bankNum * hw.bankRows / 2) (l.K * l.J * hw.dim)

def cStart : ℕ := 3 <<< 30 ||| (if p.fullC then 1 else 0) <<< 29

def aSpAddr (i k : ℕ) : ℕ :=
  p.aStart hw + (if p.aTranspose then k * l.I + i else i * l.K + k) * hw.dim

def bSpAddr (k j : ℕ) : ℕ :=
  p.bStart hw l + (if p.bTranspose then j * l.K + k else k * l.J + j) * hw.dim

def cSpAddr (i j : ℕ) : ℕ := p.cStart + (i * l.J + j) * hw.dim

def cDramAddr (i j : ℕ) : ℕ := l.C + (i * l.strideC + j) * hw.dim * p.sizeofC

end LoopArgs

namespace State

variable (hw : Hw) (sc : Scaling) (p : LoopArgs) (s : State)

def resaddBlock (i j : ℕ) : State :=
  let l := s.loopWs
  let cols := side hw l.J l.padJ j
  let rows := side hw l.I l.padI i
  let block := (i * l.J + j) * hw.dim
  let s := s.mvin hw sc (l.A + (i * l.strideA + j) * hw.dim) (packed rows cols (1 <<< 31 + block)) 0
  let s := s.mvin hw sc (l.B + (i * l.strideB + j) * hw.dim) (packed rows cols (3 <<< 30 + block)) 1
  if l.C ≠ 0 then s.mvout hw sc (p.cDramAddr hw l i j) (packed rows cols (p.cSpAddr hw l i j)) else s

def loadD (i j : ℕ) : State :=
  let l := s.loopWs
  s.mvin hw sc (l.D + (i * l.strideD + j) * hw.dim * p.sizeofD)
    (packed (side hw l.I l.padI i) (side hw l.J l.padJ j) (1 <<< 31 + (i * l.J + j) * hw.dim)) 2

def loadA (i k : ℕ) : State :=
  let l := s.loopWs
  let lines := side hw l.I l.padI i
  let depth := side hw l.K l.padK k
  if p.aTranspose then
    s.mvin hw sc (l.A + (k * l.strideA + i) * hw.dim) (packed depth lines (p.aSpAddr hw l i k)) 0
  else s.mvin hw sc (l.A + (i * l.strideA + k) * hw.dim) (packed lines depth (p.aSpAddr hw l i k)) 0

def loadB (k j : ℕ) : State :=
  let l := s.loopWs
  let depth := side hw l.K l.padK k
  let lines := side hw l.J l.padJ j
  if p.bTranspose then
    s.mvin hw sc (l.B + (j * l.strideB + k) * hw.dim) (packed lines depth (p.bSpAddr hw l k j)) 1
  else s.mvin hw sc (l.B + (k * l.strideB + j) * hw.dim) (packed depth lines (p.bSpAddr hw l k j)) 1

def computeBlock (k j i : ℕ) : State :=
  let l := s.loopWs
  let lines := side hw l.I l.padI i
  let depth := side hw l.K l.padK k
  let width := side hw l.J l.padJ j
  let pre := if i = 0 then p.bSpAddr hw l k j else garbageAddr
  let out := if p.exAccumulate = false ∧ k = 0 then clearBit (p.cSpAddr hw l i j) 30
    else p.cSpAddr hw l i j
  (s.preload (packed depth width pre) (packed lines width out)).compute hw
    (packed lines depth (p.aSpAddr hw l i k)) (packed hw.dim hw.dim garbageAddr) (decide (i = 0))

def storeC (i j : ℕ) : State :=
  let l := s.loopWs
  s.mvout hw sc (p.cDramAddr hw l i j)
    (packed (side hw l.I l.padI i) (side hw l.J l.padJ j) (p.cSpAddr hw l i j))

/-- Move out the rows of the blocks `(i, _)` with the commands of a normalization. -/
def storeNormalized (act : Activation) (i : ℕ) : State :=
  let rows := side hw s.loopWs.I s.loopWs.padI i
  forRange ((rows + hw.normStatIds - 1) / hw.normStatIds) (fun group =>
    let row := group * hw.normStatIds
    forRange 3 fun cmd => forRange (min hw.normStatIds (rows - row)) fun statId s =>
      let s := s.config (1 <<< 17 ||| statId <<< 8 ||| 3) 0
      let r := row + statId
      forRange s.loopWs.J (fun j s =>
        let l := s.loopWs
        let cmds := normCmds act cmd
        let addr := (p.cSpAddr hw l i j + r) ||| (if j + 1 = l.J then cmds.2 else cmds.1) <<< 26
        s.mvout hw sc (p.cDramAddr hw l i j + r * l.strideC * p.sizeofC)
          (packed 1 (side hw l.J l.padJ j) addr)) s) s

def loopBody (k j i : ℕ) : State :=
  let l := s.loopWs
  let s := if j = 0 ∧ l.A ≠ 0 then s.loadA hw sc p i k else s
  let s := if i = 0 ∧ l.B ≠ 0 then s.loadB hw sc p k j else s
  let s := s.computeBlock hw p k j i
  if l.C ≠ 0 ∧ k = l.K - 1 then
    if p.act = Activation.layernorm.toNat then
      if j = l.J - 1 then s.storeNormalized hw sc p .layernorm i else s
    else if p.act = Activation.softmax.toNat then
      if j = l.J - 1 then s.storeNormalized hw sc p .softmax i else s
    else s.storeC hw sc p i j
  else s

def loopWsRun : State :=
  let l := s.loopWs
  if ¬LoopArgs.Accepts hw l then { s with ok := false }
  else if p.isResadd then
    forRange l.I (fun i => forRange l.J fun j s => s.resaddBlock hw sc p i j) s
  else
    let s := if l.D ≠ 0 then forRange l.I (fun i => forRange l.J fun j s => s.loadD hw sc p i j) s else s
    forRange l.K (fun k => forRange l.J fun j => forRange l.I fun i s => s.loopBody hw sc p k j i) s

end State

/-! ### Instructions -/

/-- `insn.funct` -/
inductive Funct
  | config
  | mvin2
  | mvin
  | mvout
  | computePreloaded
  | computeAccumulated
  | preload
  | flush
  | loopWs
  | loopWsConfigBounds
  | loopWsConfigAddrsAB
  | loopWsConfigAddrsDC
  | loopWsConfigStridesAB
  | loopWsConfigStridesDC
  | mvin3
  deriving DecidableEq, Repr

structure Instr where
  funct : Funct
  rs1 : ℕ
  rs2 : ℕ

/-- `CUSTOMFN` -/
def State.execute (hw : Hw) (sc : Scaling) (s : State) (insn : Instr) : State :=
  let xs1 := insn.rs1
  let xs2 := insn.rs2
  match insn.funct with
  | .mvin => s.mvin hw sc xs1 xs2 0
  | .mvin2 => s.mvin hw sc xs1 xs2 1
  | .mvin3 => s.mvin hw sc xs1 xs2 2
  | .mvout => s.mvout hw sc xs1 xs2
  | .preload => s.preload xs1 xs2
  | .config => s.config xs1 xs2
  | .computePreloaded => s.compute hw xs1 xs2 true
  | .computeAccumulated => s.compute hw xs1 xs2 false
  | .loopWsConfigBounds => { s with loopWs := { s.loopWs with
      I := field xs2 0 16, J := field xs2 16 16, K := field xs2 32 16
      padI := field xs1 0 16, padJ := field xs1 16 16, padK := field xs1 32 16 } }
  | .loopWsConfigAddrsAB => { s with loopWs := { s.loopWs with A := xs1, B := xs2 } }
  | .loopWsConfigAddrsDC => { s with loopWs := { s.loopWs with D := xs1, C := xs2 } }
  | .loopWsConfigStridesAB => { s with loopWs := { s.loopWs with strideA := xs1, strideB := xs2 } }
  | .loopWsConfigStridesDC => { s with loopWs := { s.loopWs with strideD := xs1, strideC := xs2 } }
  | .loopWs => s.loopWsRun hw sc (LoopArgs.decode xs1 xs2)
  | .flush => s

def State.run (hw : Hw) (sc : Scaling) (s : State) (program : List Instr) : State :=
  program.foldl (State.execute hw sc) s

end Gemmini.Simulator
