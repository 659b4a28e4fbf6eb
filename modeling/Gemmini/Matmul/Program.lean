import Gemmini.Matmul.Cpu

/-!
# `tiled_matmul_outer`

The commands that `gemmini.h` issues for a matrix multiplication in the weight-stationary dataflow,
with the checks that `tiled_matmul` makes before.
-/

namespace Gemmini.Matmul

open Simulator

/-! ### Commands -/

/-- `gemmini_extended_config_ex` with no shift, and strides of one. -/
def configExInstr (identity : BitVec 32) (act : ℕ) (aTranspose bTranspose : Bool) : Instr where
  funct := .config
  rs1 := identity.toNat <<< 32 ||| 1 <<< 16 ||| bTranspose.toNat <<< 9 ||| aTranspose.toNat <<< 8 |||
    0 <<< 7 ||| act <<< 3 ||| 1 <<< 2 ||| 0
  rs2 := 1 <<< 48 ||| 0

/-- `gemmini_extended_config_st` -/
def configStInstr (stride act : ℕ) (scale : BitVec 32) : Instr where
  funct := .config
  rs1 := 0 <<< 56 ||| 0 <<< 48 ||| 0 <<< 40 ||| 0 <<< 32 ||| 0 <<< 24 ||| 0 <<< 10 ||| 0 <<< 8 |||
    0 <<< 6 ||| 0 <<< 4 ||| act <<< 2 ||| 2
  rs2 := scale.toNat <<< 32 ||| stride % 2 ^ 32

/-- `gemmini_extended3_config_ld` -/
def configLdInstr (hw : Hw) (stride : ℕ) (scale : BitVec 32) (shrunk : Bool) (id : ℕ) : Instr where
  funct := .config
  rs1 := scale.toNat <<< 32 ||| hw.dim <<< 16 ||| 1 <<< 8 ||| id <<< 3 ||| shrunk.toNat <<< 2 ||| 1
  rs2 := stride

/-- `gemmini_config_norm` for the statistics `0`. -/
def configNormInstr (const : BitVec 32) (type msb : Bool) (qb qc : BitVec 32) : Instr where
  funct := .config
  rs1 := const.toNat <<< 32 ||| type.toNat <<< 18 ||| 0 <<< 17 ||| msb.toNat <<< 16 ||| 0 <<< 8 ||| 3
  rs2 := qc.toNat <<< 32 ||| qb.toNat

/-- `gemmini_loop_ws` -/
def loopWsInstrs (l : LoopWs) (p : LoopArgs) : List Instr :=
  [⟨.loopWsConfigBounds, l.padK <<< 32 ||| l.padJ <<< 16 ||| l.padI, l.K <<< 32 ||| l.J <<< 16 ||| l.I⟩,
    ⟨.loopWsConfigAddrsAB, l.A, l.B⟩,
    ⟨.loopWsConfigAddrsDC, l.D, l.C⟩,
    ⟨.loopWsConfigStridesAB, l.strideA, l.strideB⟩,
    ⟨.loopWsConfigStridesDC, l.strideD, l.strideC⟩,
    ⟨.loopWs, p.aSpadId <<< 18 ||| p.bSpadId <<< 16 ||| p.act <<< 8 ||| p.lowD.toNat <<< 2 |||
      p.fullC.toNat <<< 1 ||| p.exAccumulate.toNat,
      p.isResadd.toNat <<< 2 ||| p.bTranspose.toNat <<< 1 ||| p.aTranspose.toNat⟩]

/-! ### Tiles -/

/-- `dim_padded` -/
def padded (hw : Hw) (n : ℕ) : ℕ := (n / hw.dim + if n % hw.dim ≠ 0 then 1 else 0) * hw.dim

/-- `I0`, `J0` and `K0` -/
def tiles (hw : Hw) (n tile : ℕ) : ℕ :=
  padded hw n / (tile * hw.dim) + if padded hw n % (tile * hw.dim) ≠ 0 then 1 else 0

/-- `last_I`, `last_J` and `last_K` -/
def last (hw : Hw) (n tile : ℕ) : ℕ :=
  if padded hw n % (tile * hw.dim) = 0 then tile else padded hw n / hw.dim % tile

/-- The blocks of tile `t`. -/
def blocks (hw : Hw) (n tile t : ℕ) : ℕ := if t < tiles hw n tile - 1 then tile else last hw n tile

/-- The padding of tile `t`. -/
def padding (hw : Hw) (n tile t : ℕ) : ℕ := if t = tiles hw n tile - 1 then padded hw n - n else 0

structure Tiling where
  tileI : ℕ
  tileJ : ℕ
  tileK : ℕ

/-- What `tiled_matmul` checks for a weight-stationary multiplication. -/
structure Accepted (hw : Hw) (m : Args) (t : Tiling) : Prop where
  tileI_pos : 0 < t.tileI
  tileJ_pos : 0 < t.tileJ
  tileK_pos : 0 < t.tileK
  tileI_le : t.tileI * hw.dim ≤ padded hw m.dimI
  tileJ_le : t.tileJ * hw.dim ≤ padded hw m.dimJ
  tileK_le : t.tileK * hw.dim ≤ padded hw m.dimK
  spad : t.tileI * t.tileK * hw.dim + t.tileK * t.tileJ * hw.dim ≤ hw.bankNum * hw.bankRows / 2
  acc : t.tileI * t.tileJ * hw.dim ≤ hw.accRows / 2
  tileI_bits : t.tileI ≤ 65535
  tileJ_bits : t.tileJ ≤ 65535
  tileK_bits : t.tileK ≤ 65535
  transposes : ¬(m.transposeA = true ∧ m.transposeB = true)

/-- What `tiled_matmul_outer` derives from its scale factors. -/
structure Consts where
  /-- `ACC_SCALE_IDENTITY` -/
  identity : BitVec 32
  qb : BitVec 32
  qc : BitVec 32
  qln2 : BitVec 32
  qln2Inv : BitVec 32

section Program

variable (hw : Hw) (m : Args) (t : Tiling)

def aReuse : Bool := tiles hw m.dimI t.tileI * tiles hw m.dimK t.tileK ≤ 2

def bReuse : Bool := tiles hw m.dimJ t.tileJ * tiles hw m.dimK t.tileK ≤ 2

/-- The registers for the tile `(i0, j0, k0)`. -/
def tileRegs (i0 j0 k0 : ℕ) : LoopWs where
  I := blocks hw m.dimI t.tileI i0
  J := blocks hw m.dimJ t.tileJ j0
  K := blocks hw m.dimK t.tileK k0
  padI := padding hw m.dimI t.tileI i0
  padJ := padding hw m.dimJ t.tileJ j0
  padK := padding hw m.dimK t.tileK k0
  A := if aReuse hw m t ∧ j0 ≥ 1 then 0
    else if m.transposeA then m.A + k0 * t.tileK * hw.dim * m.strideA + i0 * t.tileI * hw.dim
    else m.A + i0 * t.tileI * hw.dim * m.strideA + k0 * t.tileK * hw.dim
  B := if bReuse hw m t ∧ i0 ≥ 1 then 0
    else if m.transposeB then m.B + j0 * t.tileJ * hw.dim * m.strideB + k0 * t.tileK * hw.dim
    else m.B + k0 * t.tileK * hw.dim * m.strideB + j0 * t.tileJ * hw.dim
  -- Without a bias, the address is a dummy that `sp_tiled_matmul_ws` drops.
  D := if m.D = 0 ∨ k0 ≠ 0 then 0
    else m.D + ((if m.repeatingBias then 0 else i0 * t.tileI * hw.dim) * m.strideD +
      j0 * t.tileJ * hw.dim) * 4
  C := if k0 = tiles hw m.dimK t.tileK - 1 then
      m.C + (i0 * t.tileI * hw.dim * m.strideC + j0 * t.tileJ * hw.dim)
    else 0
  strideA := m.strideA
  strideB := m.strideB
  strideD := if m.repeatingBias then 0 else m.strideD
  strideC := m.strideC

def tileArgs (i0 j0 k0 : ℕ) : LoopArgs where
  exAccumulate := m.D ≠ 0 ∨ k0 ≠ 0
  fullC := false
  lowD := false
  act := m.act.toNat
  aTranspose := m.transposeA
  bTranspose := m.transposeB
  aSpadId := if aReuse hw m t then if i0 + k0 = 0 then 1 else 2 else 0
  bSpadId := if bReuse hw m t then if j0 + k0 = 0 then 1 else 2 else 0
  isResadd := false

def configInstrs (c : Consts) : List Instr :=
  [configExInstr c.identity (m.act.toNat % 4) m.transposeA m.transposeB,
    configStInstr m.strideC (m.act.toNat % 4) m.scale,
    configLdInstr hw m.strideA m.aScale false 0,
    configLdInstr hw m.strideB m.bScale false 1,
    configLdInstr hw (if m.repeatingBias then 0 else m.strideD * 4) m.dScale false 2] ++
  match m.act with
  | .igelu => [configNormInstr 0 false false c.qb c.qc]
  | .softmax => [configNormInstr c.qln2 false true c.qb c.qc, configNormInstr c.qln2Inv true true c.qb c.qc]
  | _ => []

/-- `tiled_matmul_outer` with a result of elements and a bias of accumulator values. -/
def tiledMatmulOuter (c : Consts) : List Instr :=
  configInstrs hw m c ++
    (List.range (tiles hw m.dimI t.tileI)).flatMap fun i0 =>
      (List.range (tiles hw m.dimJ t.tileJ)).flatMap fun j0 =>
        (List.range (tiles hw m.dimK t.tileK)).flatMap fun k0 =>
          loopWsInstrs (tileRegs hw m t i0 j0 k0) (tileArgs hw m t i0 j0 k0)

end Program

/-! ### Decoding -/

theorem shift_or {x y n : ℕ} (h : y < 2 ^ n) : x <<< n ||| y = x * 2 ^ n + y := by
  rw [← Nat.shiftLeft_add_eq_or_of_lt h, Nat.shiftLeft_eq]

theorem toNat_le_one (b : Bool) : b.toNat ≤ 1 := by cases b <;> decide

theorem flag_eq {x i : ℕ} {b : Bool} (h : field x i 1 = b.toNat) : flag x i = b := by
  rw [flag, h]
  cases b <;> rfl

variable {hw : Hw} {sc : Scaling} {s : State}

theorem run_append (s : State) (xs ys : List Instr) :
    s.run hw sc (xs ++ ys) = (s.run hw sc xs).run hw sc ys := List.foldl_append

theorem decode_encode {p : LoopArgs} (act : p.act < 8) (a : p.aSpadId < 4) (b : p.bSpadId < 4) :
    LoopArgs.decode (p.aSpadId <<< 18 ||| p.bSpadId <<< 16 ||| p.act <<< 8 ||| p.lowD.toNat <<< 2 |||
      p.fullC.toNat <<< 1 ||| p.exAccumulate.toNat)
      (p.isResadd.toNat <<< 2 ||| p.bTranspose.toNat <<< 1 ||| p.aTranspose.toNat) = p := by
  have ex := toNat_le_one p.exAccumulate
  have full := toNat_le_one p.fullC
  have low := toNat_le_one p.lowD
  have resadd := toNat_le_one p.isResadd
  have ta := toNat_le_one p.aTranspose
  have tb := toNat_le_one p.bTranspose
  have rs1 : p.aSpadId <<< 18 ||| p.bSpadId <<< 16 ||| p.act <<< 8 ||| p.lowD.toNat <<< 2 |||
      p.fullC.toNat <<< 1 ||| p.exAccumulate.toNat = p.aSpadId * 2 ^ 18 + (p.bSpadId * 2 ^ 16 +
        (p.act * 2 ^ 8 + (p.lowD.toNat * 2 ^ 2 + (p.fullC.toNat * 2 ^ 1 + p.exAccumulate.toNat)))) := by
    simp only [Nat.or_assoc]
    simp (disch := omega) only [shift_or]
  have rs2 : p.isResadd.toNat <<< 2 ||| p.bTranspose.toNat <<< 1 ||| p.aTranspose.toNat =
      p.isResadd.toNat * 2 ^ 2 + (p.bTranspose.toNat * 2 ^ 1 + p.aTranspose.toNat) := by
    simp only [Nat.or_assoc]
    simp (disch := omega) only [shift_or]
  rw [rs1, rs2]
  change LoopArgs.decode _ _ = ⟨p.exAccumulate, p.fullC, p.lowD, p.act, p.aTranspose, p.bTranspose, p.aSpadId,
    p.bSpadId, p.isResadd⟩
  rw [LoopArgs.decode, LoopArgs.mk.injEq]
  refine ⟨flag_eq ?_, flag_eq ?_, flag_eq ?_, ?_, flag_eq ?_, flag_eq ?_, ?_, ?_, flag_eq ?_⟩
  all_goals
    rw [field]
    omega

/-- The state with the registers of `loop_ws` set. -/
def withLoop (s : State) (l : LoopWs) : State := { s with loopWs := l }

theorem withLoop_loopWs (s : State) (l : LoopWs) : (withLoop s l).loopWs = l := rfl

theorem run_loopWsInstrs {l : LoopWs} {p : LoopArgs} (hI : l.I < 2 ^ 16) (hJ : l.J < 2 ^ 16)
    (hK : l.K < 2 ^ 16) (padI : l.padI < 2 ^ 16) (padJ : l.padJ < 2 ^ 16) (padK : l.padK < 2 ^ 16)
    (act : p.act < 8) (a : p.aSpadId < 4) (b : p.bSpadId < 4) :
    s.run hw sc (loopWsInstrs l p) = (withLoop s l).loopWsRun hw sc p := by
  have triple : ∀ {x y z : ℕ}, y < 2 ^ 16 → z < 2 ^ 16 →
      x <<< 32 ||| y <<< 16 ||| z = x * 2 ^ 32 + (y * 2 ^ 16 + z) := by
    intro x y z hy hz
    rw [Nat.or_assoc, shift_or hz, shift_or (by omega)]
  have parts : ∀ {x y z : ℕ}, x < 2 ^ 16 → y < 2 ^ 16 → z < 2 ^ 16 →
      field (x * 2 ^ 32 + (y * 2 ^ 16 + z)) 0 16 = z ∧ field (x * 2 ^ 32 + (y * 2 ^ 16 + z)) 16 16 = y ∧
        field (x * 2 ^ 32 + (y * 2 ^ 16 + z)) 32 16 = x := by
    intro x y z hx hy hz
    simp only [field]
    omega
  simp only [State.run, loopWsInstrs, List.foldl_cons, List.foldl_nil, State.execute,
    decode_encode act a b, triple hJ hI, triple padJ padI, parts hK hJ hI, parts padK padJ padI]
  rfl

/-! ### Configuration -/

theorem execute_configEx {identity : BitVec 32} {act : ℕ} {a b : Bool} (hact : act < 4)
    (transposes : ¬(a = true ∧ b = true)) :
    s.execute hw sc (configExInstr identity act a b) = { s with
      mode := .ws
      sysAct := s.selectAct act
      sysShift := 0
      aTranspose := a
      bTranspose := b
      cStride := 1
      aStride := 1 } := by
  have ha := toNat_le_one a
  have hb := toNat_le_one b
  have rs1 : (configExInstr identity act a b).rs1 = identity.toNat * 2 ^ 32 +
      (1 * 2 ^ 16 + (b.toNat * 2 ^ 9 + (a.toNat * 2 ^ 8 + (0 * 2 ^ 7 + (act * 2 ^ 3 + (1 * 2 ^ 2 + 0)))))) := by
    simp only [configExInstr, Nat.or_assoc]
    simp (disch := omega) only [shift_or]
  have fields {w : ℕ} (word : (configExInstr identity act a b).rs1 = w) : field w 0 2 = 0 ∧
      flag w 2 = true ∧ field w 3 2 = act ∧ flag w 7 = false ∧ flag w 8 = a ∧ flag w 9 = b ∧
      field w 16 16 = 1 := by
    rw [← word, rs1]
    refine ⟨?_, decide_eq_true ?_, ?_, decide_eq_false ?_, flag_eq ?_, flag_eq ?_, ?_⟩
    all_goals
      rw [field]
      omega
  obtain ⟨kind, ws, sysAct, all, tA, tB, stride⟩ := fields rfl
  have shift : field (1 <<< 48 ||| 0) 0 32 = 0 := by decide
  have cStride : field (1 <<< 48 ||| 0) 48 16 = 1 := by decide
  have rs2 : (configExInstr identity act a b).rs2 = 1 <<< 48 ||| 0 := rfl
  have funct : (configExInstr identity act a b).funct = .config := rfl
  simp only [State.execute, funct, State.config, kind, State.configEx, ws, sysAct, all, tA, tB, stride,
    rs2, shift, cStride, if_true, Bool.false_eq_true, if_false]
  refine State.require_of ⟨by norm_num, fun h => ?_, fun h => transposes h.2⟩
  exact absurd h.1 (by decide)

theorem execute_configSt {stride act : ℕ} {scale : BitVec 32} (hact : act < 4) (hs : stride < 2 ^ 32) :
    s.execute hw sc (configStInstr stride act scale) = { s with
      storeStride := stride
      accAct := s.selectAct act
      accShift := scale
      pool := ⟨0, 0, 0, 0, 0, 0, 0, 0, 0⟩ } := by
  have rs1 : (configStInstr stride act scale).rs1 = act * 2 ^ 2 + 2 := by
    simp only [configStInstr, Nat.zero_shiftLeft, Nat.zero_or]
    rw [shift_or (by norm_num)]
  have rs2 : (configStInstr stride act scale).rs2 = scale.toNat * 2 ^ 32 + stride := by
    simp only [configStInstr, Nat.mod_eq_of_lt hs]
    rw [shift_or hs]
  have kind : field (act * 2 ^ 2 + 2) 0 2 = 2 := by rw [field]; omega
  have accAct : field (act * 2 ^ 2 + 2) 2 2 = act := by rw [field]; omega
  have low : field (scale.toNat * 2 ^ 32 + stride) 0 32 = stride := by rw [field]; omega
  have high : field (scale.toNat * 2 ^ 32 + stride) 32 32 = scale.toNat := by rw [field]; omega
  have none : ∀ lo len, 4 ≤ lo → field (act * 2 ^ 2 + 2) lo len = 0 := by
    intro lo len h
    have small : act * 2 ^ 2 + 2 < 2 ^ lo :=
      lt_of_lt_of_le (show act * 2 ^ 2 + 2 < 2 ^ 4 by omega) (Nat.pow_le_pow_right (by norm_num) h)
    rw [field, Nat.div_eq_of_lt small, Nat.zero_mod]
  have funct : (configStInstr stride act scale).funct = .config := rfl
  simp (disch := omega) only [State.execute, funct, rs1, rs2, State.config, kind, State.configSt, accAct, low, high,
    none, BitVec.ofNat_toNat, BitVec.setWidth_eq]

theorem execute_configLd {stride id : ℕ} {scale : BitVec 32} (hid : id < 4) :
    s.execute hw sc (configLdInstr hw stride scale false id) = { s with
      load := modify id (fun _ => ⟨stride, hw.dim, false, scale, 1⟩) s.load } := by
  have hdim := hw.dim_lt
  have rs1 : (configLdInstr hw stride scale false id).rs1 = scale.toNat * 2 ^ 32 +
      (hw.dim * 2 ^ 16 + (1 * 2 ^ 8 + (id * 2 ^ 3 + (0 * 2 ^ 2 + 1)))) := by
    simp only [configLdInstr, Nat.or_assoc, Bool.toNat_false]
    simp (disch := omega) only [shift_or]
  have fields {w : ℕ} (word : (configLdInstr hw stride scale false id).rs1 = w) : field w 0 2 = 1 ∧
      field w 3 2 = id ∧ field w 16 16 = hw.dim ∧ flag w 2 = false ∧ field w 8 8 = 1 ∧
      w / 2 ^ 32 = scale.toNat := by
    rw [← word, rs1]
    refine ⟨?_, ?_, ?_, decide_eq_false ?_, ?_, by omega⟩
    all_goals
      rw [field]
      omega
  obtain ⟨kind, which, block, shrunk, pixels, bits⟩ := fields rfl
  have funct : (configLdInstr hw stride scale false id).funct = .config := rfl
  have rs2 : (configLdInstr hw stride scale false id).rs2 = stride := rfl
  simp only [State.execute, funct, State.config, kind, State.configLd, which, block, shrunk, pixels, bits,
    rs2, one_ne_zero, if_false, BitVec.ofNat_toNat, BitVec.setWidth_eq]

def configured (hw : Hw) (m : Args) (s : State) : State :=
  { s with
    mode := .ws
    sysAct := s.selectAct m.act.toNat
    sysShift := 0
    aTranspose := m.transposeA
    bTranspose := m.transposeB
    cStride := 1
    aStride := 1
    storeStride := m.strideC
    accAct := s.selectAct m.act.toNat
    accShift := m.scale
    pool := ⟨0, 0, 0, 0, 0, 0, 0, 0, 0⟩
    load := modify 2 (fun _ => ⟨if m.repeatingBias then 0 else m.strideD * 4, hw.dim, false, m.dScale, 1⟩)
      (modify 1 (fun _ => ⟨m.strideB, hw.dim, false, m.bScale, 1⟩)
        (modify 0 (fun _ => ⟨m.strideA, hw.dim, false, m.aScale, 1⟩) s.load)) }

theorem run_configInstrs {m : Args} {c : Consts} (act : m.act = .none ∨ m.act = .relu)
    (transposes : ¬(m.transposeA = true ∧ m.transposeB = true)) (stride : m.strideC < 2 ^ 32) :
    s.run hw sc (configInstrs hw m c) = configured hw m s := by
  have small : m.act.toNat < 4 := by rcases act with h | h <;> rw [h] <;> decide
  have norm : (match m.act with
      | .igelu => [configNormInstr 0 false false c.qb c.qc]
      | .softmax => [configNormInstr c.qln2 false true c.qb c.qc,
          configNormInstr c.qln2Inv true true c.qb c.qc]
      | _ => []) = [] := by rcases act with h | h <;> rw [h]
  rw [configInstrs, norm, List.append_nil, Nat.mod_eq_of_lt small]
  simp only [State.run, List.foldl_cons, List.foldl_nil, execute_configEx small transposes,
    execute_configSt small stride, execute_configLd (show 0 < 4 by norm_num),
    execute_configLd (show 1 < 4 by norm_num), execute_configLd (show 2 < 4 by norm_num)]
  rfl

end Gemmini.Matmul
