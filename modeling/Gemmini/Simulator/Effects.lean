import Gemmini.Simulator.LoopWs

/-!
# Effects of single commands

What `mvin`, `mvout`, `preload` and `compute` do to a block of at most `DIM` by `DIM` elements, as
changes of a grid of cells.
-/

namespace Gemmini.Simulator

/-! ### Packed operands -/

theorem packed_eq {rows cols addr : ℕ} (hc : cols < 2 ^ 16) (ha : addr < 2 ^ 32) :
    packed rows cols addr = rows * 2 ^ 48 + cols * 2 ^ 32 + addr := by
  have high : rows <<< 48 ||| cols <<< 32 = rows <<< 48 + cols <<< 32 := by
    refine (Nat.shiftLeft_add_eq_or_of_lt ?_ rows).symm
    rw [Nat.shiftLeft_eq]
    omega
  have shift : rows <<< 48 + cols <<< 32 = (rows <<< 16 + cols) <<< 32 := by
    simp only [Nat.shiftLeft_eq]
    ring
  rw [packed, Nat.mod_eq_of_lt ha, high, shift, ← Nat.shiftLeft_add_eq_or_of_lt ha, Nat.shiftLeft_eq,
    Nat.shiftLeft_eq]
  ring

theorem field_packed {rows cols addr lo len : ℕ} (hc : cols < 2 ^ 16) (ha : addr < 2 ^ 32)
    (low : lo + len ≤ 32) : field (packed rows cols addr) lo len = field addr lo len := by
  obtain ⟨t, ht⟩ : ∃ t, packed rows cols addr = addr + 2 ^ lo * (2 ^ len * t) := by
    refine ⟨rows * 2 ^ (48 - (lo + len)) + cols * 2 ^ (32 - (lo + len)), ?_⟩
    have h48 : 2 ^ 48 = 2 ^ lo * 2 ^ len * 2 ^ (48 - (lo + len)) := by
      rw [← pow_add, ← pow_add]; congr 1; omega
    have h32 : 2 ^ 32 = 2 ^ lo * 2 ^ len * 2 ^ (32 - (lo + len)) := by
      rw [← pow_add, ← pow_add]; congr 1; omega
    rw [packed_eq hc ha, h48, h32]
    ring
  rw [field, field, ht, Nat.add_mul_div_left _ _ (by positivity), Nat.add_mul_mod_self_left]

theorem flag_packed {rows cols addr i : ℕ} (hc : cols < 2 ^ 16) (ha : addr < 2 ^ 32) (low : i < 32) :
    flag (packed rows cols addr) i = flag addr i := by
  rw [flag, flag, field_packed hc ha low]

theorem field_packed_cols {rows cols addr : ℕ} (hc : cols < 2 ^ 16) (ha : addr < 2 ^ 32) :
    field (packed rows cols addr) 32 16 = cols := by
  rw [field, packed_eq hc ha]
  omega

theorem field_packed_rows {rows cols addr : ℕ} (hr : rows < 2 ^ 16) (hc : cols < 2 ^ 16)
    (ha : addr < 2 ^ 32) : field (packed rows cols addr) 48 16 = rows := by
  rw [field, packed_eq hc ha]
  omega

/-! ### Memory and settings -/

structure Memory where
  dram : ℕ → BitVec 8
  spad : ℕ × ℕ → BitVec 8
  accumulator : ℕ × ℕ → BitVec 32
  pe : ℕ → ℕ → BitVec 32

/-- What they leave as it is, with the statistics that stored elements depend on. -/
structure Settings where
  mode : Mode
  aStride : ℕ
  cStride : ℕ
  aTranspose : Bool
  bTranspose : Bool
  load : ℕ → Load
  storeStride : ℕ
  accAct : Activation
  accShift : BitVec 32
  pool : Pool
  igeluQb : BitVec 32
  igeluQc : BitVec 32
  qln2 : BitVec 32
  qln2Inv : BitVec 32
  loopWs : LoopWs
  normStatId : ℕ
  stats : ℕ → BitVec 32 × BitVec 32 × BitVec 32 × BitVec 32
  ok : Bool

def State.memory (s : State) : Memory := ⟨s.dram, s.spad, s.accumulator, s.pe⟩

def Norm.stats (n : Norm) : BitVec 32 × BitVec 32 × BitVec 32 × BitVec 32 :=
  (n.mean, n.invStddev, n.max, n.invSumExp)

def State.settings (s : State) : Settings :=
  { s with stats := fun id => (s.norm id).stats }

theorem State.require_of {s : State} {c : Prop} [Decidable c] (h : c) : s.require c = s := by
  simp [State.require, h]

variable {hw : Hw} {sc : Scaling} {s : State}

/-! ### `mvin` -/

theorem mvinCells_eq {α : Type} (base rows cols blockStride : ℕ) (f : ℕ → ℕ → α → α) (m : ℕ × ℕ → α) :
    State.mvinCells hw base rows cols blockStride 1 f m = modifyGrid rows cols
      (fun r c => (base + r + c / hw.dim * blockStride, c % hw.dim)) f m := by
  unfold State.mvinCells modifyGrid
  refine forRange_congr (fun row _ m => forRange_congr (fun col _ m => ?_) m) m
  have once : min 1 (base + row + col / hw.dim * blockStride + 1) = 1 := by omega
  simp only [once, forRange_succ, forRange_zero, Nat.sub_zero, zero_mul, Nat.add_zero]

theorem mvinFits_of {limit base rows cols blockStride : ℕ}
    (room : ∀ r < rows, ∀ c < cols, base + r + c / hw.dim * blockStride < limit) :
    State.MvinFits hw limit base rows cols blockStride 1 := by
  intro row hrow col hcol pixel hpixel
  obtain rfl : pixel = 0 := by omega
  rw [Nat.sub_zero, zero_mul, add_zero]
  exact ⟨room row hrow col hcol, Nat.mod_lt _ hw.dim_pos⟩

theorem block_cell {cols c : ℕ} (narrow : cols ≤ hw.dim) (hc : c < cols) (base r blockStride : ℕ) :
    (base + r + c / hw.dim * blockStride, c % hw.dim) = (base + r, c) := by
  rw [Nat.div_eq_of_lt (by omega), Nat.mod_eq_of_lt (by omega), zero_mul, add_zero]

theorem mvinCells_block {α : Type} {base rows cols blockStride : ℕ} (narrow : cols ≤ hw.dim)
    (f : ℕ → ℕ → α → α) (m : ℕ × ℕ → α) :
    State.mvinCells hw base rows cols blockStride 1 f m =
      modifyGrid rows cols (fun r c => (base + r, c)) f m := by
  rw [mvinCells_eq]
  refine forRange_congr (fun row _ m => forRange_congr (fun col hcol m => ?_) m) m
  exact congrArg (fun cell => modify cell (f row col) m) (block_cell narrow hcol base row blockStride)

theorem mvinFits_block {limit base rows cols blockStride : ℕ} (narrow : cols ≤ hw.dim)
    (room : base + rows ≤ limit) : State.MvinFits hw limit base rows cols blockStride 1 := by
  apply mvinFits_of
  intro r hr c hc
  rw [Nat.div_eq_of_lt (by omega)]
  omega

namespace State

section Mvin

variable (hw sc s) (dramAddr : ℕ) {base rows cols id : ℕ} (pixels : (s.load id).pixelsPerRow = 1)
  (narrow : cols ≤ hw.dim) (hr : rows < 2 ^ 16)
include pixels narrow hr

theorem mvin_spad (room : base + rows ≤ hw.spadRows) (hb : base < 2 ^ 29) :
    let t := s.mvin hw sc dramAddr (packed rows cols base) id
    t.settings = s.settings ∧ t.memory = { s.memory with
      spad := modifyGrid rows cols (fun r c => (base + r, c)) (fun r c _ =>
        s.mvinValue sc dramAddr id r c) s.spad } := by
  have hc : cols < 2 ^ 16 := lt_of_le_of_lt narrow hw.dim_lt
  have ha : base < 2 ^ 32 := by omega
  have spad : flag base 31 = false := decide_eq_false (by rw [field]; omega)
  have whole : field base 0 29 = base := by rw [field]; omega
  simp (disch := omega) only [mvin, flag_packed, spad, Bool.false_eq_true, if_false, field_packed_cols,
    field_packed_rows, field_packed, whole, pixels, mvinCells_block]
  rw [require_of (mvinFits_block narrow room)]
  exact ⟨rfl, rfl⟩

theorem mvin_accumulator (room : base + rows ≤ hw.accRows) (hb : base < 2 ^ 29) :
    let t := s.mvin hw sc dramAddr (packed rows cols (1 <<< 31 + base)) id
    t.settings = s.settings ∧ t.memory = { s.memory with
      accumulator := modifyGrid rows cols (fun r c => (base + r, c)) (fun r c _ =>
        s.mvinAccValue sc dramAddr id r c) s.accumulator } := by
  have start : 1 <<< 31 + base = 2 ^ 31 + base := rfl
  rw [start]
  have hc : cols < 2 ^ 16 := lt_of_le_of_lt narrow hw.dim_lt
  have ha : 2 ^ 31 + base < 2 ^ 32 := by omega
  have acc : flag (2 ^ 31 + base) 31 = true := decide_eq_true (by rw [field]; omega)
  have overwrite : flag (2 ^ 31 + base) 30 = false := decide_eq_false (by rw [field]; omega)
  have whole : field (2 ^ 31 + base) 0 29 = base := by rw [field]; omega
  simp (disch := omega) only [mvin, flag_packed, acc, if_true, overwrite, Bool.false_eq_true, if_false,
    field_packed_cols, field_packed_rows, field_packed, whole, pixels, mvinCells_block]
  rw [require_of (mvinFits_block narrow room)]
  exact ⟨rfl, rfl⟩

end Mvin

/-! ### `mvout` -/

theorem storedElem_congr {t : State} (same : t.settings = s.settings) (value : BitVec 32) :
    t.storedElem sc value = s.storedElem sc value := by
  have act : t.accAct = s.accAct := congrArg Settings.accAct same
  have shift : t.accShift = s.accShift := congrArg Settings.accShift same
  have id : t.normStatId = s.normStatId := congrArg Settings.normStatId same
  have qb : t.igeluQb = s.igeluQb := congrArg Settings.igeluQb same
  have qc : t.igeluQc = s.igeluQc := congrArg Settings.igeluQc same
  have ln2 : t.qln2 = s.qln2 := congrArg Settings.qln2 same
  have ln2Inv : t.qln2Inv = s.qln2Inv := congrArg Settings.qln2Inv same
  have stats : (t.norm s.normStatId).stats = (s.norm s.normStatId).stats :=
    congrFun (congrArg Settings.stats same) s.normStatId
  simp only [Norm.stats, Prod.mk.injEq] at stats
  simp only [storedElem, applyPreActivationAcc, act, shift, id, qb, qc, ln2, ln2Inv, stats.1,
    stats.2.1, stats.2.2.1, stats.2.2.2]

theorem settings_norm {norm : ℕ → Norm} (kept : ∀ id, (norm id).stats = (s.norm id).stats) :
    { s with norm := norm }.settings = s.settings :=
  congrArg (fun stats => { s.settings with stats := stats }) (funext kept)

variable (hw sc s) in
theorem mvoutNorm_reset {base cols i : ℕ} (narrow : cols ≤ hw.dim) (room : base + i < hw.accRows) :
    ∃ t : State, t.settings = s.settings ∧ t.memory = s.memory ∧
      s.mvoutNorm hw sc base cols i .reset = (t, true) := by
  rcases Nat.eq_zero_or_pos cols with rfl | some
  · refine ⟨s, rfl, rfl, ?_⟩
    have none : (0 + hw.dim - 1) / hw.dim = 0 := Nat.div_eq_of_lt (by have := hw.dim_pos; omega)
    rw [mvoutNorm, none, forRange_zero]
  · have kept : ∀ id, (modify s.normStatId (fun _ => s.applyNorm sc (s.norm s.normStatId)
        (fun k => s.accumulator (base + i, k)) cols .reset) s.norm id).stats = (s.norm id).stats := by
      intro id
      by_cases h : id = s.normStatId
      · subst h
        rw [modify_same]
        simp only [applyNorm]
        split <;> rfl
      · rw [modify_of_ne h]
    have one : (cols + hw.dim - 1) / hw.dim = 1 := Nat.div_eq_of_lt_le (by omega) (by omega)
    have len : (if cols > hw.dim then hw.dim else cols) = cols := if_neg (by omega)
    have last : (if 0 + hw.dim ≥ cols then NormCmd.reset else nonTerminating .reset) = .reset :=
      if_pos (by omega)
    refine ⟨_, settings_norm kept, rfl, ?_⟩
    rw [mvoutNorm, one, forRange_succ, forRange_zero]
    simp only [zero_mul, Nat.sub_zero, Nat.add_zero, len, last, decide_true]
    rw [require_of room]

theorem mvoutRow_elems {dramAddr base cols i : ℕ} (narrow : cols ≤ hw.dim)
    (room : base + i < hw.accRows) :
    forRange cols (fun j s => s.mvoutElem hw sc dramAddr base i j true false) s = { s with
      dram := forRange cols (fun j => modify (dramAddr + i * s.storeStride + j) fun _ =>
        s.storedElem sc (s.accumulator (base + i, j))) s.dram } := by
  induction cols with
  | zero => rfl
  | succ n ih =>
    have first : n / hw.dim = 0 := Nat.div_eq_of_lt (by omega)
    have within : n % hw.dim = n := Nat.mod_eq_of_lt (by omega)
    rw [forRange_succ, ih (by omega), forRange_succ]
    simp only [mvoutElem, first, within, zero_mul, Nat.add_zero, if_true, Bool.false_eq_true, if_false]
    exact require_of room

variable (hw sc s) in
theorem mvout_block (dramAddr : ℕ) {base rows cols : ℕ} (plain : s.pool.stride = 0)
    (narrow : cols ≤ hw.dim) (hr : rows < 2 ^ 16) (room : base + rows ≤ hw.accRows)
    (hb : base < 2 ^ 26) :
    let t := s.mvout hw sc dramAddr (packed rows cols (3 <<< 30 + base))
    t.settings = s.settings ∧ t.memory = { s.memory with
      dram := modifyGrid rows cols (fun r c => dramAddr + r * s.storeStride + c) (fun r c _ =>
        s.storedElem sc (s.accumulator (base + r, c))) s.dram } := by
  have start : 3 <<< 30 + base = 3 * 2 ^ 30 + base := rfl
  rw [start]
  have hc : cols < 2 ^ 16 := lt_of_le_of_lt narrow hw.dim_lt
  have ha : 3 * 2 ^ 30 + base < 2 ^ 32 := by omega
  have acc : flag (3 * 2 ^ 30 + base) 31 = true := decide_eq_true (by rw [field]; omega)
  have elems : flag (3 * 2 ^ 30 + base) 29 = false := decide_eq_false (by rw [field]; omega)
  have cmd : field (3 * 2 ^ 30 + base) 26 3 = 0 := by rw [field]; omega
  have whole : field (3 * 2 ^ 30 + base) 0 26 = base := by rw [field]; omega
  simp (disch := omega) only [mvout, plain, if_true, flag_packed, acc, elems, field_packed_cols,
    field_packed_rows, field_packed, whole, cmd, NormCmd.decode]
  clear hr
  induction rows with
  | zero => exact ⟨rfl, rfl⟩
  | succ n ih =>
    obtain ⟨settings, memory⟩ := ih (by omega)
    rw [forRange_succ]
    generalize forRange n _ s = u at settings memory ⊢
    obtain ⟨t, settings', memory', reset⟩ := mvoutNorm_reset hw sc u narrow
      (show base + n < hw.accRows by omega)
    rw [settings] at settings'
    rw [memory] at memory'
    simp only [reset, if_true]
    rw [mvoutRow_elems narrow (by omega)]
    refine ⟨settings', ?_⟩
    have stride : t.storeStride = s.storeStride := congrArg Settings.storeStride settings'
    simp only [State.memory, Memory.mk.injEq] at memory' ⊢
    simp only [storedElem_congr settings', stride, memory', and_true]
    rfl

/-! ### `preload` and `compute` -/

section

variable (hw) (s)

def blockA (base lines depth r x : ℕ) : BitVec 8 :=
  if r < lines ∧ x < depth then s.spad (if s.aTranspose then (base + x, r) else (base + r, x)) else 0

def blockPe (base depth width x y : ℕ) : BitVec 32 :=
  if x < hw.dim ∧ y < hw.dim then
    if x < depth ∧ y < width then
      (s.spad (if s.bTranspose then (base + y, x) else (base + x, y))).signExtend 32
    else 0
  else s.pe x y

/-- The product of a block of A with what the processing elements hold. -/
def blockSum (base lines depth : ℕ) (pe : ℕ → ℕ → BitVec 32) (r c : ℕ) : BitVec 32 :=
  ∑ x ∈ Finset.range hw.dim, (s.blockA base lines depth r x).signExtend 32 * pe x c

/-- Configured for the weight-stationary dataflow, with operands in consecutive rows. -/
structure Ws : Prop where
  mode : s.mode = .ws
  aStride : s.aStride = 1
  cStride : s.cStride = 1

end

theorem loadPes_block {base depth width : ℕ} (ws : s.mode = .ws) (addr : s.preloadAddr = base)
    (rows : s.preloadRows = depth) (cols : s.preloadCols = width)
    (room : base + hw.dim ≤ hw.spadRows) :
    s.loadPes hw = { s with pe := s.blockPe hw base depth width } := by
  have valid : base < 2 ^ 29 := by
    have := hw.spad_le
    have := hw.dim_pos
    unfold Hw.spadRows at room
    omega
  have real : ¬ base = garbageAddr := by
    unfold garbageAddr
    omega
  have spad : field base 30 2 = 0 := by rw [field]; omega
  rw [loadPes, require_of]
  · simp only [ws, addr, rows, cols, real, if_false, true_and]
    rfl
  · refine Or.inr ⟨by rw [addr, spad], fun i hi j hj => ?_⟩
    rw [addr]
    split <;> omega

theorem multiply_block {aAddr base lines width depth : ℕ} {keep : Bool} (ws : s.Ws)
    (out : s.outputAddr = (if keep then 3 * 2 ^ 30 else 2 ^ 31) + base) (rows : s.outputRows = lines)
    (cols : s.outputCols = width) (hl : lines ≤ hw.dim) (hb : width ≤ hw.dim) (hd : depth ≤ hw.dim)
    (room : base + lines ≤ hw.accRows) (ha : aAddr < 2 ^ 29) :
    s.multiply hw (packed lines depth aAddr) (packed hw.dim hw.dim garbageAddr) = { s with
      accumulator := modifyGrid lines width (fun r c => (base + r, c)) (fun r c old =>
        if keep then old + s.blockSum hw aAddr lines depth s.pe r c
        else s.blockSum hw aAddr lines depth s.pe r c) s.accumulator } := by
  have bound := hw.dim_lt
  have accs := hw.acc_le
  have hD : depth < 2 ^ 16 := by omega
  have addrA : field (packed lines depth aAddr) 0 32 = aAddr := by
    rw [field_packed hD (by omega) (by norm_num), field]
    omega
  have realA : ¬ aAddr = garbageAddr := by unfold garbageAddr; omega
  have addrD : field (packed hw.dim hw.dim garbageAddr) 0 32 = garbageAddr := by
    rw [field_packed bound (by decide) (by norm_num)]
    rfl
  have real : ¬ s.outputAddr = garbageAddr := by
    rw [out]
    unfold garbageAddr
    split <;> omega
  have acc : flag s.outputAddr 31 = true := decide_eq_true (by rw [out, field]; split <;> omega)
  have accum : flag s.outputAddr 30 = keep := by
    rw [out]
    cases keep
    · exact decide_eq_false (by rw [field]; simp only [Bool.false_eq_true, if_false]; omega)
    · exact decide_eq_true (by rw [field]; simp only [if_true]; omega)
  have whole : field s.outputAddr 0 29 = base := by rw [out, field]; split <;> omega
  have os : ¬ s.mode = .os := by rw [ws.mode]; decide
  have elemA : ∀ r x, s.computeA aAddr lines depth r x = s.blockA aAddr lines depth r x := by
    intro r x
    simp only [computeA, realA, if_false, ws.aStride, one_mul, blockA]
  rw [multiply]
  simp (disch := omega) only [addrA, addrD, field_packed_rows, field_packed_cols, os, false_and, if_false, real, acc, if_true, accum,
    whole, rows, cols, ws.cStride, one_mul, elemA, true_or, forRange_add, zero_add]
  exact require_of fun i hi => ⟨by omega, by omega, hb⟩

theorem computeFits_block {aAddr lines depth : ℕ} (ws : s.Ws) (hd : depth < 2 ^ 16)
    (room : aAddr + hw.dim ≤ hw.spadRows) (ha : aAddr < 2 ^ 29) :
    s.ComputeFits hw (packed lines depth aAddr) (packed hw.dim hw.dim garbageAddr) := by
  have bound := hw.dim_lt
  refine ⟨Or.inr fun i hi k hk => ?_, Or.inl ?_⟩
  · rw [field_packed hd (by omega) (by norm_num), field, ws.aStride]
    split <;> omega
  · rw [field_packed bound (by decide) (by norm_num)]
    rfl

theorem compute_block {aAddr bAddr base lines width depth : ℕ} (first keep : Bool) (ws : s.Ws)
    (hl : lines ≤ hw.dim) (hb : width ≤ hw.dim) (hd : depth ≤ hw.dim)
    (room : base + lines ≤ hw.accRows) (roomA : aAddr + hw.dim ≤ hw.spadRows)
    (roomB : bAddr + hw.dim ≤ hw.spadRows) :
    let t := (s.preload (packed depth width (if first then bAddr else garbageAddr))
      (packed lines width ((if keep then 3 * 2 ^ 30 else 2 ^ 31) + base))).compute hw
      (packed lines depth aAddr) (packed hw.dim hw.dim garbageAddr) first
    let pe := if first then s.blockPe hw bAddr depth width else s.pe
    t.settings = s.settings ∧ t.memory = { s.memory with
      pe := pe
      accumulator := modifyGrid lines width (fun r c => (base + r, c)) (fun r c old =>
        if keep then old + s.blockSum hw aAddr lines depth pe r c
        else s.blockSum hw aAddr lines depth pe r c) s.accumulator } := by
  have bound := hw.dim_lt
  have accs := hw.acc_le
  have spads : aAddr < 2 ^ 29 ∧ bAddr < 2 ^ 29 := by
    have := hw.spad_le
    have := hw.dim_pos
    unfold Hw.spadRows at roomA roomB
    omega
  have hW : width < 2 ^ 16 := by omega
  obtain ⟨dst, dst_eq⟩ : ∃ dst, dst = (if keep then 3 * 2 ^ 30 else 2 ^ 31) + base := ⟨_, rfl⟩
  rw [← dst_eq]
  have outBound : dst < 2 ^ 32 := by
    rw [dst_eq]
    split <;> omega
  have out : field (packed lines width dst) 0 32 = dst := by
    rw [field_packed hW outBound (by norm_num), field]
    omega
  replace out := out.trans dst_eq
  have outCols : field (packed lines width dst) 32 16 = width := field_packed_cols hW outBound
  have outRows := field_packed_rows (show lines < 2 ^ 16 by omega) hW outBound
  cases first with
  | false =>
    rw [compute, if_neg Bool.false_ne_true, require_of (computeFits_block ?_ (by omega) roomA spads.1),
      multiply_block ?_ out outRows outCols hl hb hd room spads.1]
    · exact ⟨rfl, rfl⟩
    all_goals exact ⟨ws.mode, ws.aStride, ws.cStride⟩
  | true =>
    have preBound : bAddr < 2 ^ 32 := by omega
    have pre : field (packed depth width bAddr) 0 32 = bAddr := by
      rw [field_packed hW preBound (by norm_num), field]
      omega
    have preCols : field (packed depth width bAddr) 32 16 = width := field_packed_cols hW preBound
    have preRows := field_packed_rows (show depth < 2 ^ 16 by omega) hW preBound
    have loaded := loadPes_block (s := s.preload (packed depth width bAddr) (packed lines width dst))
      ws.mode pre preRows preCols roomB
    rw [if_pos rfl, compute, if_pos rfl, loaded, require_of (computeFits_block ?_ (by omega) roomA spads.1),
      multiply_block ?_ out outRows outCols hl hb hd room spads.1]
    · exact ⟨rfl, rfl⟩
    all_goals exact ⟨ws.mode, ws.aStride, ws.cStride⟩

end State

end Gemmini.Simulator
