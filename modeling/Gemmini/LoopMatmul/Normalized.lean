import Gemmini.LoopMatmul.Coverage

/-!
# Stores of a normalization

For a layer normalization or a softmax StC goes over each row of a tile three times, two rows at a time,
and names the statistics of a row before each of its stores.  The functional model takes `NORM_STAT_IDS`
rows at a time.
-/

namespace Gemmini.LoopMatmul

open Gemmini.Walker (steps group Stretch mem_steps)
open Odometer (floorAdd)
open Simulator (Hw fourHw LoopArgs LoopWs Move Op field flag side Activation normCmds)

/-! ### The commands of StC -/

section Stream

variable {p : Params} {req : StCReq}

def StCReq.rowsAt (p : Params) (req : StCReq) (i : ℕ) : ℕ := rowsOf p p.mvoutRowsBits i req.maxI req.padI

/-- For each group of two rows the three phases, in each of them the rows one after the other. -/
def StCReq.normStream (p : Params) (req : StCReq) : List OutCmd :=
  (steps 1 req.maxI).flatMap fun i =>
    (steps normStatIds (req.rowsAt p i)).flatMap fun row =>
      (steps 1 3).flatMap fun cmd =>
        (steps 1 (min normStatIds (req.rowsAt p i - row))).flatMap fun statId =>
          [.configNorm statId] ++
            (steps (req.maxBlocks p) req.maxJ).flatMap fun j => [req.lnMvoutCmd p ⟨j, i, row, cmd, statId⟩]

theorem StCReq.lnStatIds_eq {c : StCCounters} (small : req.rowsAt p c.i < 2 ^ 16)
    (inside : c.lnRow < req.rowsAt p c.i) :
    req.lnStatIds p c = min normStatIds (req.rowsAt p c.i - c.lnRow) := by
  have cast : ((req.rows p c : ℤ) - c.lnRow) = ((req.rowsAt p c.i - c.lnRow : ℕ) : ℤ) := by
    change ((req.rowsAt p c.i : ℤ) - c.lnRow) = _
    omega
  unfold StCReq.lnStatIds
  rw [cast, wire_natCast (by omega)]
  simp only [normStatIds, gt_iff_lt]
  split_ifs <;> omega

variable (posJ : 0 < req.maxJ) (ltJ : req.maxJ < 2 ^ 16) (posI : 0 < req.maxI) (ltI : req.maxI < 2 ^ 16)
  (blocks : 0 < req.maxBlocks p)
include posJ ltJ posI ltI blocks

theorem StCReq.lnNext_eq {c : StCCounters} (small : req.rowsAt p c.i < 2 ^ 16) (inside : c.lnRow < req.rowsAt p c.i) :
    req.lnNext p c =
      if c.j + req.maxBlocks p < req.maxJ then { c with j := c.j + req.maxBlocks p }
      else if c.lnStatId + 1 < min normStatIds (req.rowsAt p c.i - c.lnRow) then
        { c with j := 0, lnStatId := c.lnStatId + 1 }
      else if c.lnCmd + 1 < 3 then ⟨0, c.i, c.lnRow, c.lnCmd + 1, 0⟩
      else if c.lnRow + normStatIds < req.rowsAt p c.i then ⟨0, c.i, c.lnRow + normStatIds, 0, 0⟩
      else if c.i + 1 < req.maxI then ⟨0, c.i + 1, 0, 0, 0⟩
      else ⟨0, 0, 0, 0, 0⟩ := by
  have ids := StCReq.lnStatIds_eq small inside
  have rows : req.rows p c = req.rowsAt p c.i := rfl
  have ids_pos : 0 < min normStatIds (req.rowsAt p c.i - c.lnRow) := by
    simp only [normStatIds]
    omega
  have ids_lt : min normStatIds (req.rowsAt p c.i - c.lnRow) < 2 ^ 17 := by omega
  have rows_pos : 0 < req.rowsAt p c.i := Nat.zero_lt_of_lt inside
  have two : 0 < normStatIds := by decide
  unfold StCReq.lnNext
  rw [ids, rows]
  simp only [Odometer.floorAdd_of_pos posJ ltJ, Odometer.floorAdd_of_pos posI ltI,
    Odometer.floorAdd_of_pos ids_pos ids_lt, Odometer.floorAdd_of_pos rows_pos small,
    Odometer.floorAdd_of_pos (show 0 < 3 by decide) (show 3 < 2 ^ 16 by decide)]
  by_cases moreJ : c.j + req.maxBlocks p < req.maxJ
  · simp [moreJ, blocks.ne']
  · by_cases moreId : c.lnStatId + 1 < min normStatIds (req.rowsAt p c.i - c.lnRow)
    · simp [moreJ, moreId]
    · by_cases moreCmd : c.lnCmd + 1 < 3
      · simp [moreJ, moreId, moreCmd]
      · by_cases moreRow : c.lnRow + normStatIds < req.rowsAt p c.i
        · simp [moreJ, moreId, moreCmd, moreRow, two.ne']
        · by_cases moreI : c.i + 1 < req.maxI <;> simp [moreJ, moreId, moreCmd, moreRow, moreI]

def normPos (i row cmd statId : ℕ) : StCPhase × StCCounters := (.lnConfig, ⟨0, i, row, cmd, statId⟩)

def normStorePos (i row cmd statId j : ℕ) : StCPhase × StCCounters := (.lnSt, ⟨j, i, row, cmd, statId⟩)

theorem StCReq.step_store {i row cmd statId j : ℕ}
    (small : req.rowsAt p i < 2 ^ 16) (inside : row < req.rowsAt p i) :
    (StCReq.spec p).step req (normStorePos i row cmd statId j) =
      if j + req.maxBlocks p < req.maxJ then some (normStorePos i row cmd statId (j + req.maxBlocks p))
      else if statId + 1 < min normStatIds (req.rowsAt p i - row) then some (normPos i row cmd (statId + 1))
      else if cmd + 1 < 3 then some (normPos i row (cmd + 1) 0)
      else if row + normStatIds < req.rowsAt p i then some (normPos i (row + normStatIds) 0 0)
      else if i + 1 < req.maxI then some (normPos (i + 1) 0 0 0) else none := by
  have next := StCReq.lnNext_eq (p := p) (c := ⟨j, i, row, cmd, statId⟩) posJ ltJ posI ltI blocks small inside
  have two : 0 < normStatIds := by decide
  simp only [StCReq.spec, normStorePos, normPos, next]
  split_ifs <;> simp_all

theorem StCReq.total_of_norm (normal : req.normalizes = true) (alive : req.dramAddr ≠ 0)
    (some_rows : ∀ i < req.maxI, 0 < req.rowsAt p i)
    (small : ∀ i < req.maxI, req.rowsAt p i < 2 ^ 16) :
    Gemmini.Walker.Total (StCReq.spec p) req (req.normStream p) := by
  have start : (StCReq.spec p).start req = normPos 0 0 0 0 := by simp [StCReq.spec, normal, normPos]
  have dead : (StCReq.spec p).dead req = false := beq_eq_false_iff_ne.mpr alive
  rw [Gemmini.Walker.total_iff_emits dead, start]
  apply Stretch.emits
  apply Stretch.loop (P := fun i => normPos i 0 0 0) Nat.one_pos posI
  intro i _ hi
  apply Stretch.loop (P := fun row => normPos i row 0 0) (by decide) (some_rows i hi)
  intro row _ hrow
  apply Stretch.loop (P := fun cmd => normPos i row cmd 0) Nat.one_pos (by decide)
  intro cmd _ hcmd
  apply Stretch.loop (P := fun statId => normPos i row cmd statId) Nat.one_pos (by simp only [normStatIds]; omega)
  intro statId _ hid
  apply Stretch.append (y := normStorePos i row cmd statId 0) (.of_step rfl rfl)
  apply Stretch.loop (P := fun j => normStorePos i row cmd statId j) blocks posJ
  intro j _ hj
  exact .of_step rfl (StCReq.step_store posJ ltJ posI ltI blocks (small i hi) hrow)

end Stream

/-! ### The steps of a normalization -/

/-- A normalization names the statistics of a row, or stores a block of a row with a command. -/
inductive NormStep
  | config (statId : ℕ)
  | store (x : Piece) (norm : ℕ)
  deriving DecidableEq, Repr

/-- `NormCmd.non_reset_version`. -/
def nonResetVersion : ℕ → ℕ
  | 2 => 1
  | 4 => 3
  | 7 => 6
  | n => n

/-- The steps of a command.  The store controller ends the statistics with the last block only. -/
def OutCmd.normSteps (blockSize bytes : ℕ) : OutCmd → List NormStep
  | .configNorm statId => [.config statId]
  | .store dram src =>
    (List.range (src.count blockSize)).map fun m =>
      .store (src.block blockSize bytes dram m)
        (if m + 1 = src.count blockSize then src.addr.normCmd else nonResetVersion src.addr.normCmd)
  | _ => []

/-- The step of an operation of the functional model, in a region of the accumulator. -/
def NormStep.ofOp (base : ℕ) : Op → Option NormStep
  | .config statId => some (.config statId)
  | .mvout m =>
    some (.store ⟨m.dram, m.rows, m.cols, flag m.addr 31, false, flag m.addr 29, base + field m.addr 0 26⟩
      (field m.addr 26 3))
  | _ => none

/-- A normalization that takes `n` rows at a time; `x` has the blocks of each row. -/
def normSweep (n maxI maxJ : ℕ) (rows : ℕ → ℕ) (norm : ℕ → ℕ → ℕ) (x : ℕ → ℕ → ℕ → Piece) : List NormStep :=
  (List.range maxI).flatMap fun i => (steps n (rows i)).flatMap fun row => (List.range 3).flatMap fun cmd =>
    (List.range (min n (rows i - row))).flatMap fun statId =>
      .config statId :: (List.range maxJ).map fun j => .store (x i (row + statId) j) (norm cmd j)

section Sweep

variable {n m maxI maxJ : ℕ} {rows : ℕ → ℕ} {norm : ℕ → ℕ → ℕ} {x y : ℕ → ℕ → ℕ → Piece}

theorem config_mem_normSweep (pos : 0 < n) {statId : ℕ} :
    .config statId ∈ normSweep n maxI maxJ rows norm x ↔ statId < n ∧ ∃ i < maxI, statId < rows i := by
  simp only [normSweep, List.mem_flatMap, List.mem_range, List.mem_cons, NormStep.config.injEq, List.mem_map,
    reduceCtorEq, and_false, exists_false, or_false, mem_steps pos]
  constructor
  · rintro ⟨i, hi, row, ⟨-, hrow⟩, _, _, _, hid, rfl⟩
    exact ⟨by omega, i, hi, by omega⟩
  · rintro ⟨hn, i, hi, hid⟩
    exact ⟨i, hi, 0, ⟨dvd_zero n, by omega⟩, 0, by decide, statId, by omega, rfl⟩

theorem store_mem_normSweep (pos : 0 < n) {z : Piece} {a : ℕ} :
    .store z a ∈ normSweep n maxI maxJ rows norm x ↔
      ∃ i < maxI, ∃ r < rows i, ∃ cmd < 3, ∃ j < maxJ, x i r j = z ∧ norm cmd j = a := by
  simp only [normSweep, List.mem_flatMap, List.mem_range, List.mem_cons, reduceCtorEq, List.mem_map,
    NormStep.store.injEq, false_or, mem_steps pos]
  constructor
  · rintro ⟨i, hi, row, ⟨-, hrow⟩, cmd, hcmd, statId, hid, j, hj, same⟩
    exact ⟨i, hi, row + statId, by omega, cmd, hcmd, j, hj, same⟩
  · rintro ⟨i, hi, r, hr, cmd, hcmd, j, hj, same⟩
    have split := Nat.div_add_mod r n
    have rest := Nat.mod_lt r pos
    refine ⟨i, hi, n * (r / n), ⟨dvd_mul_right n _, by omega⟩, cmd, hcmd, r % n, by omega, j, hj, ?_⟩
    rwa [split]

theorem steps_eq_of_le {len : ℕ} (le : len ≤ n) (some_rows : 0 < len) : steps n len = [0] := by
  have one : (len + n - 1) / n = 1 := Nat.div_eq_of_lt_le (by omega) (by omega)
  simp [steps, one]

theorem normSweep_congr (same : ∀ i < maxI, ∀ r < rows i, ∀ j < maxJ, x i r j = y i r j) (pos : 0 < n) :
    normSweep n maxI maxJ rows norm x = normSweep n maxI maxJ rows norm y := by
  unfold normSweep
  apply List.flatMap_congr
  intro i hi
  apply List.flatMap_congr
  intro row hrow
  apply List.flatMap_congr
  intro cmd _
  apply List.flatMap_congr
  intro statId hid
  congr 1
  apply List.map_congr_left
  intro j hj
  have id := List.mem_range.mp hid
  rw [same i (List.mem_range.mp hi) (row + statId) (by omega) j (List.mem_range.mp hj)]

theorem normSweep_eq_of_le (some_rows : ∀ i < maxI, 0 < rows i)
    (le : ∀ i < maxI, rows i ≤ min m n) :
    normSweep m maxI maxJ rows norm x = normSweep n maxI maxJ rows norm x := by
  unfold normSweep
  apply List.flatMap_congr
  intro i mem
  have hi := List.mem_range.mp mem
  have few := le i hi
  rw [steps_eq_of_le (by omega) (some_rows i hi), steps_eq_of_le (by omega) (some_rows i hi)]
  have both : min m (rows i - 0) = min n (rows i - 0) := by omega
  simp only [List.flatMap_singleton, both]

/-- Two normalizations take the same steps just when they take the same rows together and store the same
blocks. -/
theorem normSweep_eq_iff (posM : 0 < m) (posN : 0 < n) (some_rows : ∀ i < maxI, 0 < rows i)
    (place : ∀ i < maxI, ∀ r < rows i, ∀ j < maxJ, ∀ i' < maxI, ∀ r' < rows i', ∀ j' < maxJ,
      x i r j = y i' r' j' → i = i' ∧ r = r' ∧ j = j') :
    normSweep m maxI maxJ rows norm x = normSweep n maxI maxJ rows norm y ↔
      (n = m ∨ ∀ i < maxI, rows i ≤ min m n) ∧ ∀ i < maxI, ∀ r < rows i, ∀ j < maxJ, x i r j = y i r j := by
  constructor
  · intro eq
    have ids : ∀ statId, (statId < m ∧ ∃ i < maxI, statId < rows i) ↔
        (statId < n ∧ ∃ i < maxI, statId < rows i) := by
      intro statId
      have left : NormStep.config statId ∈ normSweep m maxI maxJ rows norm x ↔ _ := config_mem_normSweep posM
      rw [← left, eq, config_mem_normSweep posN]
    constructor
    · by_contra differ
      push Not at differ
      obtain ⟨other, i, hi, more⟩ := differ
      have here := ids (min m n)
      rcases Nat.lt_or_gt_of_ne other with less | less
      · have := (here.mp ⟨by omega, i, hi, more⟩).1
        omega
      · have := (here.mpr ⟨by omega, i, hi, more⟩).1
        omega
    · intro i hi r hr j hj
      have mem : NormStep.store (x i r j) (norm 0 j) ∈ normSweep m maxI maxJ rows norm x :=
        (store_mem_normSweep posM).mpr ⟨i, hi, r, hr, 0, by decide, j, hj, rfl, rfl⟩
      rw [eq] at mem
      obtain ⟨i', hi', r', hr', -, -, j', hj', same, -⟩ := (store_mem_normSweep posN).mp mem
      obtain ⟨rfl, rfl, rfl⟩ := place i hi r hr j hj i' hi' r' hr' j' hj' same.symm
      exact same.symm
  · rintro ⟨rfl | few, same⟩
    · exact normSweep_congr same posM
    · rw [normSweep_congr same posM]
      exact normSweep_eq_of_le some_rows few

end Sweep

/-! ### The steps of StC -/

section Hardware

variable {p : Params} {req : StCReq}

theorem nonResetVersion_normCmd (act cmd : ℕ) (last : Bool) :
    nonResetVersion (normCmd act cmd last) = normCmd act cmd false := by
  unfold normCmd
  split
  · rcases cmd with _ | _ | cmd <;> cases last <;> rfl
  · rcases cmd with _ | _ | cmd <;> cases last <;> rfl

/-- Row `r` of a block of C.  The offset of a block always counts elements of the inputs. -/
def StCReq.rowPiece (p : Params) (req : StCReq) (i r j : ℕ) : Piece where
  dram := req.dramAddr + ((i * req.dramStride + j) * p.blockSize + r * req.dramStride) * (p.inputW / 8)
  rows := 1
  cols := p.blockSize - if j = req.maxJ - 1 then req.padJ else 0
  acc := true
  accumulate := false
  full := req.fullC
  row := req.addrStart + (i * req.maxJ + j) * p.blockSize + r

def RowsInMemory (p : Params) (dram stride maxI maxJ : ℕ) : Prop :=
  ∀ i < maxI, ∀ r < p.blockSize, ∀ j < maxJ,
    ((i * stride + j) * p.blockSize + r * stride) * (p.inputW / 8) < 2 ^ 32 ∧
      dram + ((i * stride + j) * p.blockSize + r * stride) * (p.inputW / 8) < 2 ^ p.coreMaxAddrBits

def StCReq.lnSource (p : Params) (req : StCReq) (c : StCCounters) : Operand where
  rows := 1
  cols := req.cols p c
  addr :=
    { castToAccAddr p.geometry (req.addrStart + (c.i * req.maxJ + c.j) * p.blockSize +
        ((c.lnRow + c.lnStatId : ℕ) : ℤ)) false req.fullC with
      normCmd := normCmd req.act c.lnCmd (c.j + req.maxBlocks p ≥ req.maxJ) }

theorem StCReq.lnMvoutCmd_eq (c : StCCounters) : req.lnMvoutCmd p c =
    .store (dramAddrOf p req.dramAddr
      (((c.i * req.dramStride + c.j) * p.blockSize + (c.lnRow + c.lnStatId) * req.dramStride) *
        (p.inputW / 8))) (req.lnSource p c) := rfl

theorem StCReq.lnSource_data (sized : (req.grid p).Sized p (req.len p) p.mvoutRowsBits p.mvoutColsBits)
    {i row cmd statId j : ℕ} (hi : i < req.maxI) (hr : row + statId < p.blockSize) (hj : j < req.maxJ) :
    (req.lnSource p ⟨j, i, row, cmd, statId⟩).addr.data =
      req.addrStart + (i * req.maxJ + j) * p.blockSize + (row + statId) := by
  have below := block_end_le p.blockSize hi hj
  have room : req.addrStart + req.maxI * req.maxJ * p.blockSize ≤ 2 ^ p.geometry.maxAddrBits := sized.room
  have cast : ((req.addrStart : ℤ) + ((i : ℤ) * req.maxJ + j) * p.blockSize + ((row + statId : ℕ) : ℤ)) =
      ((req.addrStart + (i * req.maxJ + j) * p.blockSize + (row + statId) : ℕ) : ℤ) := by push_cast; ring
  change wire p.geometry.maxAddrBits ((req.addrStart : ℤ) + ((i : ℤ) * req.maxJ + j) * p.blockSize +
    ((row + statId : ℕ) : ℤ)) = _
  rw [cast, wire_natCast (by omega)]

theorem StCReq.bytes_eq (req : StCReq) {m : ℕ} (few : m < req.maxBlocks p) :
    m * p.blockSize * (req.grid p).bytes = m * p.blockSize * (p.inputW / 8) := by
  cases full : req.fullC with
  | false => simp [StCReq.grid, full]
  | true =>
    obtain rfl : m = 0 := by
      simp only [StCReq.maxBlocks, full, if_true] at few
      omega
    simp

theorem StCReq.norm_eq (cmd : ℕ) {j m n : ℕ} (hm : m < n) (count : n = min (req.maxBlocks p) (req.maxJ - j))
    (hj : j < req.maxJ) :
    (if m + 1 = n then normCmd req.act cmd (j + req.maxBlocks p ≥ req.maxJ)
      else nonResetVersion (normCmd req.act cmd (j + req.maxBlocks p ≥ req.maxJ))) =
      normCmd req.act cmd (j + m + 1 = req.maxJ) := by
  split_ifs with last
  · congr 1
    apply decide_eq_decide.mpr
    omega
  · rw [nonResetVersion_normCmd]
    congr 1
    exact (decide_eq_false (by omega)).symm

variable (sized : (req.grid p).Sized p (req.len p) p.mvoutRowsBits p.mvoutColsBits)
  (memory : RowsInMemory p req.dramAddr req.dramStride req.maxI req.maxJ)
include sized memory

theorem StCReq.store_steps {i row cmd statId j : ℕ} (hi : i < req.maxI) (hr : row + statId < p.blockSize)
    (hj : j < req.maxJ) :
    (req.lnMvoutCmd p ⟨j, i, row, cmd, statId⟩).normSteps p.blockSize (req.grid p).bytes =
      (group (req.maxBlocks p) req.maxJ j).map fun v =>
        .store (req.rowPiece p i (row + statId) v) (normCmd req.act cmd (v + 1 = req.maxJ)) := by
  have blocks := StCReq.maxBlocks_eq (p := p) req sized.cols_pos
  have cols : (req.lnSource p ⟨j, i, row, cmd, statId⟩).cols = colsOf p p.mvoutColsBits
      (blocksOf (maxBlocksOf (req.len p) req.maxJ) j req.maxJ) j req.maxJ req.padJ := by
    change req.cols p _ = _
    rw [StCReq.cols, StCReq.blocks, blocks]
  obtain ⟨offset, address⟩ := memory i hi (row + statId) hr j hj
  obtain ⟨count, block⟩ := sized.block_eq hj cols (req.grid p).bytes
    (req.dramAddr + ((i * req.dramStride + j) * p.blockSize + (row + statId) * req.dramStride) * (p.inputW / 8))
  change _ = min (maxBlocksOf (req.len p) req.maxJ) (req.maxJ - j) at count
  rw [← blocks] at count
  rw [StCReq.lnMvoutCmd_eq, dramAddrOf_eq offset address,
    OutCmd.normSteps, group, List.range'_eq_map_range, List.map_map, ← count]
  apply List.map_congr_left
  intro m mem
  have hm := List.mem_range.mp mem
  have norm := StCReq.norm_eq cmd hm count hj
  have dram := StCReq.bytes_eq req (show m < req.maxBlocks p by omega)
  rw [block m hm, dram, StCReq.lnSource_data sized hi hr hj]
  refine congrArg₂ NormStep.store ?_ norm
  simp only [StCReq.rowPiece, Piece.mk.injEq]
  exact ⟨by ring, rfl, rfl, rfl, rfl, rfl, by ring⟩

theorem StCReq.normStream_steps (blocks : 0 < req.maxBlocks p) :
    (req.normStream p).flatMap (OutCmd.normSteps p.blockSize (req.grid p).bytes) =
      normSweep normStatIds req.maxI req.maxJ (req.rowsAt p)
        (fun cmd j => normCmd req.act cmd (j + 1 = req.maxJ)) (req.rowPiece p) := by
  unfold StCReq.normStream normSweep
  simp only [Gemmini.Walker.steps_one, List.flatMap_assoc]
  apply List.flatMap_congr
  intro i hi
  apply List.flatMap_congr
  intro row hrow
  apply List.flatMap_congr
  intro cmd _
  apply List.flatMap_congr
  intro statId hid
  have whole : req.rowsAt p i ≤ p.blockSize := by
    have rows : req.rowsAt p i = _ := sized.rows_eq
    rw [rows]
    exact Nat.sub_le _ _
  have id := List.mem_range.mp hid
  have first : (OutCmd.configNorm statId).normSteps p.blockSize (req.grid p).bytes = [.config statId] := rfl
  rw [List.flatMap_append, List.flatMap_singleton, first, List.singleton_append, List.flatMap_assoc]
  congr 1
  rw [← Gemmini.Walker.steps_flatMap_group blocks req.maxJ, List.map_flatMap]
  apply List.flatMap_congr
  intro j hj
  rw [List.flatMap_singleton]
  exact StCReq.store_steps sized memory (List.mem_range.mp hi) (by omega)
    ((mem_steps blocks).mp hj).2

end Hardware

/-! ### The steps of the functional model -/

section Functional

variable {p : Params} {hw : Hw} {c : Cfg}

/-- Row `r` of a block of C as the functional model stores it. -/
def Cfg.rowPiece (hw : Hw) (c : Cfg) (base i r j : ℕ) : Piece where
  dram := c.cDramAddr + ((i * c.cDramStride + j) * hw.dim + r * c.cDramStride) * c.loopArgs.sizeofC
  rows := 1
  cols := side hw c.maxJ c.padJ j
  acc := true
  accumulate := false
  full := c.fullC
  row := base + (i * c.maxJ + j) * hw.dim + r

theorem normCmds_eq {act : Activation} (normal : act = .layernorm ∨ act = .softmax)
    (cmd : ℕ) (last : Bool) :
    (if last then (normCmds act cmd).2 else (normCmds act cmd).1) =
      normCmd act.toNat cmd last := by
  rcases normal with rfl | rfl <;> rcases cmd with _ | _ | cmd <;> cases last <;> rfl

theorem normCmd_lt (act cmd : ℕ) (last : Bool) : normCmd act cmd last < 2 ^ 3 := by
  unfold normCmd
  split <;> split <;> cases last <;> decide

theorem ofOp_moveNorm {act : Activation} (normal : act = .layernorm ∨ act = .softmax)
    (base cmd : ℕ) {i r j : ℕ} (small : (i * c.maxJ + j) * hw.dim + r < 2 ^ 26) :
    NormStep.ofOp base (.mvout (c.loopArgs.moveNorm hw c.loopWs act cmd i j r)) =
      some (.store (c.rowPiece hw base i r j) (normCmd act.toNat cmd (j + 1 = c.maxJ))) := by
  have norm := normCmds_eq normal cmd (j + 1 = c.maxJ)
  have three := normCmd_lt act.toNat cmd (j + 1 = c.maxJ)
  have start : c.loopArgs.cSpAddr hw c.loopWs i j + r =
      3 * 2 ^ 30 + c.fullC.toNat * 2 ^ 29 + ((i * c.maxJ + j) * hw.dim + r) := by
    change c.loopArgs.cStart + (i * c.maxJ + j) * hw.dim + r = _
    cases full : c.fullC <;> simp [LoopArgs.cStart, Cfg.loopArgs, full] <;> omega
  have addr : (c.loopArgs.moveNorm hw c.loopWs act cmd i j r).addr =
      (6 + c.fullC.toNat) * 2 ^ 29 + normCmd act.toNat cmd (j + 1 = c.maxJ) * 2 ^ 26 +
        ((i * c.maxJ + j) * hw.dim + r) := by
    rw [← Simulator.normAddr_eq small three, ← start, ← norm]
    simp only [LoopArgs.moveNorm, decide_eq_true_eq]
    rfl
  generalize normCmd act.toNat cmd (j + 1 = c.maxJ) = code at addr three ⊢
  have bits := c.fullC.toNat_le
  have fields : field (c.loopArgs.moveNorm hw c.loopWs act cmd i j r).addr 31 1 = 1 ∧
      field (c.loopArgs.moveNorm hw c.loopWs act cmd i j r).addr 29 1 = c.fullC.toNat ∧
      field (c.loopArgs.moveNorm hw c.loopWs act cmd i j r).addr 26 3 = code ∧
      field (c.loopArgs.moveNorm hw c.loopWs act cmd i j r).addr 0 26 = (i * c.maxJ + j) * hw.dim + r := by
    rw [addr]
    generalize (i * c.maxJ + j) * hw.dim + r = row at small
    unfold field
    omega
  obtain ⟨isAcc, isFull, isNorm, isRow⟩ := fields
  simp only [NormStep.ofOp, flag, isAcc, isFull, isNorm, isRow]
  refine congrArg some (congrArg₂ NormStep.store ?_ rfl)
  simp only [Cfg.rowPiece, Piece.mk.injEq]
  refine ⟨?_, rfl, rfl, rfl, trivial, ?_, by ring⟩
  · change c.cDramAddr + (i * c.cDramStride + j) * hw.dim * c.loopArgs.sizeofC +
      r * c.cDramStride * c.loopArgs.sizeofC = _
    ring
  · cases c.fullC <;> rfl

theorem functional_steps {act : Activation} (normal : act = .layernorm ∨ act = .softmax)
    (same : c.act = act.toNat) (posK : 0 < c.maxK) (posJ : 0 < c.maxJ) (given : c.cDramAddr ≠ 0) (base : ℕ)
    (small : c.maxI * c.maxJ * hw.dim ≤ 2 ^ 26) :
    (c.loopArgs.ops hw c.loopWs).filterMap (NormStep.ofOp base) =
      normSweep hw.normStatIds c.maxI c.maxJ (side hw c.maxI c.padI)
        (fun cmd j => normCmd c.act cmd (j + 1 = c.maxJ)) (c.rowPiece hw base) := by
  rw [Simulator.stores_norm (fun _ _ => rfl) (fun _ _ _ => rfl) posK posJ normal same given]
  unfold normSweep
  apply List.flatMap_congr
  intro i hi
  unfold LoopArgs.normOps steps
  rw [List.filterMap_flatMap, List.flatMap_map]
  apply List.flatMap_congr
  intro g hg
  rw [List.filterMap_flatMap]
  apply List.flatMap_congr
  intro cmd _
  rw [List.filterMap_flatMap, Nat.mul_comm g]
  apply List.flatMap_congr
  intro statId hid
  have id := List.mem_range.mp hid
  have first : NormStep.ofOp base (.config statId) = some (.config statId) := rfl
  rw [List.filterMap_cons_some first, List.filterMap_flatMap]
  congr 1
  rw [List.map_eq_flatMap]
  apply List.flatMap_congr
  intro j hj
  have whole : side hw c.maxI c.padI i ≤ hw.dim := Nat.sub_le _ _
  have below : (i * c.maxJ + j) * hw.dim + hw.dim ≤ c.maxI * c.maxJ * hw.dim :=
    block_end_le hw.dim (List.mem_range.mp hi) (List.mem_range.mp hj)
  have inside : (i * c.maxJ + j) * hw.dim + (hw.normStatIds * g + statId) < 2 ^ 26 := by
    change statId < min hw.normStatIds (side hw c.maxI c.padI i - hw.normStatIds * g) at id
    omega
  rw [List.filterMap_cons_some (ofOp_moveNorm normal base cmd inside), List.filterMap_nil, same]

/-! ### Both sides -/

theorem rowPiece_place (same : p.Matches hw) {base i r j i' r' j' : ℕ} (hr : r < hw.dim) (hj : j < c.maxJ)
    (hr' : r' < hw.dim) (hj' : j' < c.maxJ)
    (eq : (c.stCReq p false base).rowPiece p i r j = c.rowPiece hw base i' r' j') :
    i = i' ∧ r = r' ∧ j = j' := by
  have rows : base + (i * c.maxJ + j) * p.blockSize + r = base + (i' * c.maxJ + j') * hw.dim + r' :=
    congrArg Piece.row eq
  rw [same.dim] at rows
  obtain ⟨blocks, rfl⟩ := index_inj hr hr' (Nat.add_left_cancel (by simpa only [Nat.add_assoc] using rows))
  obtain ⟨rfl, rfl⟩ := index_inj hj hj' blocks
  exact ⟨rfl, rfl, rfl⟩

theorem rowPiece_eq_iff (same : p.Matches hw) (halves : c.InHalves p) (base i r j : ℕ) :
    (c.stCReq p false base).rowPiece p i r j = c.rowPiece hw base i r j ↔
      c.fullC = false ∨ (i * c.cDramStride + j) * p.blockSize + r * c.cDramStride = 0 := by
  have bytes : p.inputW / 8 = 1 := by rw [same.inputW]
  have padJ := pad_mod halves.padJ
  cases full : c.fullC with
  | false =>
    simp [StCReq.rowPiece, Cfg.rowPiece, Cfg.stCReq, full, bytes, padJ, LoopArgs.sizeofC, Cfg.loopArgs,
      side, same.dim]
  | true =>
    simp only [StCReq.rowPiece, Cfg.rowPiece, Cfg.stCReq, full, bytes, padJ, LoopArgs.sizeofC, Cfg.loopArgs,
      side, same.dim, Piece.mk.injEq, if_true, Bool.false_eq_true, if_false, and_true, Bool.true_eq_false,
      false_or]
    omega

theorem side_pos (same : p.Matches hw) (halves : c.InHalves p) (i : ℕ) :
    0 < side hw c.maxI c.padI i := by
  have dim := same.dim
  have pad := halves.padI
  unfold side
  split_ifs <;> omega

theorem offsets_zero_iff (halves : c.InHalves p) (same : p.Matches hw) :
    (∀ i < c.maxI, ∀ r < side hw c.maxI c.padI i, ∀ j < c.maxJ,
        (i * c.cDramStride + j) * p.blockSize + r * c.cDramStride = 0) ↔
      c.maxJ = 1 ∧ (c.cDramStride = 0 ∨ c.maxI * p.blockSize = c.padI + 1) := by
  have posI := halves.posI
  have posJ := halves.posJ
  have padI := halves.padI
  have some_row := side_pos same halves
  constructor
  · intro zero
    have column := zero 0 posI 0 (some_row 0) (c.maxJ - 1) (by omega)
    have one : c.maxJ - 1 = 0 := by
      rw [Nat.zero_mul, Nat.zero_add, Nat.add_zero] at column
      exact (Nat.mul_eq_zero.mp column).resolve_right halves.block_pos.ne'
    refine ⟨by omega, or_iff_not_imp_left.mpr fun apart => ?_⟩
    have blocks := zero (c.maxI - 1) (by omega) 0 (some_row _) 0 posJ
    have single : c.maxI = 1 := by
      rw [Nat.add_zero, Nat.zero_mul, Nat.add_zero] at blocks
      have := (Nat.mul_eq_zero.mp ((Nat.mul_eq_zero.mp blocks).resolve_right halves.block_pos.ne')).resolve_right
        apart
      omega
    have rows := zero 0 posI (side hw c.maxI c.padI 0 - 1) (Nat.sub_lt (some_row 0) Nat.one_pos) 0 posJ
    rw [Nat.zero_mul, Nat.zero_add, Nat.zero_mul, Nat.zero_add] at rows
    have last := (Nat.mul_eq_zero.mp rows).resolve_right apart
    have all : side hw c.maxI c.padI 0 = p.blockSize - c.padI := by
      rw [side, single, if_pos rfl, same.dim]
    rw [single, Nat.one_mul]
    omega
  · rintro ⟨one, flat | single⟩ i hi r hr j hj
    · obtain rfl : j = 0 := by omega
      simp [flat]
    · have once : c.maxI = 1 := by
        by_contra more
        have : 2 * p.blockSize ≤ c.maxI * p.blockSize := Nat.mul_le_mul_right _ (by omega)
        omega
      have all : side hw c.maxI c.padI i = p.blockSize - c.padI := by
        rw [side, if_pos (by omega), same.dim]
      rw [once, Nat.one_mul] at single
      obtain rfl : i = 0 := by omega
      obtain rfl : r = 0 := by omega
      obtain rfl : j = 0 := by omega
      simp

variable (same : p.Matches hw) (wide : p.Wide) (halves : c.InHalves p) {base : ℕ}
  (base_le : base ≤ p.maxAccAddr / 2)
include wide halves base_le

theorem stC_blocks_pos : 0 < (c.stCReq p false base).maxBlocks p := by
  rw [StCReq.maxBlocks_eq _ halves.posJ]
  exact maxBlocksOf_pos (halves.sizedC wide base_le).len_pos halves.posJ

include same

theorem rowsAt_eq : (c.stCReq p false base).rowsAt p = side hw c.maxI c.padI := by
  funext i
  have rows : (c.stCReq p false base).rowsAt p i = _ := (halves.sizedC wide base_le).rows_eq
  rw [rows, side, ← same.dim]
  simp only [StCReq.grid, Cfg.stCReq, pad_mod halves.padI]

variable (normal : c.act = layernorm ∨ c.act = softmax)
include normal

theorem norm_streams (given : c.cDramAddr ≠ 0) :
    (stC p).Streams (c.stCReq p false base) ((c.stCReq p false base).normStream p) := by
  have rowsAt := rowsAt_eq same wide halves base_le
  have rows_le : ∀ i, side hw c.maxI c.padI i ≤ hw.dim := fun i => Nat.sub_le _ _
  apply (stC p).streams_of_total
  refine StCReq.total_of_norm halves.posJ halves.fits.maxJ halves.posI halves.fits.maxI
    (stC_blocks_pos wide halves base_le) ?_ given (fun i _ => ?_) fun i _ => ?_
  · rcases normal with is | is <;> simp [StCReq.normalizes, Cfg.stCReq, is]
  · rw [rowsAt]
    exact side_pos same halves i
  · rw [rowsAt]
    exact (rows_le i).trans_lt hw.dim_lt

/-- In every run StC hands out the commands of a normalization in their order.  Cut into blocks, they are the
steps of the functional model just when both take as many rows at a time, or no row of blocks has more rows
than either takes, and the offsets in main memory agree: they are counted in elements of the inputs, also for
full rows. -/
theorem normalization_iff (given : c.cDramAddr ≠ 0)
    (memory : RowsInMemory p c.cDramAddr c.cDramStride c.maxI c.maxJ) :
    (stC p).Streams (c.stCReq p false base) ((c.stCReq p false base).normStream p) ∧
      (((c.stCReq p false base).normStream p).flatMap (OutCmd.normSteps p.blockSize
            ((if c.fullC then p.accW else p.inputW) / 8)) =
          (c.loopArgs.ops hw c.loopWs).filterMap (NormStep.ofOp base) ↔
        (hw.normStatIds = normStatIds ∨
            ∀ i < c.maxI, side hw c.maxI c.padI i ≤ min normStatIds hw.normStatIds) ∧
          (c.fullC = false ∨
            c.maxJ = 1 ∧ (c.cDramStride = 0 ∨ c.maxI * p.blockSize = c.padI + 1))) := by
  refine ⟨norm_streams same wide halves base_le normal given, ?_⟩
  have rows_le : ∀ i, side hw c.maxI c.padI i ≤ hw.dim := fun i => Nat.sub_le _ _
  have acc : c.maxI * c.maxJ * hw.dim ≤ 2 ^ 26 := by
    have half := halves.acc
    have size := same.acc
    have most := hw.acc_le
    rw [same.dim] at half
    omega
  have code : ∃ act : Activation, (act = .layernorm ∨ act = .softmax) ∧ c.act = act.toNat := by
    rcases normal with is | is
    · exact ⟨.layernorm, .inl rfl, is⟩
    · exact ⟨.softmax, .inr rfl, is⟩
  obtain ⟨act, kind, act_eq⟩ := code
  rw [functional_steps kind act_eq halves.posK halves.posJ given base acc]
  have steps := StCReq.normStream_steps (halves.sizedC wide base_le) memory (stC_blocks_pos wide halves base_le)
  rw [rowsAt_eq same wide halves base_le] at steps
  refine (Eq.congr_left steps).trans ?_
  refine (normSweep_eq_iff (by decide) hw.normStatIds_pos (fun i _ => side_pos same halves i) ?_).trans ?_
  · intro i _ r hr j hj i' _ r' hr' j' hj'
    exact rowPiece_place same (hr.trans_le (rows_le i)) hj (hr'.trans_le (rows_le i')) hj'
  · refine and_congr_right fun _ => ?_
    have each := rowPiece_eq_iff same halves base
    cases full : c.fullC with
    | false => simp [each, full]
    | true =>
      simp only [each, full, Bool.true_eq_false, false_or]
      exact offsets_zero_iff halves same

end Functional

def softmaxCfg : Cfg := { edgeCfg with act := softmax }

theorem softmaxCfg_halves : softmaxCfg.InHalves (.ofArray fourArray) := by
  constructor <;> first | decide | exact ⟨by decide, by decide, by decide⟩

instance (p : Params) (dram stride maxI maxJ : ℕ) : Decidable (RowsInMemory p dram stride maxI maxJ) := by
  unfold RowsInMemory
  infer_instance

/-- With the same number of statistics on both sides a softmax takes the same steps. -/
theorem softmax_same_steps :
    ((softmaxCfg.stCReq (.ofArray fourArray) false 16).normStream (.ofArray fourArray)).flatMap
        (OutCmd.normSteps 4 1) =
      (softmaxCfg.loopArgs.ops fourHw softmaxCfg.loopWs).filterMap (NormStep.ofOp 16) :=
  (normalization_iff fourArray_matches fourArray_wide softmaxCfg_halves (by decide) (.inr rfl) (by decide)
    (by decide)).2.mpr ⟨.inl rfl, .inl rfl⟩

/-- A softmax with full rows: the offset of its second block is counted in bytes, so that it is stored over
the first. -/
theorem full_softmax_differs :
    ∃ es, (stC (.ofArray fourArray)).Streams
        ({ softmaxCfg with fullC := true }.stCReq (.ofArray fourArray) false 16) es ∧
      es.flatMap (OutCmd.normSteps 4 4) ≠
        ({ softmaxCfg with fullC := true }.loopArgs.ops fourHw
          { softmaxCfg with fullC := true }.loopWs).filterMap (NormStep.ofOp 16) := by
  have halves : { softmaxCfg with fullC := true }.InHalves (.ofArray fourArray) := by
    constructor <;> first | decide | exact ⟨by decide, by decide, by decide⟩
  have streams := norm_streams fourArray_matches fourArray_wide halves
    (show 16 ≤ _ by decide) (.inr rfl) (by decide)
  exact ⟨_, streams, by decide⟩

end Gemmini.LoopMatmul
