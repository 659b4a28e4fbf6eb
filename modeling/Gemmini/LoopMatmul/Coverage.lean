import Gemmini.ArrayConfig
import Gemmini.LoopMatmul.Transfers
import Gemmini.Simulator.Trace

/-!
# The tiles of a loop, against the functional model

For a loop that fits one half of each memory, LdA, LdD and StC move just the blocks that `loop_ws`
moves.  The functional model always uses the same regions of the local memories, the array takes turns
with two halves, so that the rows are compared from the start of the region on.
-/

namespace Gemmini.LoopMatmul

open Simulator (Hw fourHw LoopArgs LoopWs Move Op field flag)
open Simulator (side moves_A moves_D stores_C)
open LdAReq (maxRow maxCol rowPad colPad grid row col)

/-! ### The two sides -/

structure Params.Matches (p : Params) (hw : Hw) : Prop where
  dim : p.blockSize = hw.dim
  spad : p.maxAddr = hw.bankNum * hw.bankRows
  acc : p.maxAccAddr = hw.accRows
  inputW : p.inputW = 8
  accW : p.accW = 32

/-- The fields hold what the transfers need, and no memory has more blocks than 16-bit counters can tell
apart. -/
structure Params.Wide (p : Params) : Prop where
  mvinRows : p.blockSize < 2 ^ p.mvinRowsBits
  mvoutRows : p.blockSize < 2 ^ p.mvoutRowsBits
  mvinCols : p.maxBlockLen * p.blockSize < 2 ^ p.mvinColsBits
  mvinColsAcc : p.maxBlockLenAcc * p.blockSize < 2 ^ p.mvinColsBits
  mvoutCols : p.maxBlockLen * p.blockSize < 2 ^ p.mvoutColsBits
  spad : p.maxAddr ≤ 2 ^ 16 * p.blockSize
  acc : p.maxAccAddr ≤ 2 ^ 16 * p.blockSize

def Params.ofArray (a : ArrayConfig) : Params where
  geometry := a.geometry
  blockSize := a.dim
  coreMaxAddrBits := a.coreMaxAddrBits
  inputW := a.inputBytes * 8
  accW := a.accBytes * 8
  dmaMaxBytes := a.dmaMaxbytes
  mvinRowsBits := a.mvinRowsBits
  mvinColsBits := a.mvinColsBits
  mvoutRowsBits := a.mvoutRowsBits
  mvoutColsBits := a.mvoutColsBits

theorem Params.ofArray_wide (a : ArrayConfig) (bytes : a.inputBytes ≤ a.accBytes)
    (spad : a.geometry.spRows ≤ 2 ^ 16 * a.dim) (acc : a.geometry.accRows ≤ 2 ^ 16 * a.dim) :
    (Params.ofArray a).Wide := by
  have rows : a.dim < 2 ^ log2Up (a.dim + 1) := le_two_pow_log2Up (a.dim + 1)
  have longest : (Params.ofArray a).maxBlockLen * a.dim ≤ a.maxCols := by
    have blocks : a.dmaMaxbytes / (a.dim * (a.inputBytes * 8) / 8) = a.dmaMaxbytes / a.inputBytes / a.dim := by
      rw [← Nat.mul_assoc, Nat.mul_div_cancel _ (by decide), Nat.div_div_eq_div_mul, Nat.mul_comm]
    change max (a.dmaMaxbytes / (a.dim * (a.inputBytes * 8) / 8)) 1 * a.dim ≤
      max (a.dmaMaxbytes / a.inputBytes) a.dim
    rw [blocks]
    rcases le_total (a.dmaMaxbytes / a.inputBytes / a.dim) 1 with few | many
    · rw [max_eq_right few, Nat.one_mul]
      exact le_max_right _ _
    · rw [max_eq_left many]
      exact (Nat.div_mul_le_self _ _).trans (le_max_left _ _)
  have shorter : (Params.ofArray a).maxBlockLenAcc ≤ (Params.ofArray a).maxBlockLen := by
    have eight : ∀ bytes, a.dim * (bytes * 8) / 8 = a.dim * bytes := fun bytes => by
      rw [← Nat.mul_assoc, Nat.mul_div_cancel _ (by decide)]
    refine max_le_max ?_ le_rfl
    change a.dmaMaxbytes / (a.dim * (a.accBytes * 8) / 8) ≤ a.dmaMaxbytes / (a.dim * (a.inputBytes * 8) / 8)
    rw [eight, eight]
    exact Nat.div_le_div_left (Nat.mul_le_mul_left _ bytes) (Nat.mul_pos a.dim_pos a.inputBytes_pos)
  have cols : (Params.ofArray a).maxBlockLen * a.dim < 2 ^ log2Up (a.maxCols + 1) :=
    (Nat.lt_succ_of_le longest).trans_le (le_two_pow_log2Up _)
  exact ⟨rows, rows, cols, (Nat.mul_le_mul_right _ shorter).trans_lt cols, cols, spad, acc⟩

def Cfg.loopWs (c : Cfg) : LoopWs where
  I := c.maxI
  J := c.maxJ
  K := c.maxK
  padI := c.padI
  padJ := c.padJ
  padK := c.padK
  A := c.aDramAddr
  B := c.bDramAddr
  D := c.dDramAddr
  C := c.cDramAddr
  strideA := c.aDramStride
  strideB := c.bDramStride
  strideD := c.dDramStride
  strideC := c.cDramStride

/-- What the functional model decodes from the `LOOP_WS` of a multiplication. -/
def Cfg.loopArgs (c : Cfg) : LoopArgs where
  exAccumulate := c.exAccumulate
  fullC := c.fullC
  lowD := c.lowD
  act := c.act
  aTranspose := c.aTranspose
  bTranspose := c.bTranspose
  aSpadId := c.aExSpadId
  bSpadId := c.bExSpadId
  isResadd := false

/-- The loop fits one half of each memory, and its pads are smaller than a block. -/
structure Cfg.InHalves (p : Params) (c : Cfg) : Prop where
  fits : c.Fits
  posI : 0 < c.maxI
  posJ : 0 < c.maxJ
  posK : 0 < c.maxK
  padI : c.padI < p.blockSize
  padJ : c.padJ < p.blockSize
  padK : c.padK < p.blockSize
  spad : (c.maxI * c.maxK + c.maxK * c.maxJ) * p.blockSize ≤ p.maxAddr / 2
  acc : c.maxI * c.maxJ * p.blockSize ≤ p.maxAccAddr / 2

/-- A matrix of so many blocks has offsets of 32 bits and lies in main memory. -/
def InMemory (p : Params) (dram stride bytes maxRow maxCol : ℕ) : Prop :=
  ∀ row < maxRow, ∀ col < maxCol, (row * stride + col) * p.blockSize * bytes < 2 ^ 32 ∧
    dram + (row * stride + col) * p.blockSize * bytes < 2 ^ p.coreMaxAddrBits

instance (p : Params) (dram stride bytes maxRow maxCol : ℕ) :
    Decidable (InMemory p dram stride bytes maxRow maxCol) := by
  unfold InMemory
  infer_instance

def Piece.ofMove (m : Move) : Piece where
  dram := m.dram
  rows := m.rows
  cols := m.cols
  acc := flag m.addr 31
  accumulate := flag m.addr 30
  full := flag m.addr 29
  row := field m.addr 0 29

def Piece.ofStore (m : Move) : Piece := { Piece.ofMove m with accumulate := false }

def Piece.shift (x : Piece) (start start' : ℕ) : Piece := { x with row := x.row - start + start' }

section Fits

variable {p : Params} {hw : Hw} {c : Cfg}

theorem pad_mod {pad : ℕ} (small : pad < p.blockSize) : pad % 2 ^ p.padBits = pad :=
  Nat.mod_eq_of_lt (small.trans_le (le_two_pow_log2Up _))

theorem spRows_le (p : Params) : p.maxAddr ≤ 2 ^ p.geometry.maxAddrBits :=
  (le_two_pow_log2Ceil _).trans p.geometry.sp_le

theorem accRows_le (p : Params) : p.maxAccAddr ≤ 2 ^ p.geometry.maxAddrBits :=
  (le_two_pow_log2Ceil _).trans p.geometry.acc_le

theorem inside {start rows size : ℕ} (first : start ≤ size / 2) (half : rows ≤ size / 2) :
    start + rows ≤ size := by
  omega

theorem Grid.sized_of_half {g : Grid} {len rowsBits colsBits size : ℕ} (pos : 0 < p.blockSize)
    (rows_pos : 0 < g.maxRow) (rows_lt : g.maxRow < 2 ^ 16) (cols_pos : 0 < g.maxCol)
    (rowPad : g.rowPad < p.blockSize) (colPad : g.colPad < p.blockSize) (len_pos : 0 < len)
    (rowsBits_gt : p.blockSize < 2 ^ rowsBits) (colsBits_gt : len * p.blockSize < 2 ^ colsBits)
    (half : g.maxRow * g.maxCol * p.blockSize ≤ size / 2)
    (room : g.start + g.maxRow * g.maxCol * p.blockSize ≤ size)
    (small : size ≤ 2 ^ 16 * p.blockSize) (size_le : size ≤ 2 ^ p.geometry.maxAddrBits) :
    g.Sized p len rowsBits colsBits where
  block_pos := pos
  rows_pos := rows_pos
  rows_lt := rows_lt
  cols_pos := cols_pos
  cols_le := by
    have least : g.maxCol * p.blockSize ≤ g.maxRow * g.maxCol * p.blockSize :=
      Nat.mul_le_mul_right _ (Nat.le_mul_of_pos_left _ rows_pos)
    refine Nat.le_of_mul_le_mul_right ?_ pos
    omega
  rowPad_lt := rowPad
  colPad_lt := colPad
  len_pos := len_pos
  rowsBits := rowsBits_gt
  colsBits := colsBits_gt
  room := room.trans size_le

theorem Grid.Sized.fits {g : Grid} {len rowsBits colsBits : ℕ} (sized : g.Sized p len rowsBits colsBits)
    (memory : InMemory p g.dram g.stride g.bytes g.maxRow g.maxCol) : g.Fits p len rowsBits colsBits where
  toSized := sized
  offset := fun row hrow col hcol => (memory row hrow col hcol).1
  address := fun row hrow col hcol => (memory row hrow col hcol).2

theorem maxBlockLen_pos (p : Params) : 0 < p.maxBlockLen := Nat.lt_of_lt_of_le Nat.one_pos (le_max_right _ _)

theorem maxBlockLenAcc_pos (p : Params) : 0 < p.maxBlockLenAcc :=
  Nat.lt_of_lt_of_le Nat.one_pos (le_max_right _ _)

namespace Cfg.InHalves

variable (halves : c.InHalves p)
include halves

theorem block_pos : 0 < p.blockSize :=
  Nat.zero_lt_of_lt halves.padI

theorem spadA : c.maxI * c.maxK * p.blockSize ≤ p.maxAddr / 2 :=
  (Nat.mul_le_mul_right _ (Nat.le_add_right _ _)).trans halves.spad

theorem spadB : c.maxK * c.maxJ * p.blockSize ≤ p.maxAddr / 2 :=
  (Nat.mul_le_mul_right _ (Nat.le_add_left _ _)).trans halves.spad

theorem fitsA (wide : p.Wide)
    (start : (c.ldAReq p false).addrStart ≤ p.maxAddr / 2)
    (memory : InMemory p c.aDramAddr c.aDramStride (p.inputW / 8) (c.ldAReq p false).maxRow
      (c.ldAReq p false).maxCol) :
    ((c.ldAReq p false).grid p).Fits p p.maxBlockLen p.mvinRowsBits p.mvinColsBits := by
  have pos := halves.block_pos
  have spad := halves.spadA
  have padI : (c.ldAReq p false).padI < p.blockSize := (Nat.mod_le _ _).trans_lt halves.padI
  have padK : (c.ldAReq p false).padK < p.blockSize := (Nat.mod_le _ _).trans_lt halves.padK
  have sizes : 0 < (c.ldAReq p false).maxRow ∧ (c.ldAReq p false).maxRow < 2 ^ 16 ∧
      0 < (c.ldAReq p false).maxCol ∧ (c.ldAReq p false).rowPad < p.blockSize ∧
      (c.ldAReq p false).colPad < p.blockSize ∧
      (c.ldAReq p false).maxRow * (c.ldAReq p false).maxCol * p.blockSize ≤ p.maxAddr / 2 := by
    have swap : c.maxK * c.maxI * p.blockSize = c.maxI * c.maxK * p.blockSize := by ring
    cases transposed : c.aTranspose <;>
      simp only [maxRow, maxCol, rowPad, colPad, Cfg.ldAReq, transposed,
        Bool.false_eq_true, if_false, if_true] at padI padK ⊢
    · exact ⟨halves.posI, halves.fits.maxI, halves.posK, padI, padK, spad⟩
    · exact ⟨halves.posK, halves.fits.maxK, halves.posI, padK, padI, swap ▸ spad⟩
  obtain ⟨rows_pos, rows_lt, cols_pos, rowPad, colPad, half⟩ := sizes
  exact Grid.Sized.fits (Grid.sized_of_half pos rows_pos rows_lt cols_pos rowPad colPad (maxBlockLen_pos p)
    wide.mvinRows wide.mvinCols half (inside start half) wide.spad (spRows_le p)) memory

theorem pads :
    c.padI % 2 ^ p.padBits < p.blockSize ∧ c.padJ % 2 ^ p.padBits < p.blockSize :=
  ⟨(Nat.mod_le _ _).trans_lt halves.padI, (Nat.mod_le _ _).trans_lt halves.padJ⟩

theorem fitsD (wide : p.Wide) {base : ℕ}
    (start : base ≤ p.maxAccAddr / 2)
    (memory : InMemory p c.dDramAddr c.dDramStride ((if c.lowD then p.inputW else p.accW) / 8) c.maxI c.maxJ) :
    ((c.ldDReq p base).grid p).Fits p ((c.ldDReq p base).len p) p.mvinRowsBits p.mvinColsBits := by
  obtain ⟨padI, padJ⟩ := halves.pads
  have len_pos : 0 < (c.ldDReq p base).len p := by
    unfold LdDReq.len
    split
    · exact maxBlockLen_pos p
    · exact maxBlockLenAcc_pos p
  have colsBits : (c.ldDReq p base).len p * p.blockSize < 2 ^ p.mvinColsBits := by
    unfold LdDReq.len
    split
    · exact wide.mvinCols
    · exact wide.mvinColsAcc
  exact Grid.Sized.fits (Grid.sized_of_half halves.block_pos halves.posI halves.fits.maxI halves.posJ padI
    padJ len_pos wide.mvinRows colsBits halves.acc (inside start halves.acc) wide.acc (accRows_le p)) memory

theorem sizedC (wide : p.Wide) {base : ℕ}
    (start : base ≤ p.maxAccAddr / 2) :
    ((c.stCReq p false base).grid p).Sized p ((c.stCReq p false base).len p) p.mvoutRowsBits
      p.mvoutColsBits := by
  obtain ⟨padI, padJ⟩ := halves.pads
  refine Grid.sized_of_half halves.block_pos halves.posI halves.fits.maxI halves.posJ padI padJ ?_
    wide.mvoutRows ?_ halves.acc (inside start halves.acc) wide.acc (accRows_le p)
  · unfold StCReq.len
    split
    · exact Nat.one_pos
    · exact maxBlockLen_pos p
  · have least : 1 * p.blockSize ≤ p.maxBlockLen * p.blockSize := Nat.mul_le_mul_right _ (maxBlockLen_pos p)
    unfold StCReq.len
    split
    · exact least.trans_lt wide.mvoutCols
    · exact wide.mvoutCols

end Cfg.InHalves

end Fits

/-! ### The blocks of the functional model -/

section Moves

variable {p : Params} {hw : Hw} {c : Cfg}

theorem ofMove_spad {dram rows cols addr : ℕ} (small : addr < 2 ^ 29) :
    Piece.ofMove ⟨dram, rows, cols, addr⟩ = ⟨dram, rows, cols, false, false, false, addr⟩ := by
  have fields : field addr 31 1 = 0 ∧ field addr 30 1 = 0 ∧ field addr 29 1 = 0 ∧ field addr 0 29 = addr := by
    unfold field
    omega
  simp [Piece.ofMove, flag, fields]

theorem shift_spad {dram rows cols start offset : ℕ} (small : start + offset < 2 ^ 29) (start' : ℕ) :
    (Piece.ofMove ⟨dram, rows, cols, start + offset⟩).shift start start' =
      ⟨dram, rows, cols, false, false, false, start' + offset⟩ := by
  rw [ofMove_spad small]
  simp [Piece.shift, Nat.add_comm]

theorem place_lt {row col maxRow maxCol bs : ℕ} (pos : 0 < bs) (hrow : row < maxRow) (hcol : col < maxCol) :
    (row * maxCol + col) * bs < maxRow * maxCol * bs := by
  have below := block_end_le bs hrow hcol
  omega

section Pieces

variable (same : p.Matches hw) (halves : c.InHalves p)
include same halves

theorem pieceA {i k : ℕ} (hi : i < c.maxI)
    (hk : k < c.maxK) :
    (Piece.ofMove (c.loopArgs.moveA hw c.loopWs i k)).shift (c.loopArgs.aStart hw)
        (c.ldAReq p false).addrStart =
      ((c.ldAReq p false).grid p).piece p.blockSize ((c.ldAReq p false).row i k)
        ((c.ldAReq p false).col i k) := by
  have spad := hw.spad_le
  have size := same.spad
  have half := halves.spadA
  have padI := pad_mod halves.padI
  have padK := pad_mod halves.padK
  have start : c.loopArgs.aStart hw ≤ p.maxAddr / 2 := by
    unfold LoopArgs.aStart
    split <;> omega
  have bytes : p.inputW / 8 = 1 := by rw [same.inputW]
  cases transposed : c.aTranspose with
  | false =>
    have inside := place_lt halves.block_pos hi hk
    simp only [LoopArgs.moveA, LoopArgs.aSpAddr, show c.loopArgs.aTranspose = false from transposed,
      Bool.false_eq_true, if_false, Cfg.loopWs, ← same.dim]
    rw [shift_spad (by omega)]
    simp [Grid.piece, grid, row, col, maxRow, maxCol, rowPad,
      colPad, Cfg.ldAReq, transposed, padI, padK, bytes, side, same.dim]
  | true =>
    have inside := place_lt halves.block_pos hk hi
    have swap : c.maxK * c.maxI * p.blockSize = c.maxI * c.maxK * p.blockSize := by ring
    simp only [LoopArgs.moveA, LoopArgs.aSpAddr, show c.loopArgs.aTranspose = true from transposed, if_true,
      Cfg.loopWs, ← same.dim]
    rw [shift_spad (by omega)]
    simp [Grid.piece, grid, row, col, maxRow, maxCol, rowPad,
      colPad, Cfg.ldAReq, transposed, padI, padK, bytes, side, same.dim]

section

variable (base : ℕ) {i j : ℕ} (hi : i < c.maxI) (hj : j < c.maxJ)
include base hi hj

theorem shift_acc {dram rows cols start : ℕ} (accumulate full : Bool)
    (place : start = 2 ^ 31 + accumulate.toNat * 2 ^ 30 + full.toNat * 2 ^ 29) :
    (Piece.ofMove ⟨dram, rows, cols, start + (i * c.maxJ + j) * p.blockSize⟩).shift 0 base =
      ⟨dram, rows, cols, true, accumulate, full, base + (i * c.maxJ + j) * p.blockSize⟩ := by
  have inside := place_lt halves.block_pos hi hj
  generalize (i * c.maxJ + j) * p.blockSize = row at inside
  have fields : field (start + row) 31 1 = 1 ∧ field (start + row) 30 1 = accumulate.toNat ∧
      field (start + row) 29 1 = full.toNat ∧ field (start + row) 0 29 = row := by
    have := halves.acc
    have := same.acc
    have := hw.acc_le
    have := accumulate.toNat_le
    have := full.toNat_le
    unfold field
    omega
  cases accumulate <;> cases full <;> simp [Piece.ofMove, Piece.shift, flag, fields, Nat.add_comm]

theorem pieceD :
    (Piece.ofMove (c.loopArgs.moveD hw c.loopWs i j)).shift 0 base =
      ((c.ldDReq p base).grid p).piece p.blockSize i j := by
  have bytes : c.loopArgs.sizeofD = (if c.lowD then p.inputW else p.accW) / 8 := by
    cases low : c.lowD <;> simp [LoopArgs.sizeofD, Cfg.loopArgs, low, same.inputW, same.accW]
  have move : c.loopArgs.moveD hw c.loopWs i j =
      ⟨c.dDramAddr + (i * c.dDramStride + j) * p.blockSize * c.loopArgs.sizeofD,
        side hw c.maxI c.padI i, side hw c.maxJ c.padJ j, 1 <<< 31 + (i * c.maxJ + j) * p.blockSize⟩ := by
    rw [same.dim]
    rfl
  rw [move, shift_acc same halves base hi hj false false (by simp [Nat.shiftLeft_eq]), bytes]
  simp [Grid.piece, LdDReq.grid, Cfg.ldDReq, pad_mod halves.padI, pad_mod halves.padJ, side,
    same.dim]

theorem pieceC :
    (Piece.ofStore (c.loopArgs.moveC hw c.loopWs i j)).shift 0 base =
      ((c.stCReq p false base).grid p).piece p.blockSize i j := by
  have bytes : c.loopArgs.sizeofC = (if c.fullC then p.accW else p.inputW) / 8 := by
    cases full : c.fullC <;> simp [LoopArgs.sizeofC, Cfg.loopArgs, full, same.inputW, same.accW]
  have start : c.loopArgs.cStart = 2 ^ 31 + true.toNat * 2 ^ 30 + c.fullC.toNat * 2 ^ 29 := by
    cases full : c.fullC <;> simp [LoopArgs.cStart, Cfg.loopArgs, full]
  have move : c.loopArgs.moveC hw c.loopWs i j =
      ⟨c.cDramAddr + (i * c.cDramStride + j) * p.blockSize * c.loopArgs.sizeofC,
        side hw c.maxI c.padI i, side hw c.maxJ c.padJ j,
        c.loopArgs.cStart + (i * c.maxJ + j) * p.blockSize⟩ := by
    rw [same.dim]
    rfl
  have stored (m : Move) : (Piece.ofStore m).shift 0 base =
      { (Piece.ofMove m).shift 0 base with accumulate := false } := rfl
  rw [stored, move, shift_acc same halves base hi hj true c.fullC start, bytes]
  simp [Grid.piece, StCReq.grid, Cfg.stCReq, pad_mod halves.padI, pad_mod halves.padJ, side,
    same.dim]

end

omit same halves in
theorem Grid.cells_perm {g : Grid} {bs m n : ℕ} {f : ℕ → ℕ → Piece} (t : Bool)
    (rows : g.maxRow = if t then n else m) (cols : g.maxCol = if t then m else n)
    (eq : ∀ i < m, ∀ k < n, f i k = g.piece bs (if t then k else i) (if t then i else k)) :
    ((List.range m).flatMap fun i => (List.range n).map (f i)).Perm (g.cells bs) := by
  have pieces : ((List.range m).flatMap fun i => (List.range n).map (f i)) = (List.range m).flatMap fun i =>
      (List.range n).map fun k => g.piece bs (if t then k else i) (if t then i else k) := by
    apply List.flatMap_congr
    intro i hi
    apply List.map_congr_left
    intro k hk
    exact eq i (List.mem_range.mp hi) k (List.mem_range.mp hk)
  rw [pieces, Grid.cells, rows, cols]
  cases t with
  | false => rfl
  | true =>
    simp only [List.map_eq_flatMap]
    exact Gemmini.Walker.flatMap_comm_perm _ _ _

theorem moves_cellsA (given : c.loopWs.A ≠ 0) :
    (((c.loopArgs.ops hw c.loopWs).filterMap (Op.moved 0)).map fun m =>
      (Piece.ofMove m).shift (c.loopArgs.aStart hw) (c.ldAReq p false).addrStart).Perm
      (((c.ldAReq p false).grid p).cells p.blockSize) := by
  rw [moves_A halves.posJ, if_neg given]
  simp only [List.map_flatMap, List.map_map, Function.comp_def]
  refine Grid.cells_perm (!c.aTranspose) ?_ ?_ fun k hk i hi => (pieceA same halves hi hk).trans ?_
  all_goals cases transposed : c.aTranspose <;>
    simp [grid, maxRow, maxCol, row, col, Cfg.ldAReq, Cfg.loopWs, transposed]

theorem moves_cellsD (base : ℕ) (given : c.loopWs.D ≠ 0) :
    (((c.loopArgs.ops hw c.loopWs).filterMap (Op.moved 2)).map fun m => (Piece.ofMove m).shift 0 base).Perm
      (((c.ldDReq p base).grid p).cells p.blockSize) := by
  rw [moves_D, if_neg given]
  simp only [List.map_flatMap, List.map_map, Function.comp_def]
  exact Grid.cells_perm false rfl rfl fun i hi j hj => pieceD same halves base hi hj

theorem moves_cellsC (base : ℕ) (given : c.loopWs.C ≠ 0) (plain : c.act ≠ layernorm ∧ c.act ≠ softmax) :
    (((c.loopArgs.ops hw c.loopWs).filterMap Op.stored).map fun m => (Piece.ofStore m).shift 0 base).Perm
      (((c.stCReq p false base).grid p).cells p.blockSize) := by
  rw [stores_C halves.posK plain, if_neg given]
  simp only [List.map_flatMap, List.map_map, Function.comp_def]
  exact Grid.cells_perm true rfl rfl fun j hj i hi => pieceC same halves base hi hj

end Pieces

end Moves

/-! ### The commands of the units -/

/-- Cut into blocks, the commands are the moves, and they move each block of a grid once. -/
structure Covers (p : Params) (g : Grid) (es : List OutCmd) (moves : List Piece) : Prop where
  blocks : (es.flatMap (OutCmd.pieces p.blockSize g.bytes)).Perm
    (if g.dram = 0 then [] else g.cells p.blockSize)
  same : (es.flatMap (OutCmd.pieces p.blockSize g.bytes)).Perm moves

section Streams

variable {p : Params} {hw : Hw} {c : Cfg}

theorem Covers.nothing {g : Grid} (absent : g.dram = 0) : Covers p g [] [] := by
  constructor <;> simp [absent]

theorem Covers.of_swept {g : Grid} {len rowsBits colsBits : ℕ} {R : Type} {N : Gemmini.Walker.Nest R OutCmd}
    {r : R} {moves : List Piece} (swept : g.Swept p len N r) (fits : g.Fits p len rowsBits colsBits)
    (alive : N.dead r = false) (given : g.dram ≠ 0) (same : moves.Perm (g.cells p.blockSize)) :
    Covers p g (N.commands r) moves := by
  have cells := swept.cells fits alive
  constructor
  · rwa [if_neg given]
  · exact cells.trans same.symm

theorem exists_covers {v : View p} {r : v.Req} {g : Grid} {len rowsBits colsBits : ℕ}
    {N : Gemmini.Walker.Nest v.Req OutCmd} {moves : List Piece} (width : N.width = 16)
    (dead : v.spec.dead r = (g.dram == 0) ∧ N.dead r = (g.dram == 0))
    (total : N.Proper r → Gemmini.Walker.Total v.spec r (N.commands r))
    (swept : g.Fits p len rowsBits colsBits → g.Swept p len N r) (none : g.dram = 0 → moves = [])
    (some : g.dram ≠ 0 → g.Fits p len rowsBits colsBits ∧ moves.Perm (g.cells p.blockSize)) :
    ∃ es, v.Streams r es ∧ Covers p g es moves := by
  by_cases absent : g.dram = 0
  · rw [none absent]
    refine ⟨[], v.streams_of_total (Gemmini.Walker.total_nil ?_), .nothing absent⟩
    rw [dead.1, absent]
    rfl
  · obtain ⟨fits, same⟩ := some absent
    refine ⟨_, v.streams_of_total (total ((swept fits).proper fits.toSized width)),
      .of_swept (swept fits) fits ?_ absent same⟩
    rw [dead.2, beq_eq_false_iff_ne]
    exact absent

/-- For a multiplication that fits one half of each memory, LdA, LdD and StC hand out commands that move
the blocks that the functional model moves, in every run; once one of them has handed out its last command,
it is idle.  A residual addition has no K, so that it is not among these loops. -/
theorem tiles_as_functional (same : p.Matches hw) (wide : p.Wide) (halves : c.InHalves p)
    (start : (c.ldAReq p false).addrStart ≤ p.maxAddr / 2) {base : ℕ} (base_le : base ≤ p.maxAccAddr / 2)
    (plain : c.act ≠ layernorm ∧ c.act ≠ softmax)
    (memoryA : c.aDramAddr ≠ 0 → InMemory p c.aDramAddr c.aDramStride (p.inputW / 8)
      (c.ldAReq p false).maxRow (c.ldAReq p false).maxCol)
    (memoryD : c.dDramAddr ≠ 0 → InMemory p c.dDramAddr c.dDramStride
      ((if c.lowD then p.inputW else p.accW) / 8) c.maxI c.maxJ)
    (memoryC : c.cDramAddr ≠ 0 → InMemory p c.cDramAddr c.cDramStride
      ((if c.fullC then p.accW else p.inputW) / 8) c.maxI c.maxJ) :
    (∃ es, (ldA p).Streams (c.ldAReq p false) es ∧
      Covers p ((c.ldAReq p false).grid p) es
        (((c.loopArgs.ops hw c.loopWs).filterMap (Op.moved 0)).map fun m =>
          (Piece.ofMove m).shift (c.loopArgs.aStart hw) (c.ldAReq p false).addrStart)) ∧
    (∃ es, (ldD p).Streams (c.ldDReq p base) es ∧
      Covers p ((c.ldDReq p base).grid p) es
        (((c.loopArgs.ops hw c.loopWs).filterMap (Op.moved 2)).map fun m =>
          (Piece.ofMove m).shift 0 base)) ∧
    ∃ es, (stC p).Streams (c.stCReq p false base) es ∧
      Covers p ((c.stCReq p false base).grid p) es
        (((c.loopArgs.ops hw c.loopWs).filterMap Op.stored).map fun m =>
          (Piece.ofStore m).shift 0 base) := by
  refine ⟨exists_covers rfl ⟨rfl, rfl⟩ (·.total) (LdAReq.swept · rfl)
      (fun (absent : c.loopWs.A = 0) => ?_) fun given => ?_,
    exists_covers rfl ⟨rfl, rfl⟩ (·.total) LdDReq.swept (fun (absent : c.loopWs.D = 0) => ?_) fun given => ?_,
    exists_covers rfl ⟨rfl, rfl⟩ (StCReq.total_of_plain ?_) StCReq.swept
      (fun (absent : c.loopWs.C = 0) => ?_) fun given => ?_⟩
  · rw [moves_A halves.posJ, if_pos absent, List.map_nil]
  · exact ⟨halves.fitsA wide start (memoryA given), moves_cellsA same halves given⟩
  · rw [moves_D, if_pos absent, List.map_nil]
  · exact ⟨halves.fitsD wide base_le (memoryD given), moves_cellsD same halves base given⟩
  · simp [StCReq.normalizes, Cfg.stCReq, plain]
  · rw [stores_C halves.posK plain, if_pos absent, List.map_nil]
  · exact ⟨(halves.sizedC wide base_le).fits (memoryC given), moves_cellsC same halves base given plain⟩

end Streams

def edgeCfg : Cfg :=
  { smallCfg 1 2 1 false with padI := 1, padJ := 3, aTranspose := true, dDramAddr := 512 }

theorem fourArray_matches : (Params.ofArray fourArray).Matches fourHw := ⟨rfl, rfl, rfl, rfl, rfl⟩

theorem fourArray_wide : (Params.ofArray fourArray).Wide :=
  Params.ofArray_wide fourArray (by decide) (by decide) (by decide)

theorem edgeCfg_halves : edgeCfg.InHalves (.ofArray fourArray) := by
  constructor <;> first | decide | exact ⟨by decide, by decide, by decide⟩

theorem edge_tiles_as_functional :
    ∃ es, (stC (.ofArray fourArray)).Streams (edgeCfg.stCReq (.ofArray fourArray) false 16) es ∧
      Covers (.ofArray fourArray) ((edgeCfg.stCReq (.ofArray fourArray) false 16).grid (.ofArray fourArray)) es
        (((edgeCfg.loopArgs.ops fourHw edgeCfg.loopWs).filterMap Op.stored).map fun m =>
          (Piece.ofStore m).shift 0 16) :=
  (tiles_as_functional fourArray_matches fourArray_wide edgeCfg_halves (by decide) (by decide)
    (by decide) (fun _ => by decide) (fun _ => by decide) (fun _ => by decide)).2.2

end Gemmini.LoopMatmul
