import Gemmini.LoopMatmul.Streams
import Gemmini.Simulator.LoopWs

/-!
# The blocks that the transfers of a loop move

A unit moves several blocks of a row of blocks with one command.  Cut into blocks, its commands for a
tile are one block for each place of the padded grid, those of the last row and column smaller by the
padding.  `loop_ws` moves the same blocks one by one.
-/

namespace Gemmini.LoopMatmul

open Gemmini.Walker (steps group Nest Stretch mem_steps)

/-- A block between main memory and a local memory, the accumulator if `acc`, from its first row on. -/
structure Piece where
  dram : ℕ
  rows : ℕ
  cols : ℕ
  acc : Bool
  accumulate : Bool
  full : Bool
  row : ℕ
  deriving DecidableEq, Repr

def Operand.count (blockSize : ℕ) (op : Operand) : ℕ := (op.cols + blockSize - 1) / blockSize

/-- Block `m` of a transfer.  The blocks lie a block size apart in the local memory. -/
def Operand.block (blockSize bytes dram : ℕ) (op : Operand) (m : ℕ) : Piece where
  dram := dram + m * blockSize * bytes
  rows := op.rows
  cols := min blockSize (op.cols - m * blockSize)
  acc := op.addr.isAccAddr
  accumulate := op.addr.accumulate
  full := op.addr.readFullAccRow
  row := op.addr.data + m * blockSize

def Operand.pieces (blockSize bytes dram : ℕ) (op : Operand) : List Piece :=
  (List.range (op.count blockSize)).map (op.block blockSize bytes dram)

def OutCmd.pieces (blockSize bytes : ℕ) : OutCmd → List Piece
  | .load _ dram dst => dst.pieces blockSize bytes dram
  | .store dram src => src.pieces blockSize bytes dram
  | _ => []

/-- A tile of a matrix in main memory and its place in a local memory. -/
structure Grid where
  dram : ℕ
  stride : ℕ
  bytes : ℕ
  maxRow : ℕ
  maxCol : ℕ
  rowPad : ℕ
  colPad : ℕ
  acc : Bool
  full : Bool
  start : ℕ

namespace Grid

def piece (blockSize : ℕ) (g : Grid) (row col : ℕ) : Piece where
  dram := g.dram + (row * g.stride + col) * blockSize * g.bytes
  rows := blockSize - if row = g.maxRow - 1 then g.rowPad else 0
  cols := blockSize - if col = g.maxCol - 1 then g.colPad else 0
  acc := g.acc
  accumulate := false
  full := g.full
  row := g.start + (row * g.maxCol + col) * blockSize

def cells (blockSize : ℕ) (g : Grid) : List Piece :=
  (List.range g.maxRow).flatMap fun row => (List.range g.maxCol).map (g.piece blockSize row)

structure Sized (p : Params) (g : Grid) (len rowsBits colsBits : ℕ) : Prop where
  block_pos : 0 < p.blockSize
  rows_pos : 0 < g.maxRow
  rows_lt : g.maxRow < 2 ^ 16
  cols_pos : 0 < g.maxCol
  /-- The sums of a column and a number of blocks have 16 bits. -/
  cols_le : g.maxCol ≤ 2 ^ 15
  rowPad_lt : g.rowPad < p.blockSize
  colPad_lt : g.colPad < p.blockSize
  len_pos : 0 < len
  rowsBits : p.blockSize < 2 ^ rowsBits
  colsBits : len * p.blockSize < 2 ^ colsBits
  room : g.start + g.maxRow * g.maxCol * p.blockSize ≤ 2 ^ p.geometry.maxAddrBits

structure Fits (p : Params) (g : Grid) (len rowsBits colsBits : ℕ) : Prop extends
    Sized p g len rowsBits colsBits where
  offset : ∀ row < g.maxRow, ∀ col < g.maxCol, (row * g.stride + col) * p.blockSize * g.bytes < 2 ^ 32
  address : ∀ row < g.maxRow, ∀ col < g.maxCol,
    g.dram + (row * g.stride + col) * p.blockSize * g.bytes < 2 ^ p.coreMaxAddrBits

end Grid

/-! ### One transfer -/

section Transfer

variable {p : Params} {g : Grid} {len rowsBits colsBits row col : ℕ}

theorem wire_natCast {bits n : ℕ} (lt : n < 2 ^ bits) : wire bits (n : ℤ) = n := by
  rw [wire]
  have small : (n : ℤ) < 2 ^ bits := by exact_mod_cast lt
  rw [Int.emod_eq_of_lt (Int.natCast_nonneg n) small, Int.toNat_natCast]

theorem Grid.Fits.dram_eq (fits : g.Fits p len rowsBits colsBits) (hrow : row < g.maxRow)
    (hcol : col < g.maxCol) :
    dramAddrOf p g.dram ((row * g.stride + col) * p.blockSize * g.bytes) =
      g.dram + (row * g.stride + col) * p.blockSize * g.bytes :=
  dramAddrOf_eq (fits.offset row hrow col hcol) (fits.address row hrow col hcol)

theorem cols_of_block {bs n m pad : ℕ} (hm : m < n) (small : pad < bs) :
    min bs (n * bs - pad - m * bs) = bs - if m + 1 = n then pad else 0 := by
  obtain ⟨k, rfl⟩ := Nat.exists_eq_add_of_lt hm
  have split : (m + k + 1) * bs = m * bs + (k * bs + bs) := by ring
  split_ifs with last
  · obtain rfl : k = 0 := by omega
    omega
  · have more : bs ≤ k * bs := Nat.le_mul_of_pos_left bs (by omega)
    omega

namespace Grid.Sized

variable (sized : g.Sized p len rowsBits colsBits)
include sized

theorem rows_eq :
    rowsOf p rowsBits row g.maxRow g.rowPad = p.blockSize - if row = g.maxRow - 1 then g.rowPad else 0 := by
  have last : wire 16 ((g.maxRow : ℤ) - 1) = g.maxRow - 1 := by
    have := sized.rows_pos
    have := sized.rows_lt
    have cast : ((g.maxRow : ℤ) - 1) = ((g.maxRow - 1 : ℕ) : ℤ) := by omega
    rw [cast, wire_natCast (by omega)]
  have pad := sized.rowPad_lt
  have width := sized.rowsBits
  rw [rowsOf, last]
  split_ifs
  · have cast : ((p.blockSize : ℤ) - g.rowPad) = ((p.blockSize - g.rowPad : ℕ) : ℤ) := by omega
    rw [cast, wire_natCast (by omega)]
  · rw [sub_zero, wire_natCast width, Nat.sub_zero]

theorem data_eq (hrow : row < g.maxRow) (hcol : col < g.maxCol) :
    wire p.geometry.maxAddrBits (g.start + ((row : ℤ) * g.maxCol + col) * p.blockSize) =
      g.start + (row * g.maxCol + col) * p.blockSize := by
  have inside : row * g.maxCol + col < g.maxRow * g.maxCol :=
    calc row * g.maxCol + col < row * g.maxCol + g.maxCol := by omega
      _ = (row + 1) * g.maxCol := by ring
      _ ≤ g.maxRow * g.maxCol := Nat.mul_le_mul_right _ hrow
  have below := Nat.mul_lt_mul_of_pos_right inside sized.block_pos
  have room := sized.room
  have cast : ((g.start : ℤ) + ((row : ℤ) * g.maxCol + col) * p.blockSize) =
      ((g.start + (row * g.maxCol + col) * p.blockSize : ℕ) : ℤ) := by push_cast; ring
  rw [cast, wire_natCast (by omega)]

theorem blocks_eq (hcol : col < g.maxCol) :
    blocksOf (maxBlocksOf len g.maxCol) col g.maxCol =
      min (maxBlocksOf len g.maxCol) (g.maxCol - col) := by
  have le : maxBlocksOf len g.maxCol ≤ g.maxCol := by
    unfold maxBlocksOf
    split <;> omega
  have wide := sized.cols_le
  unfold blocksOf
  rw [Nat.mod_eq_of_lt (by omega)]
  split_ifs
  · omega
  · have cast : ((g.maxCol : ℤ) - col) = ((g.maxCol - col : ℕ) : ℤ) := by omega
    rw [cast, wire_natCast (by omega)]
    omega

theorem cols_eq {n : ℕ} (some_n : 0 < n) (le : n ≤ len)
    (inside : col + n ≤ g.maxCol) :
    colsOf p colsBits n col g.maxCol g.colPad =
      n * p.blockSize - if col + n = g.maxCol then g.colPad else 0 := by
  have wide := sized.cols_le
  have pad := sized.colPad_lt
  have width : n * p.blockSize < 2 ^ colsBits :=
    (Nat.mul_le_mul_right _ le).trans_lt sized.colsBits
  have least : p.blockSize ≤ n * p.blockSize := Nat.le_mul_of_pos_left _ some_n
  have reach : (col + n) % 2 ^ 16 ≥ g.maxCol ↔ col + n = g.maxCol := by
    rw [Nat.mod_eq_of_lt (by omega)]
    omega
  rw [colsOf, if_congr reach rfl rfl]
  split_ifs
  · have cast : ((n * p.blockSize : ℤ) - g.colPad) = ((n * p.blockSize - g.colPad : ℕ) : ℤ) := by
      push_cast [Nat.cast_sub (show g.colPad ≤ n * p.blockSize by omega)]
      rfl
    rw [cast, wire_natCast (by omega)]
  · have cast : ((n : ℤ) * p.blockSize - 0) = ((n * p.blockSize : ℕ) : ℤ) := by push_cast; ring
    rw [cast, wire_natCast width, Nat.sub_zero]

theorem block_eq (hcol : col < g.maxCol) {op : Operand}
    (cols : op.cols = colsOf p colsBits (blocksOf (maxBlocksOf len g.maxCol) col g.maxCol) col g.maxCol
      g.colPad) (bytes dram : ℕ) :
    op.count p.blockSize = min (maxBlocksOf len g.maxCol) (g.maxCol - col) ∧
      ∀ m < op.count p.blockSize, op.block p.blockSize bytes dram m =
        { dram := dram + m * p.blockSize * bytes
          rows := op.rows
          cols := p.blockSize - if col + m = g.maxCol - 1 then g.colPad else 0
          acc := op.addr.isAccAddr
          accumulate := op.addr.accumulate
          full := op.addr.readFullAccRow
          row := op.addr.data + m * p.blockSize } := by
  have most : maxBlocksOf len g.maxCol ≤ len := by
    unfold maxBlocksOf
    split <;> omega
  have some_blocks := maxBlocksOf_pos sized.len_pos sized.cols_pos
  rw [sized.blocks_eq hcol, sized.cols_eq (by omega) (by omega) (by omega)] at cols
  obtain ⟨n, n_eq⟩ : ∃ n, n = min (maxBlocksOf len g.maxCol) (g.maxCol - col) := ⟨_, rfl⟩
  rw [← n_eq] at cols ⊢
  have pad := sized.colPad_lt
  generalize pad_eq : (if col + n = g.maxCol then g.colPad else 0) = off at cols
  have off_lt : off < p.blockSize := by
    split_ifs at pad_eq <;> omega
  have count : op.count p.blockSize = n := by
    apply Nat.div_eq_of_lt_le
    · omega
    · rw [Nat.succ_mul]
      omega
  refine ⟨count, ?_⟩
  rw [count]
  intro m hm
  have block := cols_of_block hm off_lt
  have corner : (if m + 1 = n then off else 0) = if col + m = g.maxCol - 1 then g.colPad else 0 := by
    split_ifs at pad_eq ⊢ <;> omega
  rw [corner] at block
  rw [Operand.block, cols, block]

end Grid.Sized

theorem Grid.Fits.pieces_eq (fits : g.Fits p len rowsBits colsBits) (hrow : row < g.maxRow)
    (hcol : col < g.maxCol) {op : Operand}
    (rows : op.rows = p.blockSize - if row = g.maxRow - 1 then g.rowPad else 0)
    (cols : op.cols = colsOf p colsBits (blocksOf (maxBlocksOf len g.maxCol) col g.maxCol) col g.maxCol
      g.colPad)
    (acc : op.addr.isAccAddr = g.acc) (accumulate : op.addr.accumulate = false)
    (full : op.addr.readFullAccRow = g.full)
    (data : op.addr.data = g.start + (row * g.maxCol + col) * p.blockSize) :
    op.pieces p.blockSize g.bytes (dramAddrOf p g.dram
        ((row * g.stride + col) * p.blockSize * g.bytes)) =
      (group (maxBlocksOf len g.maxCol) g.maxCol col).map (g.piece p.blockSize row) := by
  obtain ⟨count, block⟩ := fits.block_eq hcol cols g.bytes
    (dramAddrOf p g.dram ((row * g.stride + col) * p.blockSize * g.bytes))
  rw [fits.dram_eq hrow hcol] at block ⊢
  rw [group, List.range'_eq_map_range, List.map_map, Operand.pieces, ← count]
  apply List.map_congr_left
  intro m mem
  rw [block m (List.mem_range.mp mem)]
  simp only [Function.comp_apply, Grid.piece, rows, acc, accumulate, full, data, Piece.mk.injEq, true_and]
  constructor <;> ring

/-! ### All transfers of a tile -/

def Grid.MovedBy (p : Params) (g : Grid) (len : ℕ) (cmd : ℕ → ℕ → OutCmd) : Prop :=
  ∀ row < g.maxRow, ∀ col < g.maxCol, (cmd row col).pieces p.blockSize g.bytes =
    (group (maxBlocksOf len g.maxCol) g.maxCol col).map (g.piece p.blockSize row)

section

variable {cmd : ℕ → ℕ → OutCmd} (moved : g.MovedBy p len cmd) (blocks : 0 < maxBlocksOf len g.maxCol)
include moved blocks

theorem Grid.MovedBy.rows_cells :
    ((steps 1 g.maxRow).flatMap fun row =>
        (steps (maxBlocksOf len g.maxCol) g.maxCol).flatMap fun col => [cmd row col]).flatMap
      (OutCmd.pieces p.blockSize g.bytes) = g.cells p.blockSize := by
  rw [Grid.cells, ← Gemmini.Walker.rows_flatMap_groups blocks, Gemmini.Walker.steps_one]
  simp only [List.flatMap_assoc, List.flatMap_singleton]
  apply List.flatMap_congr
  intro row hrow
  apply List.flatMap_congr
  intro col hcol
  exact moved row (List.mem_range.mp hrow) col ((mem_steps blocks).mp hcol).2

theorem Grid.MovedBy.cols_cells :
    (((steps (maxBlocksOf len g.maxCol) g.maxCol).flatMap fun col =>
        (steps 1 g.maxRow).flatMap fun row => [cmd row col]).flatMap
      (OutCmd.pieces p.blockSize g.bytes)).Perm (g.cells p.blockSize) := by
  rw [← moved.rows_cells blocks]
  simp only [List.flatMap_assoc]
  exact Gemmini.Walker.flatMap_comm_perm _ _ _

end

/-- Two counters pass over the grid, row by row or group of columns by group of columns. -/
inductive Grid.Swept (p : Params) (g : Grid) (len : ℕ) {R : Type} (N : Nest R OutCmd) (r : R) :
    Prop
  | rows (dx : N.dx r = maxBlocksOf len g.maxCol) (mx : N.mx r = g.maxCol) (dy : N.dy r = 1)
      (my : N.my r = g.maxRow) (moved : g.MovedBy p len fun row col => N.cmd r col row)
  | cols (dx : N.dx r = 1) (mx : N.mx r = g.maxRow) (dy : N.dy r = maxBlocksOf len g.maxCol)
      (my : N.my r = g.maxCol) (moved : g.MovedBy p len fun row col => N.cmd r row col)

variable {R : Type} {N : Nest R OutCmd} {r : R}

theorem Grid.Swept.proper (swept : g.Swept p len N r) (sized : g.Sized p len rowsBits colsBits)
    (width : N.width = 16) : N.Proper r := by
  have blocks := maxBlocksOf_pos sized.len_pos sized.cols_pos
  have wide := sized.cols_le
  have rows_lt := sized.rows_lt
  have cols_lt : g.maxCol < 2 ^ 16 := by omega
  rcases swept with ⟨dx, mx, dy, my, _⟩ | ⟨dx, mx, dy, my, _⟩
  · constructor <;> simp only [dx, mx, dy, my, width, Nat.one_pos]
    exacts [blocks, sized.cols_pos, sized.rows_pos, cols_lt, rows_lt]
  · constructor <;> simp only [dx, mx, dy, my, width, Nat.one_pos]
    exacts [blocks, sized.rows_pos, sized.cols_pos, rows_lt, cols_lt]

theorem Grid.Swept.cells (swept : g.Swept p len N r) (fits : g.Fits p len rowsBits colsBits)
    (alive : N.dead r = false) :
    ((N.commands r).flatMap (OutCmd.pieces p.blockSize g.bytes)).Perm (g.cells p.blockSize) := by
  have blocks := maxBlocksOf_pos fits.len_pos fits.cols_pos
  rw [Nest.commands, alive, if_neg Bool.false_ne_true]
  rcases swept with ⟨dx, mx, dy, my, moved⟩ | ⟨dx, mx, dy, my, moved⟩ <;> rw [dx, mx, dy, my]
  · rw [moved.rows_cells blocks]
  · exact moved.cols_cells blocks

end Transfer

/-! ### LdA -/

section LdA

variable {p : Params} {req : LdAReq}

def LdAReq.grid (p : Params) (req : LdAReq) : Grid where
  dram := req.dramAddr
  stride := req.dramStride
  bytes := p.inputW / 8
  maxRow := req.maxRow
  maxCol := req.maxCol
  rowPad := req.rowPad
  colPad := req.colPad
  acc := false
  full := false
  start := req.addrStart

variable (fits : (req.grid p).Fits p p.maxBlockLen p.mvinRowsBits p.mvinColsBits)
  (matmul : req.isResadd = false)
include fits matmul

theorem LdAReq.moves {i k : ℕ} (hrow : req.row i k < req.maxRow) (hcol : req.col i k < req.maxCol) :
    (req.cmd p i k).pieces p.blockSize (p.inputW / 8) =
      (group (req.maxBlocks p) req.maxCol (req.col i k)).map ((req.grid p).piece p.blockSize (req.row i k)) := by
  refine fits.pieces_eq (g := req.grid p) hrow hcol fits.rows_eq rfl ?_ ?_ ?_ ?_
  all_goals simp only [matmul, Bool.false_eq_true, if_false, castToSpAddr]
  · rfl
  · rfl
  · exact fits.data_eq hrow hcol

theorem LdAReq.swept : (req.grid p).Swept p p.maxBlockLen (LdAReq.nest p) req := by
  have moves := fun i k => moves fits matmul (i := i) (k := k)
  cases transposed : req.transpose <;>
    simp only [row, col, transposed, Bool.false_eq_true, if_false, if_true] at moves
  · refine .cols ?_ ?_ ?_ ?_ fun row hrow col hcol => moves row col hrow hcol
    all_goals simp [nest, grid, iBlocks, kBlocks, maxRow, maxCol,
        maxBlocks, transposed]
  · refine .rows ?_ ?_ ?_ ?_ fun row hrow col hcol => moves col row hrow hcol
    all_goals simp [nest, grid, iBlocks, kBlocks, maxRow, maxCol,
        maxBlocks, transposed]

end LdA

/-! ### LdB -/

section LdB

variable {p : Params} {req : LdBReq}

/-- The tile of B for a multiplication, with a number of rows left out at the end. -/
def LdBReq.grid (p : Params) (req : LdBReq) (rowPad : ℕ) : Grid where
  dram := req.dramAddr
  stride := req.dramStride
  bytes := p.inputW / 8
  maxRow := req.maxRow
  maxCol := req.maxCol
  rowPad := rowPad
  colPad := req.colPad
  acc := false
  full := false
  start := req.addrEnd - req.maxK * req.maxJ * p.blockSize

variable (fits : (req.grid p 0).Fits p p.maxBlockLen p.mvinRowsBits p.mvinColsBits)
  (below : req.maxK * req.maxJ * p.blockSize ≤ req.addrEnd) (matmul : req.isResadd = false)
include fits below matmul

theorem LdBReq.moves {k j : ℕ} (hrow : req.row k j < req.maxRow) (hcol : req.col k j < req.maxCol) :
    (req.cmd p k j).pieces p.blockSize (p.inputW / 8) =
      (group (req.maxBlocks p) req.maxCol (req.col k j)).map
        ((req.grid p 0).piece p.blockSize (req.row k j)) := by
  have whole : rowsOf p p.mvinRowsBits req.maxRow req.maxRow req.rowPad = p.blockSize := by
    have never : req.maxRow ≠ wire 16 ((req.maxRow : ℤ) - 1) := by
      unfold wire
      omega
    rw [rowsOf, if_neg never, sub_zero, wire_natCast fits.rowsBits]
  refine fits.pieces_eq (g := req.grid p 0) hrow hcol ?_ rfl ?_ ?_ ?_ ?_
  · split_ifs <;> exact whole
  all_goals simp only [matmul, Bool.false_eq_true, if_false, castToSpAddr]
  · rfl
  · rfl
  · have start : ((req.addrEnd : ℤ) - req.maxK * req.maxJ * p.blockSize) =
        ((req.grid p 0).start : ℤ) := by
      change _ = ((req.addrEnd - req.maxK * req.maxJ * p.blockSize : ℕ) : ℤ)
      push_cast [Nat.cast_sub below]
      rfl
    rw [start]
    exact fits.data_eq hrow hcol

theorem LdBReq.swept : (req.grid p 0).Swept p p.maxBlockLen (LdBReq.nest p) req := by
  have moves := fun k j => moves fits below matmul (k := k) (j := j)
  cases transposed : req.transpose <;>
    simp only [row, col, transposed, Bool.false_eq_true, if_false, if_true] at moves
  · refine .rows ?_ ?_ ?_ ?_ fun row hrow col hcol => moves row col hrow hcol
    all_goals simp [nest, grid, jBlocks, kBlocks, maxRow, maxCol,
        maxBlocks, transposed]
  · refine .cols ?_ ?_ ?_ ?_ fun row hrow col hcol => moves col row hrow hcol
    all_goals simp [nest, grid, jBlocks, kBlocks, maxRow, maxCol,
        maxBlocks, transposed]

end LdB

/-! ### LdD -/

section LdD

variable {p : Params} {req : LdDReq}

def LdDReq.len (p : Params) (req : LdDReq) : ℕ := if req.lowD then p.maxBlockLen else p.maxBlockLenAcc

def LdDReq.grid (p : Params) (req : LdDReq) : Grid where
  dram := req.dramAddr
  stride := req.dramStride
  bytes := (if req.lowD then p.inputW else p.accW) / 8
  maxRow := req.maxI
  maxCol := req.maxJ
  rowPad := req.padI
  colPad := req.padJ
  acc := true
  full := false
  start := req.addrStart

theorem LdDReq.swept (fits : (req.grid p).Fits p (req.len p) p.mvinRowsBits p.mvinColsBits) :
    (req.grid p).Swept p (req.len p) (LdDReq.nest p) req := by
  refine .cols rfl rfl rfl rfl fun row hrow col hcol => ?_
  exact fits.pieces_eq (g := req.grid p) hrow hcol fits.rows_eq rfl rfl rfl rfl (fits.data_eq hrow hcol)

end LdD

/-! ### StC -/

section StC

variable {p : Params} {req : StCReq}

def StCReq.len (p : Params) (req : StCReq) : ℕ := if req.fullC then 1 else p.maxBlockLen

def StCReq.grid (p : Params) (req : StCReq) : Grid where
  dram := req.dramAddr
  stride := req.dramStride
  bytes := (if req.fullC then p.accW else p.inputW) / 8
  maxRow := req.maxI
  maxCol := req.maxJ
  rowPad := req.padI
  colPad := req.padJ
  acc := true
  full := req.fullC
  start := req.addrStart

def StCReq.nest (p : Params) : Nest StCReq OutCmd where
  width := 16
  dx _ := 1
  dy r := r.maxBlocks p
  mx r := r.maxI
  my r := r.maxJ
  cmd r i j := r.mvoutCmd p ⟨j, i, 0, 0, 0⟩
  dead r := r.dramAddr == 0

theorem StCReq.maxBlocks_eq (req : StCReq) (pos : 0 < req.maxJ) :
    req.maxBlocks p = maxBlocksOf (req.len p) req.maxJ := by
  cases full : req.fullC with
  | true =>
    simp only [maxBlocks, len, full, if_true, maxBlocksOf]
    split <;> omega
  | false => simp [maxBlocks, len, full]

theorem StCReq.swept (fits : (req.grid p).Fits p (req.len p) p.mvoutRowsBits p.mvoutColsBits) :
    (req.grid p).Swept p (req.len p) (StCReq.nest p) req := by
  have blocks := maxBlocks_eq (p := p) req fits.cols_pos
  refine .cols rfl rfl blocks rfl fun row hrow col hcol => ?_
  refine fits.pieces_eq (g := req.grid p) hrow hcol fits.rows_eq ?_ rfl rfl rfl (fits.data_eq hrow hcol)
  change req.cols p _ = _
  rw [cols, StCReq.blocks, blocks]
  rfl

def plainPos (i j : ℕ) : StCPhase × StCCounters := (.st, ⟨j, i, 0, 0, 0⟩)

theorem StCReq.step_plain (i j : ℕ) : (StCReq.spec p).step req (plainPos i j) =
    ((StCReq.nest p).spec.step req (i, j)).map fun x => plainPos x.1 x.2 := by
  have wraps : (req.counters p ⟨j, i, 0, 0, 0⟩).wraps 16 req.maxI req.maxJ =
      (StCReq.nest p).wraps req i j := rfl
  simp only [StCReq.spec, Nest.spec, plainPos, wraps]
  split <;> rfl

theorem StCReq.total_of_plain (plain : req.normalizes = false) (proper : (StCReq.nest p).Proper req) :
    Gemmini.Walker.Total (StCReq.spec p) req ((StCReq.nest p).commands req) := by
  have start : (spec p).start req = plainPos 0 0 := by simp [spec, plain, plainPos]
  have dead : (spec p).dead req = (nest p).dead req := rfl
  unfold Gemmini.Walker.Total Nest.commands
  rw [dead]
  cases gone : (nest p).dead req with
  | true => simp
  | false =>
    simp only [Bool.false_eq_true, if_false]
    rw [start]
    apply Stretch.emits
    apply Stretch.loop (P := fun j => plainPos 0 j) proper.dy_pos proper.my_pos
    intro j _ _
    apply Stretch.loop (P := fun i => plainPos i j) proper.dx_pos proper.mx_pos
    intro i _ _
    refine .of_step rfl ?_
    rw [step_plain, proper.step]
    split_ifs <;> rfl

end StC

end Gemmini.LoopMatmul
