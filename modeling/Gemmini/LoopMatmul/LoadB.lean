import Gemmini.LoopMatmul.Coverage

/-!
# The tile of B

LdB loads each block of the tile of B once, with the columns that are left of the last block.  The test
for the pad of the rows compares the number of rows of blocks with itself less one, so that LdB always
loads all rows of a block, the last of them from beyond the tile.
-/

namespace Gemmini.LoopMatmul

open Simulator (Hw fourHw LoopArgs Move Op side sub32)
open LdBReq (grid maxRow maxCol colPad row col nest swept)

section LoadB

variable {p : Params} {hw : Hw} {c : Cfg} {base : ℕ}

def Cfg.rowPadB (c : Cfg) : ℕ := if c.bTranspose then c.padJ else c.padK

/-- The block of B that the functional model moves, at the row that Execute preloads it from. -/
def Cfg.blockB (p : Params) (hw : Hw) (c : Cfg) (base k j : ℕ) : Piece :=
  { Piece.ofMove (c.loopArgs.moveB hw c.loopWs k j) with
    row := ((c.exReq p false base).bOperand p ⟨0, j, k⟩).addr.data }

/-- In every run LdB loads just the blocks of the functional model, to where Execute preloads them from. -/
def Cfg.LoadsB (p : Params) (hw : Hw) (c : Cfg) (base : ℕ) : Prop :=
  ∃ es, (ldB p).Streams (c.ldBReq p false) es ∧
    (es.flatMap (OutCmd.pieces p.blockSize (p.inputW / 8))).Perm
      (if c.bDramAddr = 0 then []
        else (List.range c.maxK).flatMap fun k => (List.range c.maxJ).map fun j => c.blockB p hw base k j)

def Cfg.gridB (p : Params) (c : Cfg) (addrEnd rowPad : ℕ) : Grid :=
  grid p { c.ldBReq p false with addrEnd := addrEnd } rowPad

structure Cfg.EndsB (p : Params) (c : Cfg) (addrEnd : ℕ) : Prop where
  room : c.maxK * c.maxJ * p.blockSize ≤ addrEnd
  top : addrEnd ≤ p.maxAddr

theorem Cfg.rowPadB_lt (halves : c.InHalves p) : c.rowPadB < p.blockSize := by
  unfold Cfg.rowPadB
  split
  · exact halves.padJ
  · exact halves.padK

theorem Cfg.InHalves.fitsB (halves : c.InHalves p) (wide : p.Wide) {addrEnd rowPad : ℕ}
    (ends : c.EndsB p addrEnd) (rowPad_lt : rowPad < p.blockSize)
    (memory : InMemory p c.bDramAddr c.bDramStride (p.inputW / 8) (c.ldBReq p false).maxRow
      (c.ldBReq p false).maxCol) :
    (c.gridB p addrEnd rowPad).Fits p p.maxBlockLen p.mvinRowsBits p.mvinColsBits := by
  have pos := halves.block_pos
  have spad := halves.spadB
  have padJ : (c.ldBReq p false).padJ < p.blockSize := (Nat.mod_le _ _).trans_lt halves.padJ
  have padK : (c.ldBReq p false).padK < p.blockSize := (Nat.mod_le _ _).trans_lt halves.padK
  have sizes : 0 < (c.ldBReq p false).maxRow ∧ (c.ldBReq p false).maxRow < 2 ^ 16 ∧
      0 < (c.ldBReq p false).maxCol ∧ (c.ldBReq p false).colPad < p.blockSize ∧
      (c.ldBReq p false).maxRow * (c.ldBReq p false).maxCol * p.blockSize =
        c.maxK * c.maxJ * p.blockSize := by
    have swap : c.maxJ * c.maxK * p.blockSize = c.maxK * c.maxJ * p.blockSize := by ring
    cases transposed : c.bTranspose <;>
      simp only [maxRow, maxCol, colPad, Cfg.ldBReq, transposed, Bool.false_eq_true,
        if_false, if_true] at padJ padK ⊢
    · exact ⟨halves.posK, halves.fits.maxK, halves.posJ, padJ, trivial⟩
    · exact ⟨halves.posJ, halves.fits.maxJ, halves.posK, padK, swap⟩
  obtain ⟨rows_pos, rows_lt, cols_pos, colPad, area⟩ := sizes
  have room : (c.gridB p addrEnd rowPad).start + (c.ldBReq p false).maxRow * (c.ldBReq p false).maxCol *
      p.blockSize ≤ p.maxAddr := by
    have top := ends.top
    change addrEnd - c.maxK * c.maxJ * p.blockSize + _ ≤ _
    omega
  have sized := Grid.sized_of_half pos rows_pos rows_lt cols_pos rowPad_lt colPad
    (maxBlockLen_pos p) wide.mvinRows wide.mvinCols (area.trans_le spad) room wide.spad (spRows_le p)
  exact sized.fits memory

theorem placeB_lt {k j : ℕ} (hk : k < c.maxK) (hj : j < c.maxJ) :
    (c.ldBReq p false).row k j < (c.ldBReq p false).maxRow ∧
      (c.ldBReq p false).col k j < (c.ldBReq p false).maxCol := by
  cases transposed : c.bTranspose <;>
    simp [row, col, maxRow, maxCol, Cfg.ldBReq, transposed, hk, hj]

theorem dataB {rowPad k j : ℕ} (ends : c.EndsB p (c.exReq p false base).bAddrEnd)
    (fits : (c.gridB p (c.exReq p false base).bAddrEnd rowPad).Fits p p.maxBlockLen p.mvinRowsBits
      p.mvinColsBits) (hk : k < c.maxK) (hj : j < c.maxJ) :
    ((c.exReq p false base).bOperand p ⟨0, j, k⟩).addr.data =
      ((c.gridB p (c.exReq p false base).bAddrEnd rowPad).piece p.blockSize ((c.ldBReq p false).row k j)
        ((c.ldBReq p false).col k j)).row := by
  have start : (((c.exReq p false base).bAddrEnd : ℤ) - c.maxK * c.maxJ * p.blockSize) =
      ((c.gridB p (c.exReq p false base).bAddrEnd rowPad).start : ℤ) := by
    change _ = (((c.exReq p false base).bAddrEnd - c.maxK * c.maxJ * p.blockSize : ℕ) : ℤ)
    push_cast [Nat.cast_sub ends.room]
    rfl
  obtain ⟨hrow, hcol⟩ := placeB_lt (p := p) hk hj
  change wire p.geometry.maxAddrBits (((c.exReq p false base).bAddrEnd : ℤ) - c.maxK * c.maxJ * p.blockSize +
    (((c.ldBReq p false).row k j : ℤ) * (c.ldBReq p false).maxCol + (c.ldBReq p false).col k j) *
      p.blockSize) = _
  rw [start]
  exact fits.data_eq hrow hcol

theorem bSpAddr_lt (same : p.Matches hw) (halves : c.InHalves p) {k j : ℕ} (hk : k < c.maxK)
    (hj : j < c.maxJ) : c.loopArgs.bSpAddr hw c.loopWs k j < 2 ^ 29 := by
  have room : c.maxK * c.maxJ * hw.dim ≤ hw.bankNum * hw.bankRows / 2 := by
    rw [← same.dim, ← same.spad]
    exact halves.spadB
  have spad := hw.spad_le
  have swap : c.maxJ * c.maxK * hw.dim = c.maxK * c.maxJ * hw.dim := by ring
  have offset : (if c.bTranspose then j * c.maxK + k else k * c.maxJ + j) * hw.dim <
      c.maxK * c.maxJ * hw.dim := by
    split
    · exact swap ▸ place_lt hw.dim_pos hj hk
    · exact place_lt hw.dim_pos hk hj
  change sub32 (if c.bExSpadId = 2 then hw.bankNum * hw.bankRows else hw.bankNum * hw.bankRows / 2)
    (c.maxK * c.maxJ * hw.dim) + (if c.bTranspose then j * c.maxK + k else k * c.maxJ + j) * hw.dim < 2 ^ 29
  unfold sub32
  generalize (if c.bTranspose then j * c.maxK + k else k * c.maxJ + j) * hw.dim = x at offset ⊢
  split <;> omega

section Blocks

variable (same : p.Matches hw) (halves : c.InHalves p) (wide : p.Wide)
  (ends : c.EndsB p (c.exReq p false base).bAddrEnd)
  (memory : InMemory p c.bDramAddr c.bDramStride (p.inputW / 8) (c.ldBReq p false).maxRow
    (c.ldBReq p false).maxCol)
include same halves wide ends memory

theorem blockB_eq {k j : ℕ} (hk : k < c.maxK) (hj : j < c.maxJ) :
    c.blockB p hw base k j =
      (c.gridB p (c.exReq p false base).bAddrEnd c.rowPadB).piece p.blockSize ((c.ldBReq p false).row k j)
        ((c.ldBReq p false).col k j) := by
  have fits := halves.fitsB wide ends (Cfg.rowPadB_lt halves) memory
  have bytes : p.inputW / 8 = 1 := by rw [same.inputW]
  have small := bSpAddr_lt same halves hk hj
  rw [Cfg.blockB, dataB ends fits hk hj, LoopArgs.moveB]
  cases transposed : c.bTranspose with
  | false =>
    rw [if_neg (by simp [Cfg.loopArgs, transposed]), ofMove_spad small]
    simp [Grid.piece, Cfg.gridB, grid, row, col, maxRow, maxCol, colPad, Cfg.ldBReq, Cfg.rowPadB, Cfg.loopWs,
      transposed, pad_mod halves.padJ, bytes, side, same.dim]
    exact ⟨rfl, rfl⟩
  | true =>
    rw [if_pos (by simp [Cfg.loopArgs, transposed]), ofMove_spad small]
    simp [Grid.piece, Cfg.gridB, grid, row, col, maxRow, maxCol, colPad, Cfg.ldBReq, Cfg.rowPadB, Cfg.loopWs,
      transposed, pad_mod halves.padK, bytes, side, same.dim]
    exact ⟨rfl, rfl⟩

theorem blocksB_cells :
    ((List.range c.maxK).flatMap fun k => (List.range c.maxJ).map fun j => c.blockB p hw base k j).Perm
      ((c.gridB p (c.exReq p false base).bAddrEnd c.rowPadB).cells p.blockSize) := by
  refine Grid.cells_perm c.bTranspose rfl rfl fun k hk j hj => ?_
  exact blockB_eq same halves wide ends memory hk hj

end Blocks

/-! ### What LdB loads -/

theorem Grid.mem_cells {g : Grid} {bs : ℕ} {x : Piece} :
    x ∈ g.cells bs ↔ ∃ row < g.maxRow, ∃ col < g.maxCol, g.piece bs row col = x := by
  simp [Grid.cells]

section

variable {g g' : Grid} {bs : ℕ} (perm : (g.cells bs).Perm (g'.cells bs)) (rows : 0 < g'.maxRow)
  (cols : 0 < g'.maxCol)
include perm rows cols

theorem Grid.start_le_of_perm : g.start ≤ g'.start := by
  have corner := perm.mem_iff.mpr (Grid.mem_cells.mpr ⟨0, rows, 0, cols, rfl⟩)
  obtain ⟨row, -, col, -, eq⟩ := Grid.mem_cells.mp corner
  have places : g.start + (row * g.maxCol + col) * bs = g'.start + (0 * g'.maxCol + 0) * bs :=
    congrArg Piece.row eq
  omega

theorem Grid.rowPad_of_perm (whole : g.rowPad = 0) (small : g'.rowPad < bs) : g'.rowPad = 0 := by
  have last := perm.mem_iff.mpr (Grid.mem_cells.mpr ⟨g'.maxRow - 1, by omega, 0, cols, rfl⟩)
  obtain ⟨row, -, col, -, eq⟩ := Grid.mem_cells.mp last
  have sizes : (bs - if row = g.maxRow - 1 then g.rowPad else 0) =
      bs - if g'.maxRow - 1 = g'.maxRow - 1 then g'.rowPad else 0 := congrArg Piece.rows eq
  rw [whole, ite_self, if_pos rfl] at sizes
  omega

end

variable (wide : p.Wide) (halves : c.InHalves p) (ends : c.EndsB p (c.ldBReq p false).addrEnd)
  (same : p.Matches hw) (ends' : c.EndsB p (c.exReq p false base).bAddrEnd) (given : c.bDramAddr ≠ 0)
  (memory : InMemory p c.bDramAddr c.bDramStride (p.inputW / 8) (c.ldBReq p false).maxRow
    (c.ldBReq p false).maxCol)
include wide halves ends given memory

theorem ldB_cells :
    ∃ es, (ldB p).Streams (c.ldBReq p false) es ∧
      (es.flatMap (OutCmd.pieces p.blockSize (p.inputW / 8))).Perm
        ((c.gridB p (c.ldBReq p false).addrEnd 0).cells p.blockSize) := by
  have fits := halves.fitsB wide ends halves.block_pos memory
  have swept := swept fits ends.room rfl
  have alive := beq_eq_false_iff_ne.mpr given
  exact ⟨_, (ldB p).streams_of_total (swept.proper fits.toSized rfl).total, swept.cells fits alive⟩

include same ends'

theorem rowPadB_of_loadsB (loads : c.LoadsB p hw base) :
    c.rowPadB = 0 ∧ (c.ldBReq p false).addrEnd = (c.exReq p false base).bAddrEnd := by
  obtain ⟨es, streams, perm⟩ := loads
  obtain ⟨es', streams', cells⟩ := ldB_cells wide halves ends given memory
  obtain rfl := streams.unique streams'
  rw [if_neg given] at perm
  have grids := (cells.symm.trans perm).trans (blocksB_cells same halves wide ends' memory)
  have fits := halves.fitsB wide ends halves.block_pos memory
  have fits' := halves.fitsB wide ends' (Cfg.rowPadB_lt halves) memory
  have pad := Grid.rowPad_of_perm grids fits'.rows_pos fits'.cols_pos rfl (Cfg.rowPadB_lt halves)
  have starts : (c.ldBReq p false).addrEnd - c.maxK * c.maxJ * p.blockSize =
      (c.exReq p false base).bAddrEnd - c.maxK * c.maxJ * p.blockSize :=
    (Grid.start_le_of_perm grids fits'.rows_pos fits'.cols_pos).antisymm
      (Grid.start_le_of_perm grids.symm fits.rows_pos fits.cols_pos)
  have room := ends.room
  have room' := ends'.room
  exact ⟨pad, by omega⟩

/-- LdB loads the tile of B as the functional model does, to where Execute reads it, just when the last row
of blocks lacks no rows and both units look for B at the same end of the scratchpad. -/
theorem loadsB_iff :
    c.LoadsB p hw base ↔
      c.rowPadB = 0 ∧ (c.ldBReq p false).addrEnd = (c.exReq p false base).bAddrEnd := by
  constructor
  · intro loads
    exact rowPadB_of_loadsB wide halves ends same ends' given memory loads
  · rintro ⟨whole, sameEnd⟩
    obtain ⟨es, streams, cells⟩ := ldB_cells wide halves ends given memory
    refine ⟨es, streams, ?_⟩
    have blocks := blocksB_cells same halves wide ends' memory
    rw [whole, ← sameEnd] at blocks
    rw [if_neg given]
    exact cells.trans blocks.symm

end LoadB

/-- A B whose columns alone are short is loaded as it should be. -/
theorem edge_loadsB : edgeCfg.LoadsB (.ofArray fourArray) fourHw 16 := by
  have ends : edgeCfg.EndsB (.ofArray fourArray) 32 := ⟨by decide, by decide⟩
  exact (loadsB_iff fourArray_wide edgeCfg_halves ends fourArray_matches ends (by decide) (by decide)).mpr
    ⟨rfl, rfl⟩

/-- A B of three rows: the fourth row of its block is loaded from beyond it. -/
theorem short_B_loaded_whole : ¬{ edgeCfg with padK := 1 }.LoadsB (.ofArray fourArray) fourHw 16 := by
  intro loads
  have halves : { edgeCfg with padK := 1 }.InHalves (.ofArray fourArray) := by
    constructor <;> first | decide | exact ⟨by decide, by decide, by decide⟩
  have ends : { edgeCfg with padK := 1 }.EndsB (.ofArray fourArray) 32 := ⟨by decide, by decide⟩
  have whole := rowPadB_of_loadsB fourArray_wide halves ends fourArray_matches ends (by decide)
    (by decide) loads
  exact absurd whole.1 (by decide)

end Gemmini.LoopMatmul
