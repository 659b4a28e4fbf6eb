import Gemmini.Simulator.Effects

/-!
# The local rows of `loop_ws`

`loop_ws` decides by two products, in the arithmetic of `int`, whether it runs, and hands `uint32_t`
addresses to its commands.
-/

namespace Gemmini.Simulator

open LoopArgs

/-- `DIM - (i == n-1 ? pad : 0)` as a `uint64_t`. -/
def side64 (hw : Hw) (n pad i : ℕ) : ℕ := (hw.dim + 2 ^ 64 - if i + 1 = n then pad else 0) % 2 ^ 64

/-- `(rows << 48) | (cols << 32) | addr` as a `uint64_t`. -/
def packed64 (rows cols addr : ℕ) : ℕ := packed rows cols addr % 2 ^ 64

/-! ### The commands of the loops -/

inductive Access
  | mvin (id sp : ℕ)
  | mvout (sp : ℕ)
  | preload (bd c : ℕ)
  | compute (a : ℕ)

namespace LoopArgs

variable (hw : Hw) (p : LoopArgs) (l : LoopWs)

/-- `A_sp_addr` -/
def aAddr32 (i k : ℕ) : ℕ :=
  p.aSpAddr hw l i k % 2 ^ 32

/-- `B_sp_addr` -/
def bAddr32 (k j : ℕ) : ℕ :=
  p.bSpAddr hw l k j % 2 ^ 32

/-- The block `(i, j)` from a start in the accumulator. -/
def accAddr32 (start i j : ℕ) : ℕ := (start + (i * l.J + j) * hw.dim) % 2 ^ 32

def resaddAccesses (i j : ℕ) : List Access :=
  let place (start : ℕ) := packed64 (side64 hw l.I l.padI i) (side64 hw l.J l.padJ j) (accAddr32 hw l start i j)
  [.mvin 0 (place (1 <<< 31)), .mvin 1 (place (3 <<< 30))] ++ if l.C ≠ 0 then [.mvout (place p.cStart)] else []

/-- The rows of the blocks `(i, _)` with the commands of a normalization. -/
def normAccesses (act : Activation) (i : ℕ) : List Access :=
  let rows := side64 hw l.I l.padI i
  (List.range ((rows + hw.normStatIds - 1) / hw.normStatIds)).flatMap fun group =>
    (List.range 3).flatMap fun cmd =>
      (List.range (min hw.normStatIds (rows - group * hw.normStatIds))).flatMap fun statId =>
        (List.range l.J).map fun j =>
          let cmds := normCmds act cmd
          .mvout (packed64 1 (side64 hw l.J l.padJ j)
            ((accAddr32 hw l p.cStart i j + (group * hw.normStatIds + statId)) % 2 ^ 32 |||
              (if j + 1 = l.J then cmds.2 else cmds.1) <<< 26))

/-- The stores of the block `(i, j)`, or of the blocks `(i, _)` with the last of them. -/
def storeAccesses (j i : ℕ) : List Access :=
  if p.act = Activation.layernorm.toNat then
    if j + 1 = l.J then p.normAccesses hw l .layernorm i else []
  else if p.act = Activation.softmax.toNat then
    if j + 1 = l.J then p.normAccesses hw l .softmax i else []
  else [.mvout (packed64 (side64 hw l.I l.padI i) (side64 hw l.J l.padJ j) (accAddr32 hw l p.cStart i j))]

def bodyAccesses (k j i : ℕ) : List Access :=
  let lines := side64 hw l.I l.padI i
  let depth := side64 hw l.K l.padK k
  let width := side64 hw l.J l.padJ j
  let out := accAddr32 hw l p.cStart i j
  (if j = 0 ∧ l.A ≠ 0 then
      [.mvin 0 (if p.aTranspose then packed64 depth lines (p.aAddr32 hw l i k)
        else packed64 lines depth (p.aAddr32 hw l i k))]
    else []) ++
    (if i = 0 ∧ l.B ≠ 0 then
      [.mvin 1 (if p.bTranspose then packed64 width depth (p.bAddr32 hw l k j)
        else packed64 depth width (p.bAddr32 hw l k j))]
    else []) ++
    [.preload (packed64 depth width (if i = 0 then p.bAddr32 hw l k j else garbageAddr))
        (packed64 lines width (if p.exAccumulate = false ∧ k = 0 then clearBit out 30 else out)),
      .compute (packed64 lines depth (p.aAddr32 hw l i k))] ++
    if l.C ≠ 0 ∧ k + 1 = l.K then p.storeAccesses hw l j i else []

def biasAccesses : List Access :=
  if l.D ≠ 0 then
    (List.range l.I).flatMap fun i => (List.range l.J).map fun j =>
      .mvin 2 (packed64 (side64 hw l.I l.padI i) (side64 hw l.J l.padJ j) (accAddr32 hw l (1 <<< 31) i j))
  else []

/-- All commands of `loop_ws`. -/
def accesses : List Access :=
  if p.isResadd then
    (List.range l.I).flatMap fun i => (List.range l.J).flatMap fun j => p.resaddAccesses hw l i j
  else
    biasAccesses hw l ++ (List.range l.K).flatMap fun k => (List.range l.J).flatMap fun j =>
      (List.range l.I).flatMap fun i => p.bodyAccesses hw l k j i

end LoopArgs

/-! ### The rows of a command -/

inductive Operand
  | a
  | b
  | c
  | d
  deriving DecidableEq

def Operand.ofId : ℕ → Operand
  | 0 => .a
  | 1 => .b
  | _ => .d

def Access.Touches (hw : Hw) (s : State) (acc : Bool) (row : ℕ) : Access → Operand → Prop
  | .mvin id sp, operand => operand = .ofId id ∧ acc = flag sp 31 ∧
      ∃ r < field sp 48 16, ∃ c < field sp 32 16,
        let spadRow := field sp 0 29 + r + c / hw.dim * (s.load id).blockStride
        ∃ pixel < min (s.load id).pixelsPerRow (spadRow + 1), row = spadRow - pixel
  | .mvout sp, operand => operand = .c ∧ acc = flag sp 31 ∧
      if s.pool.stride = 0 then
        ∃ r < field sp 48 16, ∃ c < field sp 32 16, row = field sp 0 26 + c / hw.dim * hw.dim + r
      else
        0 < field sp 32 16 ∧ ∃ porow < s.pool.porows, ∃ pocol < s.pool.pocols,
          ∃ wrow < s.pool.size, ∃ wcol < s.pool.size,
            let orow : ℤ := porow * s.pool.stride + wrow - s.pool.upad
            let ocol : ℤ := pocol * s.pool.stride + wcol - s.pool.lpad
            ¬(orow < 0 ∨ ocol < 0 ∨ orow ≥ s.pool.orows ∨ ocol ≥ s.pool.ocols) ∧
              row = (field sp 0 26 + orow * s.pool.ocols + ocol).toNat
  | .preload bd c, operand =>
      (operand = .b ∧ acc = false ∧ field bd 0 32 ≠ garbageAddr ∧
        ∃ r < min (field bd 48 16) hw.dim, ∃ k < min (field bd 32 16) hw.dim,
          row = field bd 0 32 + if s.mode = .ws ∧ s.bTranspose then k else r) ∨
      operand = .c ∧ acc = flag c 31 ∧ field c 0 32 ≠ garbageAddr ∧
        ∃ r < field c 48 16, 0 < field c 32 16 ∧ row = field c 0 29 + s.cStride * r
  | .compute a, operand => operand = .a ∧ acc = false ∧ field a 0 32 ≠ garbageAddr ∧
      ∃ r < min (field a 48 16) hw.dim, ∃ k < min (field a 32 16) hw.dim,
        row = field a 0 32 + s.aStride * if s.aTranspose then k else r

/-- Where the rows of an operand belong: in which memory, from a row and below a row. -/
def LoopArgs.region (hw : Hw) (p : LoopArgs) (operand : Operand) : Bool × ℕ × ℕ :=
  let rows := hw.bankNum * hw.bankRows
  let half (id : ℕ) := if id = 2 then (rows / 2, rows) else (0, rows / 2)
  if p.isResadd then (true, 0, hw.accRows / 2)
  else match operand with
    | .a => (false, half p.aSpadId)
    | .b => (false, half p.bSpadId)
    | .c => (true, 0, hw.accRows / 2)
    | .d => (true, 0, hw.accRows / 2)

/-- All rows lie where they belong, and no row of the scratchpad is used for both A and B. -/
structure LoopArgs.Confined (hw : Hw) (p : LoopArgs) (l : LoopWs) (s : State) : Prop where
  inRegion : ∀ cmd ∈ p.accesses hw l, ∀ operand acc row, cmd.Touches hw s acc row operand →
    acc = (p.region hw operand).1 ∧ (p.region hw operand).2.1 ≤ row ∧ row < (p.region hw operand).2.2
  disjoint : ∀ cmd ∈ p.accesses hw l, ∀ cmd' ∈ p.accesses hw l, ∀ row,
    cmd.Touches hw s false row .a → ¬cmd'.Touches hw s false row .b

/-- The loads, stores and computations are configured for a loop, and no pad is larger than a block. -/
structure LoopArgs.Plain (hw : Hw) (l : LoopWs) (s : State) : Prop where
  pixels : ∀ id < 3, (s.load id).pixelsPerRow = 1
  aStride : s.aStride = 1
  cStride : s.cStride = 1
  pool : s.pool.stride = 0
  padI : l.padI ≤ hw.dim
  padJ : l.padJ ≤ hw.dim
  padK : l.padK ≤ hw.dim

/-- The last blocks are not empty. -/
structure LoopArgs.Filled (hw : Hw) (l : LoopWs) : Prop where
  padI : l.padI < hw.dim
  padJ : l.padJ < hw.dim
  padK : l.padK < hw.dim

/-! ### Rows of single commands -/

section Touched

variable {hw : Hw} {l : LoopWs} {s : State}

theorem side64_pos {n pad i : ℕ} (small : pad < hw.dim) : 0 < side64 hw n pad i := by
  have := hw.dim_lt
  unfold side64
  split <;> omega

theorem side64_le {n pad i : ℕ} (small : pad ≤ hw.dim) : side64 hw n pad i ≤ hw.dim := by
  unfold side64
  split <;> omega

theorem packed64_eq {rows cols addr : ℕ} (hr : rows ≤ hw.dim) (hc : cols ≤ hw.dim) (ha : addr < 2 ^ 32) :
    packed64 rows cols addr = packed rows cols addr := by
  have := hw.dim_lt
  have eq : packed rows cols addr = rows * 2 ^ 48 + cols * 2 ^ 32 + addr := packed_eq (by omega) ha
  rw [packed64, eq]
  apply Nat.mod_eq_of_lt
  omega

/-- A block of at most `DIM` rows and columns. -/
structure Block (hw : Hw) (rows cols addr : ℕ) : Prop where
  rows_le : rows ≤ hw.dim
  cols_le : cols ≤ hw.dim
  addr_lt : addr < 2 ^ 32

namespace Block

variable {rows cols addr : ℕ} (block : Block hw rows cols addr)

include block

theorem cols_lt : cols < 2 ^ 16 := block.cols_le.trans_lt hw.dim_lt

theorem rows_lt : rows < 2 ^ 16 := block.rows_le.trans_lt hw.dim_lt

theorem field_low {lo len : ℕ} (low : lo + len ≤ 32) :
    field (packed64 rows cols addr) lo len = field addr lo len := by
  rw [packed64_eq block.rows_le block.cols_le block.addr_lt, field_packed block.cols_lt block.addr_lt low]

theorem flag_low {i : ℕ} (low : i < 32) : flag (packed64 rows cols addr) i = flag addr i := by
  rw [flag, flag, block.field_low low]

theorem field_addr : field (packed64 rows cols addr) 0 32 = addr := by
  rw [block.field_low le_rfl, field, pow_zero, Nat.div_one]
  exact Nat.mod_eq_of_lt block.addr_lt

theorem field_cols : field (packed64 rows cols addr) 32 16 = cols := by
  rw [packed64_eq block.rows_le block.cols_le block.addr_lt, field_packed_cols block.cols_lt block.addr_lt]

theorem field_rows : field (packed64 rows cols addr) 48 16 = rows := by
  rw [packed64_eq block.rows_le block.cols_le block.addr_lt,
    field_packed_rows block.rows_lt block.cols_lt block.addr_lt]

theorem preload_weights (someRows : 0 < rows) (someCols : 0 < cols) (valid : addr ≠ garbageAddr) (out : ℕ) :
    (Access.preload (packed64 rows cols addr) out).Touches hw s false addr .b := by
  have := hw.dim_pos
  simp only [Access.Touches, block.field_addr, block.field_rows, block.field_cols]
  refine .inl ⟨trivial, trivial, valid, 0, by omega, 0, by omega, ?_⟩
  rw [ite_self, add_zero]

theorem preload_output (someRows : 0 < rows) (someCols : 0 < cols) (valid : addr ≠ garbageAddr) (bd : ℕ) :
    (Access.preload bd (packed64 rows cols addr)).Touches hw s (flag addr 31) (field addr 0 29) .c := by
  refine .inr ⟨rfl, (block.flag_low (by decide)).symm, by rwa [block.field_addr], 0, ?_, ?_, ?_⟩
  · rwa [block.field_rows]
  · rwa [block.field_cols]
  · rw [mul_zero, add_zero, block.field_low (show 0 + 29 ≤ 32 by decide)]

variable {acc : Bool} {row : ℕ} {operand : Operand} (plain : Plain hw l s)

include plain

omit plain in
theorem columns_iff (base stride : ℕ) :
    (∃ r < rows, ∃ c < cols, row = base + r + c / hw.dim * stride) ↔ 0 < cols ∧ ∃ r < rows, row = base + r := by
  constructor
  · rintro ⟨r, hr, c, hc, rfl⟩
    refine ⟨by omega, r, hr, ?_⟩
    rw [Nat.div_eq_of_lt (hc.trans_le block.cols_le), zero_mul, add_zero]
  · rintro ⟨some, r, hr, rfl⟩
    refine ⟨r, hr, 0, some, ?_⟩
    rw [Nat.zero_div, zero_mul, add_zero]

theorem mvin_iff {id : ℕ} (hid : id < 3) :
    (Access.mvin id (packed64 rows cols addr)).Touches hw s acc row operand ↔
      operand = .ofId id ∧ acc = flag addr 31 ∧ 0 < cols ∧ ∃ r < rows, row = field addr 0 29 + r := by
  have one (x : ℕ) : (∃ pixel < min 1 (x + 1), row = x - pixel) ↔ row = x :=
    ⟨fun ⟨pixel, lt, eq⟩ => by omega, fun eq => ⟨0, by omega, eq⟩⟩
  simp only [Access.Touches, plain.pixels id hid, block.field_rows, block.field_cols, block.flag_low (i := 31)
    (by decide), block.field_low (show 0 + 29 ≤ 32 by decide), one, block.columns_iff]

theorem mvout_iff : (Access.mvout (packed64 rows cols addr)).Touches hw s acc row operand ↔
      operand = .c ∧ acc = flag addr 31 ∧ 0 < cols ∧ ∃ r < rows, row = field addr 0 26 + r := by
  simp only [Access.Touches, plain.pool, if_true, block.field_rows, block.field_cols, block.flag_low (i := 31)
    (by decide), block.field_low (show 0 + 26 ≤ 32 by decide), add_right_comm, block.columns_iff]

theorem of_compute (touched : (Access.compute (packed64 rows cols addr)).Touches hw s acc row operand) :
    operand = .a ∧ acc = false ∧ ∃ r < hw.dim, row = addr + r := by
  simp only [Access.Touches, block.field_addr, plain.aStride, one_mul] at touched
  obtain ⟨rfl, rfl, -, r, hr, k, hk, rfl⟩ := touched
  refine ⟨rfl, rfl, _, ?_, rfl⟩
  split <;> omega

theorem compute_first (someRows : 0 < rows) (someCols : 0 < cols) (valid : addr ≠ garbageAddr) :
    (Access.compute (packed64 rows cols addr)).Touches hw s false addr .a := by
  have := hw.dim_pos
  simp only [Access.Touches, block.field_addr, block.field_rows, block.field_cols, plain.aStride, one_mul]
  refine ⟨trivial, trivial, valid, 0, by omega, 0, by omega, ?_⟩
  rw [ite_self, add_zero]

end Block

theorem touches_preload {rows cols addr rows' cols' out row : ℕ} {acc : Bool} {operand : Operand}
    (plain : Plain hw l s) (b : Block hw rows cols addr) (c : Block hw rows' cols' out)
    (touched : (Access.preload (packed64 rows cols addr) (packed64 rows' cols' out)).Touches hw s acc row
      operand) :
    (operand = .b ∧ acc = false ∧ addr ≠ garbageAddr ∧ ∃ r < hw.dim, row = addr + r) ∨
      operand = .c ∧ acc = flag out 31 ∧ ∃ r < rows', row = field out 0 29 + r := by
  simp only [Access.Touches, b.field_addr, c.field_rows, c.flag_low (i := 31) (by decide), plain.cStride,
    one_mul, c.field_low (show 0 + 29 ≤ 32 by decide)] at touched
  rcases touched with ⟨rfl, rfl, valid, r, hr, k, hk, rfl⟩ | ⟨rfl, rfl, -, r, hr, -, rfl⟩
  · refine .inl ⟨rfl, rfl, valid, _, ?_, rfl⟩
    split <;> omega
  · exact .inr ⟨rfl, rfl, r, hr, rfl⟩

end Touched

/-! ### Addresses in the accumulator -/

def AccStart (start : ℕ) : Prop := ∃ accumulate full : Bool,
  start = 2 ^ 31 + accumulate.toNat * 2 ^ 30 + full.toNat * 2 ^ 29

namespace AccStart

variable {start x : ℕ} (isStart : AccStart start) (small : x < 2 ^ 26)

include isStart small

theorem lt : start + x < 2 ^ 32 := by
  obtain ⟨accumulate, full, rfl⟩ := isStart
  have := accumulate.toNat_le
  have := full.toNat_le
  omega

theorem ne_garbage : start + x ≠ garbageAddr := by
  obtain ⟨accumulate, full, rfl⟩ := isStart
  unfold garbageAddr
  omega

theorem flag_eq : flag (start + x) 31 = true := by
  obtain ⟨accumulate, full, rfl⟩ := isStart
  have := accumulate.toNat_le
  have := full.toNat_le
  apply decide_eq_true
  rw [field]
  omega

theorem field_eq : field (start + x) 0 29 = x ∧ field (start + x) 0 26 = x := by
  obtain ⟨accumulate, full, rfl⟩ := isStart
  simp only [field, pow_zero, Nat.div_one]
  omega

theorem clearBit_eq : ∃ start', AccStart start' ∧ clearBit (start + x) 30 = start' + x := by
  obtain ⟨accumulate, full, rfl⟩ := isStart
  refine ⟨2 ^ 31 + full.toNat * 2 ^ 29, ⟨false, full, by simp⟩, ?_⟩
  have := accumulate.toNat_le
  have := full.toNat_le
  simp only [clearBit, field]
  omega

end AccStart

theorem accStart_d : AccStart (1 <<< 31) := ⟨false, false, rfl⟩

theorem accStart_b : AccStart (3 <<< 30) := ⟨true, false, rfl⟩

theorem LoopArgs.cStart_eq (p : LoopArgs) : p.cStart = 3 * 2 ^ 30 + p.fullC.toNat * 2 ^ 29 := by
  unfold LoopArgs.cStart
  cases p.fullC <;> rfl

theorem accStart_c (p : LoopArgs) : AccStart p.cStart := by
  refine ⟨true, p.fullC, ?_⟩
  rw [p.cStart_eq, Bool.toNat_true]
  omega

theorem normCmds_lt (act : Activation) (cmd : ℕ) (last : Bool) :
    (if last then (normCmds act cmd).2 else (normCmds act cmd).1) < 2 ^ 3 := by
  have both : (normCmds act cmd).1 < 2 ^ 3 ∧ (normCmds act cmd).2 < 2 ^ 3 := by
    unfold normCmds
    split <;> decide
  cases last
  · exact both.1
  · exact both.2

/-! ### Where the rows are -/

def AccRoom (hw : Hw) (l : LoopWs) : Prop := l.I * l.J * hw.dim ≤ hw.accRows / 2

def SpadRoom (hw : Hw) (l : LoopWs) : Prop :=
  l.I * l.K * hw.dim + l.K * l.J * hw.dim ≤ hw.bankNum * hw.bankRows / 2

/-- The blocks of C, if there is a command on one, and those of A and B stay in their halves without
wrapping. -/
structure LoopArgs.Fits (hw : Hw) (p : LoopArgs) (l : LoopWs) : Prop where
  acc : p.isResadd = true ∨ l.K ≠ 0 ∨ l.D ≠ 0 → AccRoom hw l
  spad : p.isResadd = false → l.I ≠ 0 → l.J ≠ 0 → SpadRoom hw l

def LoopArgs.span (hw : Hw) (p : LoopArgs) (l : LoopWs) (operand : Operand) : Bool × ℕ × ℕ :=
  if p.isResadd then (true, 0, l.I * l.J * hw.dim)
  else match operand with
    | .a => (false, p.aStart hw, p.aStart hw + l.I * l.K * hw.dim)
    | .b => (false, p.bStart hw l, p.bStart hw l + l.K * l.J * hw.dim)
    | .c => (true, 0, l.I * l.J * hw.dim)
    | .d => (true, 0, l.I * l.J * hw.dim)

section Within

variable {hw : Hw} {p : LoopArgs} {l : LoopWs} {s : State} {i j k : ℕ}

def Access.Within (hw : Hw) (p : LoopArgs) (l : LoopWs) (s : State) (cmd : Access) : Prop :=
  ∀ operand acc row, cmd.Touches hw s acc row operand →
    acc = (p.span hw l operand).1 ∧ (p.span hw l operand).2.1 ≤ row ∧ row < (p.span hw l operand).2.2

theorem outAddr_eq (hw : Hw) (p : LoopArgs) (l : LoopWs) (k : ℕ) (small : (i * l.J + j) * hw.dim < 2 ^ 26) :
    ∃ start, AccStart start ∧
      (if p.exAccumulate = false ∧ k = 0 then clearBit (accAddr32 hw l p.cStart i j) 30
        else accAddr32 hw l p.cStart i j) = start + (i * l.J + j) * hw.dim := by
  have addr : accAddr32 hw l p.cStart i j = p.cStart + (i * l.J + j) * hw.dim :=
    Nat.mod_eq_of_lt ((accStart_c p).lt small)
  rw [addr]
  split
  · exact (accStart_c p).clearBit_eq small
  · exact ⟨_, accStart_c p, rfl⟩

theorem span_c (p : LoopArgs) : p.span hw l .c = (true, 0, l.I * l.J * hw.dim) := by
  unfold span
  split <;> rfl

theorem span_d (p : LoopArgs) : p.span hw l .d = (true, 0, l.I * l.J * hw.dim) := by
  unfold span
  split <;> rfl

theorem span_of_resadd (resadd : p.isResadd = true) (operand : Operand) :
    p.span hw l operand = (true, 0, l.I * l.J * hw.dim) := if_pos resadd

theorem span_a (matmul : p.isResadd = false) :
    p.span hw l .a = (false, p.aStart hw, p.aStart hw + l.I * l.K * hw.dim) := if_neg (by simp [matmul])

theorem span_b (matmul : p.isResadd = false) :
    p.span hw l .b = (false, p.bStart hw l, p.bStart hw l + l.K * l.J * hw.dim) := if_neg (by simp [matmul])

section Accumulator

variable (room : AccRoom hw l) (hi : i < l.I) (hj : j < l.J)

include room hi hj

theorem AccRoom.row_lt {r : ℕ} (hr : r < hw.dim) :
    (i * l.J + j) * hw.dim + r < l.I * l.J * hw.dim ∧ (i * l.J + j) * hw.dim + r < 2 ^ 26 := by
  have inside := block_end_le hw.dim hi hj
  have rows := hw.acc_le
  rw [AccRoom] at room
  omega

variable (plain : Plain hw l s)

include plain

theorem AccRoom.block {start : ℕ} (isStart : AccStart start) :
    (i * l.J + j) * hw.dim < 2 ^ 26 ∧
      accAddr32 hw l start i j = start + (i * l.J + j) * hw.dim ∧
      Block hw (side64 hw l.I l.padI i) (side64 hw l.J l.padJ j) (start + (i * l.J + j) * hw.dim) := by
  have small : (i * l.J + j) * hw.dim < 2 ^ 26 := (room.row_lt hi hj hw.dim_pos).2
  have lt := isStart.lt small
  exact ⟨small, Nat.mod_eq_of_lt lt, side64_le plain.padI, side64_le plain.padJ, lt⟩

theorem within_mvin {start id : ℕ} (isStart : AccStart start) (hid : id < 3)
    (own : p.span hw l (.ofId id) = (true, 0, l.I * l.J * hw.dim)) :
    (Access.mvin id (packed64 (side64 hw l.I l.padI i) (side64 hw l.J l.padJ j)
      (accAddr32 hw l start i j))).Within hw p l s := by
  intro operand acc row touched
  obtain ⟨small, addr, block⟩ := room.block hi hj plain isStart
  rw [addr, block.mvin_iff plain hid, isStart.flag_eq small, (isStart.field_eq small).1] at touched
  obtain ⟨rfl, rfl, -, r, hr, rfl⟩ := touched
  rw [own]
  exact ⟨rfl, Nat.zero_le _, (room.row_lt hi hj (hr.trans_le block.rows_le)).1⟩

theorem within_mvout :
    (Access.mvout (packed64 (side64 hw l.I l.padI i) (side64 hw l.J l.padJ j)
      (accAddr32 hw l p.cStart i j))).Within hw p l s := by
  intro operand acc row touched
  have isStart := accStart_c p
  obtain ⟨small, addr, block⟩ := room.block hi hj plain isStart
  rw [addr, block.mvout_iff plain, isStart.flag_eq small, (isStart.field_eq small).2] at touched
  obtain ⟨rfl, rfl, -, r, hr, rfl⟩ := touched
  rw [span_c]
  exact ⟨rfl, Nat.zero_le _, (room.row_lt hi hj (hr.trans_le block.rows_le)).1⟩

theorem within_norm {r norm : ℕ} (hr : r < hw.dim) (three : norm < 2 ^ 3) :
    (Access.mvout (packed64 1 (side64 hw l.J l.padJ j)
      ((accAddr32 hw l p.cStart i j + r) % 2 ^ 32 ||| norm <<< 26))).Within hw p l s := by
  intro operand acc row touched
  have full := p.fullC.toNat_le
  obtain ⟨inside, small⟩ := room.row_lt hi hj hr
  have eq : (accAddr32 hw l p.cStart i j + r) % 2 ^ 32 ||| norm <<< 26 =
      (6 + p.fullC.toNat) * 2 ^ 29 + norm * 2 ^ 26 + ((i * l.J + j) * hw.dim + r) := by
    rw [← normAddr_eq small three, (room.block hi hj plain (accStart_c p)).2.1, add_assoc,
      Nat.mod_eq_of_lt ((accStart_c p).lt small), p.cStart_eq]
  have block : Block hw 1 (side64 hw l.J l.padJ j)
      ((6 + p.fullC.toNat) * 2 ^ 29 + norm * 2 ^ 26 + ((i * l.J + j) * hw.dim + r)) :=
    ⟨hw.dim_pos, side64_le plain.padJ, by omega⟩
  rw [eq, block.mvout_iff plain] at touched
  obtain ⟨rfl, rfl, -, r', hr', rfl⟩ := touched
  rw [span_c]
  refine ⟨?_, Nat.zero_le _, ?_⟩
  · apply decide_eq_true
    rw [field]
    omega
  · simp only [field, pow_zero, Nat.div_one]
    omega

end Accumulator

/-! ### Addresses in the scratchpad -/

theorem LoopArgs.aStart_le (hw : Hw) (p : LoopArgs) : p.aStart hw ≤ hw.bankNum * hw.bankRows / 2 := by
  unfold aStart
  split <;> omega

theorem index_end_le (hw : Hw) (transposed : Bool) {row col maxRow maxCol : ℕ} (hr : row < maxRow)
    (hc : col < maxCol) : (if transposed then col * maxRow + row else row * maxCol + col) * hw.dim + hw.dim ≤
      maxRow * maxCol * hw.dim := by
  split
  · rw [mul_comm maxRow maxCol]
    exact block_end_le hw.dim hc hr
  · exact block_end_le hw.dim hr hc

section Scratchpad

variable (room : SpadRoom hw l)

include room

theorem aAddr32_place (hi : i < l.I) (hk : k < l.K) : p.aStart hw ≤ p.aAddr32 hw l i k ∧
    p.aAddr32 hw l i k + hw.dim ≤ p.aStart hw + l.I * l.K * hw.dim ∧
    p.aStart hw + l.I * l.K * hw.dim ≤ 2 ^ 29 := by
  have size := hw.spad_le
  have start := p.aStart_le hw
  have inside := index_end_le hw p.aTranspose hi hk
  rw [SpadRoom] at room
  rw [aAddr32, aSpAddr, Nat.mod_eq_of_lt (by omega)]
  omega

theorem bAddr32_place (hk : k < l.K) (hj : j < l.J) : p.bStart hw l ≤ p.bAddr32 hw l k j ∧
    p.bAddr32 hw l k j + hw.dim ≤ p.bStart hw l + l.K * l.J * hw.dim ∧
    p.bStart hw l + l.K * l.J * hw.dim ≤ 2 ^ 29 := by
  have size := hw.spad_le
  rw [SpadRoom] at room
  have top : p.bStart hw l + l.K * l.J * hw.dim ≤ hw.bankNum * hw.bankRows := by
    unfold bStart sub32
    split <;> omega
  have inside := index_end_le hw p.bTranspose hk hj
  rw [bAddr32, bSpAddr, Nat.mod_eq_of_lt (by omega)]
  omega

end Scratchpad

theorem within_spad (plain : Plain hw l s) {rows cols addr lo hi id : ℕ}
    (block : Block hw rows cols addr) (hid : id < 3) (own : p.span hw l (.ofId id) = (false, lo, hi))
    (place : lo ≤ addr ∧ addr + hw.dim ≤ hi ∧ hi ≤ 2 ^ 29) :
    (Access.mvin id (packed64 rows cols addr)).Within hw p l s := by
  intro operand acc row touched
  have lines := block.rows_le
  have pos := hw.dim_pos
  have scratchpad : flag addr 31 = false := by
    apply decide_eq_false
    rw [field]
    omega
  have same : field addr 0 29 = addr := by
    rw [field, pow_zero, Nat.div_one]
    apply Nat.mod_eq_of_lt
    omega
  rw [block.mvin_iff plain hid, scratchpad, same] at touched
  obtain ⟨rfl, rfl, -, r, hr, rfl⟩ := touched
  rw [own]
  exact ⟨rfl, by dsimp only; omega, by dsimp only; omega⟩

/-! ### All commands -/

section Commands

variable (plain : Plain hw l s) (acc : AccRoom hw l) (spad : SpadRoom hw l)
  (matmul : p.isResadd = false) (hk : k < l.K) (hj : j < l.J) (hi : i < l.I)

include plain acc hi

theorem within_normAccesses (act : Activation) : ∀ cmd ∈ p.normAccesses hw l act i, cmd.Within hw p l s := by
  intro cmd mem
  simp only [LoopArgs.normAccesses, List.mem_flatMap, List.mem_map, List.mem_range] at mem
  obtain ⟨group, _, norm, _, statId, hstat, j, hj, rfl⟩ := mem
  have lines : side64 hw l.I l.padI i ≤ hw.dim := side64_le plain.padI
  refine within_norm acc hi hj plain (by omega) ?_
  have three := normCmds_lt act norm (decide (j + 1 = l.J))
  simpa using three

include hj

theorem within_resadd (resadd : p.isResadd = true) :
    ∀ cmd ∈ p.resaddAccesses hw l i j, cmd.Within hw p l s := by
  intro cmd mem
  simp only [LoopArgs.resaddAccesses, List.mem_append, List.mem_cons, List.not_mem_nil, or_false,
    List.mem_ite_nil_right] at mem
  rcases mem with (rfl | rfl) | ⟨-, rfl⟩
  · exact within_mvin acc hi hj plain accStart_d (by decide) (span_of_resadd resadd _)
  · exact within_mvin acc hi hj plain accStart_b (by decide) (span_of_resadd resadd _)
  · exact within_mvout acc hi hj plain

theorem within_store : ∀ cmd ∈ p.storeAccesses hw l j i, cmd.Within hw p l s := by
  intro cmd mem
  unfold LoopArgs.storeAccesses at mem
  split_ifs at mem with layernorm last softmax last
  · exact within_normAccesses plain acc hi _ cmd mem
  · cases mem
  · exact within_normAccesses plain acc hi _ cmd mem
  · cases mem
  · rw [List.mem_singleton.mp mem]
    exact within_mvout acc hi hj plain

include spad matmul hk

theorem within_preload :
    (Access.preload
      (packed64 (side64 hw l.K l.padK k) (side64 hw l.J l.padJ j)
        (if i = 0 then p.bAddr32 hw l k j else garbageAddr))
      (packed64 (side64 hw l.I l.padI i) (side64 hw l.J l.padJ j)
        (if p.exAccumulate = false ∧ k = 0 then clearBit (accAddr32 hw l p.cStart i j) 30
          else accAddr32 hw l p.cStart i j))).Within hw p l s := by
  intro operand isAcc row touched
  have place := bAddr32_place (p := p) spad hk hj
  obtain ⟨small, -, -⟩ := acc.block hi hj plain (accStart_c p)
  obtain ⟨start, isStart, out⟩ := outAddr_eq hw p l k small
  rw [out] at touched
  have b : Block hw (side64 hw l.K l.padK k) (side64 hw l.J l.padJ j)
      (if i = 0 then p.bAddr32 hw l k j else garbageAddr) := by
    refine ⟨side64_le plain.padK, side64_le plain.padJ, ?_⟩
    split
    · omega
    · decide
  have c := (acc.block hi hj plain isStart).2.2
  rcases touches_preload plain b c touched with ⟨rfl, rfl, valid, r, hr, rfl⟩ | ⟨rfl, rfl, r, hr, rfl⟩
  · rw [span_b matmul]
    split_ifs at valid ⊢
    · exact ⟨rfl, by dsimp only; omega, by dsimp only; omega⟩
    · exact absurd rfl valid
  · rw [span_c, isStart.flag_eq small, (isStart.field_eq small).1]
    exact ⟨rfl, Nat.zero_le _, (acc.row_lt hi hj (hr.trans_le c.rows_le)).1⟩

theorem within_body : ∀ cmd ∈ p.bodyAccesses hw l k j i, cmd.Within hw p l s := by
  have placeA := aAddr32_place (p := p) spad hi hk
  have placeB := bAddr32_place (p := p) spad hk hj
  have lines : side64 hw l.I l.padI i ≤ hw.dim := side64_le plain.padI
  have depth : side64 hw l.K l.padK k ≤ hw.dim := side64_le plain.padK
  have width : side64 hw l.J l.padJ j ≤ hw.dim := side64_le plain.padJ
  have addrA : p.aAddr32 hw l i k < 2 ^ 32 := by omega
  have addrB : p.bAddr32 hw l k j < 2 ^ 32 := by omega
  intro cmd mem
  simp only [LoopArgs.bodyAccesses, List.mem_append, List.mem_cons, List.not_mem_nil, or_false,
    List.mem_ite_nil_right] at mem
  rcases mem with ((⟨-, rfl⟩ | ⟨-, rfl⟩) | (rfl | rfl)) | ⟨-, mem⟩
  · split
    · exact within_spad plain ⟨depth, lines, addrA⟩ (by decide) (span_a matmul) placeA
    · exact within_spad plain ⟨lines, depth, addrA⟩ (by decide) (span_a matmul) placeA
  · split
    · exact within_spad plain ⟨width, depth, addrB⟩ (by decide) (span_b matmul) placeB
    · exact within_spad plain ⟨depth, width, addrB⟩ (by decide) (span_b matmul) placeB
  · exact within_preload plain acc spad matmul hk hj hi
  · intro operand isAcc row touched
    obtain ⟨rfl, rfl, r, hr, rfl⟩ := Block.of_compute ⟨lines, depth, addrA⟩ plain touched
    rw [span_a matmul]
    exact ⟨rfl, by dsimp only; omega, by dsimp only; omega⟩
  · exact within_store plain acc hj hi cmd mem

end Commands

theorem mem_accesses {cmd : Access} (mem : cmd ∈ p.accesses hw l) :
    (p.isResadd = true ∧ ∃ i < l.I, ∃ j < l.J, cmd ∈ p.resaddAccesses hw l i j) ∨
      p.isResadd = false ∧
        ((l.D ≠ 0 ∧ ∃ i < l.I, ∃ j < l.J, cmd = .mvin 2 (packed64 (side64 hw l.I l.padI i)
          (side64 hw l.J l.padJ j) (accAddr32 hw l (1 <<< 31) i j))) ∨
        ∃ k < l.K, ∃ j < l.J, ∃ i < l.I, cmd ∈ p.bodyAccesses hw l k j i) := by
  unfold accesses biasAccesses at mem
  cases resadd : p.isResadd with
  | true =>
    rw [if_pos resadd] at mem
    simpa [List.mem_flatMap] using mem
  | false =>
    rw [if_neg (by simp [resadd]), List.mem_append] at mem
    refine .inr ⟨rfl, mem.imp (fun mem => ?_) (fun mem => by simpa [List.mem_flatMap] using mem)⟩
    simp only [List.mem_ite_nil_right, List.mem_flatMap, List.mem_map, List.mem_range] at mem
    obtain ⟨some, i, hi, j, hj, rfl⟩ := mem
    exact ⟨some, i, hi, j, hj, rfl⟩

theorem within_accesses (plain : Plain hw l s) (fits : p.Fits hw l) :
    ∀ cmd ∈ p.accesses hw l, cmd.Within hw p l s := by
  intro cmd mem
  rcases mem_accesses mem with ⟨resadd, i, hi, j, hj, mem⟩ | ⟨matmul, ⟨some, i, hi, j, hj, rfl⟩ | ⟨k, hk, j, hj, i, hi, mem⟩⟩
  · exact within_resadd plain (fits.acc (.inl resadd)) hj hi resadd cmd mem
  · exact within_mvin (fits.acc (.inr (.inr some))) hi hj plain accStart_d (by decide) (span_d p)
  · exact within_body plain (fits.acc (.inr (.inl (by omega)))) (fits.spad matmul (by omega) (by omega))
      matmul hk hj hi cmd mem

theorem blocks_of_mem {cmd : Access} (mem : cmd ∈ p.accesses hw l) :
    l.I ≠ 0 ∧ l.J ≠ 0 ∧ (p.isResadd = true ∨ l.K ≠ 0 ∨ l.D ≠ 0) := by
  rcases mem_accesses mem with ⟨resadd, i, hi, j, hj, -⟩ | ⟨-, ⟨some, i, hi, j, hj, -⟩ | ⟨k, hk, j, hj, i, hi, -⟩⟩
  · exact ⟨by omega, by omega, .inl resadd⟩
  · exact ⟨by omega, by omega, .inr (.inr some)⟩
  · exact ⟨by omega, by omega, .inr (.inl (by omega))⟩

theorem span_le_region (fits : p.Fits hw l) (someI : l.I ≠ 0) (someJ : l.J ≠ 0)
    (some : p.isResadd = true ∨ l.K ≠ 0 ∨ l.D ≠ 0) (operand : Operand) :
    (p.span hw l operand).1 = (p.region hw operand).1 ∧
      (p.region hw operand).2.1 ≤ (p.span hw l operand).2.1 ∧
      (p.span hw l operand).2.2 ≤ (p.region hw operand).2.2 := by
  have inAcc : _ ≤ _ := fits.acc some
  unfold span region
  cases resadd : p.isResadd with
  | true => exact ⟨rfl, le_rfl, inAcc⟩
  | false =>
    have inSpad : _ ≤ _ := fits.spad resadd someI someJ
    have size := hw.spad_le
    cases operand <;> simp only [Bool.false_eq_true, if_false, true_and, aStart, bStart, sub32]
    · split_ifs <;> dsimp only <;> omega
    · split_ifs <;> dsimp only <;> omega
    · exact ⟨le_rfl, inAcc⟩
    · exact ⟨le_rfl, inAcc⟩

theorem confined_of_fits (plain : Plain hw l s) (fits : p.Fits hw l) : p.Confined hw l s := by
  refine ⟨fun cmd mem operand acc row touched => ?_, fun cmd mem cmd' mem' row touched touched' => ?_⟩
  · obtain ⟨someI, someJ, some⟩ := blocks_of_mem mem
    obtain ⟨side, above, below⟩ := within_accesses plain fits cmd mem operand acc row touched
    obtain ⟨same, low, high⟩ := span_le_region fits someI someJ some operand
    exact ⟨side.trans same, low.trans above, below.trans_le high⟩
  · obtain ⟨someI, someJ, -⟩ := blocks_of_mem mem
    obtain ⟨side, above, below⟩ := within_accesses plain fits cmd mem _ _ row touched
    obtain ⟨-, above', below'⟩ := within_accesses plain fits cmd' mem' _ _ row touched'
    cases resadd : p.isResadd with
    | true =>
      rw [span_of_resadd resadd] at side
      exact Bool.false_ne_true side
    | false =>
      have inSpad : _ ≤ _ := fits.spad resadd someI someJ
      have size := hw.spad_le
      rw [span_a resadd] at above below
      rw [span_b resadd] at above' below'
      dsimp only at above below above' below'
      unfold aStart at above below
      unfold bStart sub32 at above' below'
      split_ifs at above below above' below' <;> omega

end Within

/-! ### What wraps around leaves its half -/

section Wraps

variable {hw : Hw} {p : LoopArgs} {l : LoopWs} {s : State} {i j k : ℕ}

theorem le_or_large_of_int32 {x limit : ℕ} (accepted : int32 x ≤ limit) : x ≤ limit ∨ 2 ^ 31 ≤ x := by
  unfold int32 at accepted
  omega

theorem exists_block {n maxRow maxCol : ℕ} (inside : n < maxRow * maxCol) :
    ∃ row < maxRow, ∃ col < maxCol, row * maxCol + col = n := by
  have pos : 0 < maxCol := Nat.pos_of_ne_zero fun zero => by simp [zero] at inside
  refine ⟨n / maxCol, ?_, n % maxCol, Nat.mod_lt _ pos, Nat.div_add_mod' n maxCol⟩
  exact Nat.div_lt_of_lt_mul (by rwa [mul_comm])

theorem exists_index (transposed : Bool) {n maxRow maxCol : ℕ} (inside : n < maxRow * maxCol) :
    ∃ row < maxRow, ∃ col < maxCol,
      (if transposed then col * maxRow + row else row * maxCol + col) = n := by
  split
  · rw [mul_comm] at inside
    obtain ⟨col, hc, row, hr, index⟩ := exists_block inside
    exact ⟨row, hr, col, hc, index⟩
  · exact exists_block inside

theorem exists_behind (hw : Hw) (limit total : ℕ) (large : limit + hw.dim < total * hw.dim) :
    ∃ n < total, limit < n * hw.dim ∧ n * hw.dim ≤ limit + hw.dim := by
  have above := Nat.lt_div_mul_add (a := limit) hw.dim_pos
  have below := Nat.div_mul_le_self limit hw.dim
  have next : (limit / hw.dim + 1) * hw.dim = limit / hw.dim * hw.dim + hw.dim := by ring
  refine ⟨limit / hw.dim + 1, ?_, by omega, by omega⟩
  apply Nat.lt_of_mul_lt_mul_right (a := hw.dim)
  omega

theorem mem_accesses_of_body (hw : Hw) (matmul : p.isResadd = false) (hk : k < l.K) (hj : j < l.J) (hi : i < l.I)
    {cmd : Access} (mem : cmd ∈ p.bodyAccesses hw l k j i) : cmd ∈ p.accesses hw l := by
  rw [accesses, if_neg (by simp [matmul])]
  apply List.mem_append_right
  simp only [List.mem_flatMap, List.mem_range]
  exact ⟨k, hk, j, hj, i, hi, mem⟩

variable (plain : Plain hw l s) (filled : Filled hw l)
include plain filled

theorem touches_accumulator (hi : i < l.I) (hj : j < l.J) (some : p.isResadd = true ∨ l.K ≠ 0 ∨ l.D ≠ 0)
    (small : (i * l.J + j) * hw.dim < 2 ^ 26) :
    ∃ cmd ∈ p.accesses hw l, ∃ operand, (p.region hw operand).2.2 = hw.accRows / 2 ∧
      cmd.Touches hw s true ((i * l.J + j) * hw.dim) operand := by
  have lines : Block hw (side64 hw l.I l.padI i) (side64 hw l.J l.padJ j) 0 :=
    ⟨side64_le plain.padI, side64_le plain.padJ, by decide⟩
  have someRows : 0 < side64 hw l.I l.padI i := side64_pos filled.padI
  have someCols : 0 < side64 hw l.J l.padJ j := side64_pos filled.padJ
  have addr {start : ℕ} (isStart : AccStart start) :
      accAddr32 hw l start i j = start + (i * l.J + j) * hw.dim :=
    Nat.mod_eq_of_lt (isStart.lt small)
  -- a move of the block to the accumulator
  have moved {id : ℕ} (hid : id < 3) : (Access.mvin id (packed64 (side64 hw l.I l.padI i)
      (side64 hw l.J l.padJ j) (accAddr32 hw l (1 <<< 31) i j))).Touches hw s true
        ((i * l.J + j) * hw.dim) (.ofId id) := by
    have block : Block hw (side64 hw l.I l.padI i) (side64 hw l.J l.padJ j)
        (1 <<< 31 + (i * l.J + j) * hw.dim) := ⟨lines.rows_le, lines.cols_le, accStart_d.lt small⟩
    rw [addr accStart_d, block.mvin_iff plain hid, accStart_d.flag_eq small, (accStart_d.field_eq small).1]
    exact ⟨rfl, rfl, someCols, 0, someRows, rfl⟩
  cases resadd : p.isResadd with
  | true =>
    refine ⟨_, ?_, .a, by rw [region, if_pos resadd], moved (show 0 < 3 by decide)⟩
    rw [accesses, if_pos resadd]
    simp only [List.mem_flatMap, List.mem_range]
    exact ⟨i, hi, j, hj, List.mem_append_left _ (List.mem_cons_self ..)⟩
  | false =>
    by_cases someK : l.K = 0
    · have someD : l.D ≠ 0 := by simpa [resadd, someK] using some
      refine ⟨_, ?_, .d, by simp [region, resadd], moved (show 2 < 3 by decide)⟩
      rw [accesses, if_neg (by simp [resadd]), biasAccesses, if_pos someD]
      apply List.mem_append_left
      simp only [List.mem_flatMap, List.mem_map, List.mem_range]
      exact ⟨i, hi, j, hj, rfl⟩
    · -- the output of a computation
      refine ⟨_, mem_accesses_of_body hw (k := 0) resadd (by omega) hj hi (List.mem_append_left _
        (List.mem_append_right _ (List.mem_cons_self ..))), .c, by simp [region, resadd], ?_⟩
      obtain ⟨start, isStart, out⟩ := outAddr_eq hw p l 0 small
      have block : Block hw (side64 hw l.I l.padI i) (side64 hw l.J l.padJ j)
          (start + (i * l.J + j) * hw.dim) := ⟨lines.rows_le, lines.cols_le, isStart.lt small⟩
      have output := block.preload_output (s := s) someRows someCols (isStart.ne_garbage small)
        (packed64 (side64 hw l.K l.padK 0) (side64 hw l.J l.padJ j)
          (if i = 0 then p.bAddr32 hw l 0 j else garbageAddr))
      rw [isStart.flag_eq small, (isStart.field_eq small).1, ← out] at output
      exact output

theorem touches_inputs (confined : p.Confined hw l s) (matmul : p.isResadd = false) (someJ : l.J ≠ 0)
    (large : 2 ^ 30 ≤ l.I * l.K * hw.dim) (inside : (p.region hw .a).2.2 ≤ hw.bankNum * hw.bankRows) :
    False := by
  have dim := hw.dim_lt
  have size := hw.spad_le
  obtain ⟨n, hn, behind, near⟩ := exists_behind hw (hw.bankNum * hw.bankRows) (l.I * l.K)
    (by omega)
  obtain ⟨i, hi, k, hk, index⟩ := exists_index p.aTranspose hn
  have start := p.aStart_le hw
  have addr : p.aAddr32 hw l i k = p.aStart hw + n * hw.dim := by
    rw [aAddr32, aSpAddr, index]
    exact Nat.mod_eq_of_lt (by omega)
  have block : Block hw (side64 hw l.I l.padI i) (side64 hw l.K l.padK k) (p.aAddr32 hw l i k) :=
    ⟨side64_le plain.padI, side64_le plain.padK, by omega⟩
  have mem : Access.compute (packed64 (side64 hw l.I l.padI i) (side64 hw l.K l.padK k)
      (p.aAddr32 hw l i k)) ∈ p.accesses hw l := by
    apply mem_accesses_of_body hw matmul hk (Nat.pos_of_ne_zero someJ) hi
    apply List.mem_append_left
    apply List.mem_append_right
    exact List.mem_cons_of_mem _ (List.mem_cons_self ..)
  have touched := block.compute_first plain (side64_pos filled.padI) (side64_pos filled.padK) (by
    rw [garbageAddr]
    omega)
  have below := (confined.inRegion _ mem _ _ _ touched).2.2
  omega

theorem touches_weights (confined : p.Confined hw l s) (matmul : p.isResadd = false) (someI : l.I ≠ 0)
    (large : 2 ^ 30 ≤ l.K * l.J * hw.dim) (inside : (p.region hw .b).2.2 ≤ hw.bankNum * hw.bankRows) :
    False := by
  have dim := hw.dim_lt
  have size := hw.spad_le
  have start : p.bStart hw l < 2 ^ 32 := Nat.mod_lt _ (by decide)
  -- the rows of block `n` are below the end of the half
  have confinedAt {n : ℕ} (hn : n < l.K * l.J) (valid : (p.bStart hw l + n * hw.dim) % 2 ^ 32 ≠ garbageAddr) :
      (p.bStart hw l + n * hw.dim) % 2 ^ 32 < hw.bankNum * hw.bankRows := by
    obtain ⟨k, hk, j, hj, index⟩ := exists_index p.bTranspose hn
    have addr : p.bAddr32 hw l k j = (p.bStart hw l + n * hw.dim) % 2 ^ 32 := by
      rw [bAddr32, bSpAddr, index]
    rw [← addr] at valid ⊢
    have block : Block hw (side64 hw l.K l.padK k) (side64 hw l.J l.padJ j) (p.bAddr32 hw l k j) :=
      ⟨side64_le plain.padK, side64_le plain.padJ, Nat.mod_lt _ (by decide)⟩
    have mem := mem_accesses_of_body hw matmul hk hj (Nat.pos_of_ne_zero someI)
      (List.mem_append_left _ (List.mem_append_right _ (List.mem_cons_self ..)))
    rw [if_pos rfl] at mem
    have touched := block.preload_weights (s := s) (side64_pos filled.padK) (side64_pos filled.padJ) valid
    exact (confined.inRegion _ mem _ _ _ (touched _)).2.2.trans_le inside
  obtain ⟨n, hn, behind, near⟩ := exists_behind hw (hw.bankNum * hw.bankRows) (l.K * l.J)
    (by omega)
  have first := confinedAt (n := 0) (by omega)
  have later := confinedAt hn
  rw [zero_mul, add_zero, Nat.mod_eq_of_lt start] at first
  unfold garbageAddr at first later
  omega

theorem fits_of_confined (accepted : Accepts hw l) (confined : p.Confined hw l s) : p.Fits hw l := by
  have dim := hw.dim_lt
  have rows := hw.acc_le
  refine ⟨fun some => ?_, fun matmul someI someJ => ?_⟩
  · by_contra wraps
    have large := (le_or_large_of_int32 accepted.2).resolve_left wraps
    obtain ⟨n, inside, behind, near⟩ := exists_behind hw (hw.accRows / 2) (l.I * l.J) (by omega)
    obtain ⟨i, hi, j, hj, rfl⟩ := exists_block inside
    obtain ⟨cmd, mem, operand, region, touched⟩ := touches_accumulator plain filled hi hj some (by omega)
    have below := (confined.inRegion cmd mem operand true _ touched).2.2
    omega
  · by_contra wraps
    have sum : (l.I * l.K + l.K * l.J) * hw.dim = l.I * l.K * hw.dim + l.K * l.J * hw.dim := by ring
    have large := (le_or_large_of_int32 accepted.1).resolve_left fun room => wraps (by rw [SpadRoom]; omega)
    have inRegion {operand : Operand} (ab : operand = .a ∨ operand = .b) :
        (p.region hw operand).2.2 ≤ hw.bankNum * hw.bankRows := by
      rcases ab with rfl | rfl <;> simp only [region, matmul, Bool.false_eq_true, if_false] <;>
        split_ifs <;> dsimp only <;> omega
    rcases Nat.lt_or_ge (l.I * l.K * hw.dim) (2 ^ 30) with smallA | largeA
    · exact touches_weights plain filled confined matmul someI (by omega) (inRegion (.inr rfl))
    · exact touches_inputs plain filled confined matmul someJ largeA (inRegion (.inl rfl))

end Wraps

/-- An accepted loop keeps its rows where they belong if no product wraps around, and only then, unless
the last blocks are empty. -/
theorem confined_iff_fits (hw : Hw) (p : LoopArgs) (l : LoopWs) (s : State) (plain : Plain hw l s)
    (accepted : Accepts hw l) :
    (p.Fits hw l → p.Confined hw l s) ∧ (Filled hw l → (p.Confined hw l s ↔ p.Fits hw l)) :=
  ⟨confined_of_fits plain,
    fun filled => ⟨fits_of_confined plain filled accepted, confined_of_fits plain⟩⟩

def loopOf (I J K : ℕ) : LoopWs := ⟨I, J, K, 0, 0, 0, 1, 1, 0, 0, 0, 0, 0, 0⟩

def strided : State := { fresh with load := fun _ => ⟨0, 16, false, 0, 1⟩, aStride := 1, cStride := 1 }

theorem plain_strided (I J K : ℕ) : Plain gemminiParams (loopOf I J K) strided :=
  ⟨fun _ _ => rfl, rfl, rfl, rfl, Nat.zero_le _, Nat.zero_le _, Nat.zero_le _⟩

theorem small_loop_confined : Accepts gemminiParams (loopOf 2 2 2) ∧
    (decode 0 0).Confined gemminiParams (loopOf 2 2 2) strided := by
  have accepted : Accepts gemminiParams (loopOf 2 2 2) := by
    unfold Accepts
    decide
  have filled : Filled gemminiParams (loopOf 2 2 2) := ⟨by decide, by decide, by decide⟩
  refine ⟨accepted, ((confined_iff_fits _ _ _ _ (plain_strided 2 2 2) accepted).2 filled).mpr
    ⟨fun _ => ?_, fun _ _ _ => ?_⟩⟩
  · unfold AccRoom
    decide
  · unfold SpadRoom
    decide

/-- Both products are multiples of `2 ^ 32`: the loop is accepted, and its first move of B goes to row
`2 ^ 13` of the accumulator, because the start of B wraps around. -/
theorem large_loop_accepted :
    Plain gemminiParams (loopOf (2 ^ 14) (2 ^ 14) (2 ^ 13)) strided ∧
    Accepts gemminiParams (loopOf (2 ^ 14) (2 ^ 14) (2 ^ 13)) ∧
    (∃ cmd ∈ (decode 0 0).accesses gemminiParams (loopOf (2 ^ 14) (2 ^ 14) (2 ^ 13)),
      cmd.Touches gemminiParams strided true (2 ^ 13) .b) ∧
    (decode 0 0).region gemminiParams .b = (false, 0, 2 ^ 13) ∧
    ¬(decode 0 0).Confined gemminiParams (loopOf (2 ^ 14) (2 ^ 14) (2 ^ 13)) strided := by
  have touched : ∃ cmd ∈ (decode 0 0).accesses gemminiParams (loopOf (2 ^ 14) (2 ^ 14) (2 ^ 13)),
      cmd.Touches gemminiParams strided true (2 ^ 13) .b := by
    refine ⟨.mvin 1 (packed64 16 16 (2 ^ 31 + 2 ^ 13)), ?_, ?_⟩
    · apply mem_accesses_of_body gemminiParams rfl (k := 0) (j := 0) (i := 0)
      · decide
      · decide
      · decide
      · apply List.mem_append_left
        apply List.mem_append_left
        apply List.mem_append_right
        rw [if_pos (by decide)]
        exact List.mem_cons_self ..
    · have block : Block gemminiParams 16 16 (2 ^ 31 + 2 ^ 13) := ⟨le_rfl, le_rfl, by decide⟩
      rw [block.mvin_iff (plain_strided 0 0 0) (by decide)]
      exact ⟨rfl, by decide, by decide, 0, by decide, by decide⟩
  refine ⟨plain_strided _ _ _, ?_, touched, rfl, fun confined => ?_⟩
  · unfold Accepts
    decide
  · obtain ⟨cmd, mem, row⟩ := touched
    exact absurd (confined.inRegion cmd mem _ _ _ row).1 (by decide)

end Gemmini.Simulator
