import Gemmini.Simulator.Effects

/-!
# Blocks of a matrix multiplication

The commands that `loop_ws` issues for one block: where the block lies in main memory, in the
scratchpad and in the accumulator, and which elements are there afterwards.
-/

namespace Gemmini.Matmul

open Simulator

variable {hw : Hw} {sc : Scaling} {σ : Settings} {p : LoopArgs} {s : State}

/-! ### Blocks -/

theorem side_le (hw : Hw) (n pad i : ℕ) : side hw n pad i ≤ hw.dim := Nat.sub_le _ _

theorem side_lt (hw : Hw) (n pad i : ℕ) : side hw n pad i < 2 ^ 16 :=
  lt_of_le_of_lt (side_le hw n pad i) hw.dim_lt

/-- The number of elements in the first `m` of `n` blocks. -/
def extent (hw : Hw) (n pad m : ℕ) : ℕ := if m = n then n * hw.dim - pad else m * hw.dim

theorem extent_of_lt {n pad m : ℕ} (h : m < n) : extent hw n pad m = m * hw.dim :=
  if_neg (by omega)

theorem extent_succ {n pad m : ℕ} (small : pad < hw.dim) (h : m < n) :
    extent hw n pad (m + 1) = m * hw.dim + side hw n pad m := by
  unfold extent side
  by_cases last : m + 1 = n
  · subst last
    rw [if_pos rfl, if_pos (by omega), Nat.succ_mul]
    omega
  · rw [if_neg last, if_neg (by omega), Nat.succ_mul, Nat.sub_zero]

theorem flat_lt {n pad i r : ℕ} (small : pad < hw.dim) (hi : i < n) (hr : r < side hw n pad i) :
    i * hw.dim + r < extent hw n pad n := by
  have within : i * hw.dim + r < extent hw n pad (i + 1) := by
    rw [extent_succ small hi]
    omega
  by_cases last : i + 1 = n
  · rwa [last] at within
  · rw [extent_of_lt (by omega)] at within
    have := Nat.mul_le_mul_right hw.dim (show i + 1 + 1 ≤ n by omega)
    rw [Nat.succ_mul (i + 1)] at this
    rw [extent, if_pos rfl]
    omega

theorem flat_split {n pad r : ℕ} (hr : r < extent hw n pad n) :
    r / hw.dim < n ∧ r % hw.dim < side hw n pad (r / hw.dim) ∧ r = r / hw.dim * hw.dim + r % hw.dim := by
  have hd := hw.dim_pos
  rw [extent, if_pos rfl] at hr
  have split := Nat.div_add_mod r hw.dim
  rw [Nat.mul_comm] at split
  have small := Nat.mod_lt r hd
  have block : r / hw.dim < n := by
    rw [Nat.div_lt_iff_lt_mul hd]
    omega
  refine ⟨block, ?_, split.symm⟩
  unfold side
  by_cases last : r / hw.dim = n - 1
  · have := Nat.succ_mul (n - 1) hw.dim
    rw [Nat.succ_eq_add_one, Nat.sub_add_cancel (by omega)] at this
    rw [if_pos last]
    rw [last] at split
    omega
  · rw [if_neg last, Nat.sub_zero]
    exact small

theorem rows_apart {d x y r r' : ℕ} (hr : r < d) (hr' : r' < d) (h : x * d + r = y * d + r') :
    x = y := (index_inj hr hr' h).1

/-- The rows `base` to `base + DIM - 1` may differ. -/
def SameOutside {α : Type} (hw : Hw) (base : ℕ) (m m' : ℕ × ℕ → α) : Prop :=
  ∀ row col, row < base ∨ base + hw.dim ≤ row → m' (row, col) = m (row, col)

theorem modifyGrid_sameOutside {α : Type} {base rows cols : ℕ} (hr : rows ≤ hw.dim)
    (f : ℕ → ℕ → α → α) (m : ℕ × ℕ → α) :
    SameOutside hw base m (modifyGrid rows cols (fun r c => (base + r, c)) f m) := by
  intro row col outside
  refine modifyGrid_of_ne (fun r hrow c _ same => ?_) f m
  have := congrArg Prod.fst same
  simp only at this
  omega

theorem modifyGrid_cell {α : Type} {base rows cols r c : ℕ} (hr : r < rows) (hc : c < cols)
    (f : ℕ → ℕ → α → α) (m : ℕ × ℕ → α) :
    modifyGrid rows cols (fun r c => (base + r, c)) f m (base + r, c) = f r c (m (base + r, c)) := by
  refine modifyGrid_at hr hc (fun r' _ c' _ same => ?_) f m
  rw [Prod.mk.injEq] at same
  omega

/-! ### Operands -/

/-- An operand of `rows` by `cols` blocks, its place in main memory and in the scratchpad. -/
structure Operand where
  rows : ℕ
  cols : ℕ
  padRows : ℕ
  padCols : ℕ
  transposed : Bool
  dram : ℕ
  stride : ℕ
  start : ℕ

namespace Operand

variable (hw) (o : Operand)

def addr (i k : ℕ) : ℕ :=
  o.start + (if o.transposed then k * o.rows + i else i * o.cols + k) * hw.dim

def stop : ℕ := o.start + o.rows * o.cols * hw.dim

/-- The cell of element `(r, x)` of the block `(i, k)`. -/
def cell (i k r x : ℕ) : ℕ × ℕ :=
  if o.transposed then (o.addr hw i k + x, r) else (o.addr hw i k + r, x)

/-- The address of element `(r, x)` in main memory. -/
def elem (r x : ℕ) : ℕ :=
  if o.transposed then o.dram + x * o.stride + r else o.dram + r * o.stride + x

def load (sc : Scaling) (id i k : ℕ) (s : State) : State :=
  let lines := side hw o.rows o.padRows i
  let depth := side hw o.cols o.padCols k
  if o.transposed then
    s.mvin hw sc (o.dram + (k * o.stride + i) * hw.dim) (packed depth lines (o.addr hw i k)) id
  else s.mvin hw sc (o.dram + (i * o.stride + k) * hw.dim) (packed lines depth (o.addr hw i k)) id

/-- The block `(i, k)` of the matrix `a` is in the scratchpad. -/
def Holds (a : ℕ → ℕ → BitVec 8) (spad : ℕ × ℕ → BitVec 8) (i k : ℕ) : Prop :=
  ∀ r < side hw o.rows o.padRows i, ∀ x < side hw o.cols o.padCols k,
    spad (o.cell hw i k r x) = a (i * hw.dim + r) (k * hw.dim + x)

variable {hw o}

variable (hw) in
theorem addr_room {i k : ℕ} (hi : i < o.rows) (hk : k < o.cols) :
    o.start ≤ o.addr hw i k ∧ o.addr hw i k + hw.dim ≤ o.stop hw := by
  have index : (if o.transposed then k * o.rows + i else i * o.cols + k) < o.rows * o.cols := by
    split
    · rw [Nat.mul_comm o.rows]
      exact index_lt hk hi
    · exact index_lt hi hk
  have := rows_le (d := hw.dim) index
  unfold addr stop
  omega

theorem addr_apart {i k i' k' r : ℕ} (hi : i < o.rows) (hk : k < o.cols) (hi' : i' < o.rows)
    (hk' : k' < o.cols) (hr : r < hw.dim) (other : ¬(i' = i ∧ k' = k)) :
    o.addr hw i' k' + r < o.addr hw i k ∨ o.addr hw i k + hw.dim ≤ o.addr hw i' k' + r := by
  by_contra within
  refine other ?_
  have same : (if o.transposed then k' * o.rows + i' else i' * o.cols + k') =
      (if o.transposed then k * o.rows + i else i * o.cols + k) := by
    unfold addr at within
    generalize (if o.transposed then k' * o.rows + i' else i' * o.cols + k') = x at within ⊢
    generalize (if o.transposed then k * o.rows + i else i * o.cols + k) = y at within ⊢
    exact rows_apart hr (show x * hw.dim + r - y * hw.dim < hw.dim by omega) (by omega)
  split at same
  · exact (index_inj hi' hi same).symm
  · exact index_inj hk' hk same

variable {o' : Operand} {a : ℕ → ℕ → BitVec 8} {m m' : ℕ × ℕ → BitVec 8} {i k i' k' : ℕ}

theorem Holds.kept (h : o.Holds hw a m i k)
    (same : ∀ r < hw.dim, ∀ c, m' (o.addr hw i k + r, c) = m (o.addr hw i k + r, c)) :
    o.Holds hw a m' i k := by
  intro r hr x hx
  rw [← h r hr x hx]
  have := side_le hw o.rows o.padRows i
  have := side_le hw o.cols o.padCols k
  unfold cell
  split
  · exact same x (by omega) r
  · exact same r (by omega) x

theorem Holds.moved (h : o.Holds hw a m i k)
    (same : o' = { o with dram := o'.dram, stride := o'.stride }) :
    o'.Holds hw a m i k := by
  rw [same]
  exact h

theorem Holds.update (new : o.Holds hw a m' i k) (same : SameOutside hw (o.addr hw i k) m m')
    (hi : i < o.rows) (hk : k < o.cols) (hi' : i' < o.rows) (hk' : k' < o.cols)
    (old : ¬(i' = i ∧ k' = k) → o.Holds hw a m i' k') : o.Holds hw a m' i' k' := by
  by_cases this : i' = i ∧ k' = k
  · obtain ⟨rfl, rfl⟩ := this
    exact new
  · exact (old this).kept fun r hr c => same _ c (addr_apart hi hk hi' hk' hr this)

theorem Holds.other (old : o.Holds hw a m i' k')
    (same : SameOutside hw (o'.addr hw i k) m m')
    (apart : o.stop hw ≤ o'.start ∨ o'.stop hw ≤ o.start) (hi : i < o'.rows) (hk : k < o'.cols)
    (hi' : i' < o.rows) (hk' : k' < o.cols) : o.Holds hw a m' i' k' := by
  have here := addr_room hw hi hk
  have there := addr_room hw hi' hk'
  refine old.kept fun r hr c => same _ c ?_
  omega

theorem load_spec {id : ℕ} (pixels : (s.load id).pixelsPerRow = 1)
    (stride : (s.load id).stride = o.stride) (present : o.dram ≠ 0)
    (room : o.addr hw i k + hw.dim ≤ hw.spadRows)
    (source : ∀ r < side hw o.rows o.padRows i, ∀ x < side hw o.cols o.padCols k,
      State.mvinScale sc (s.dram (o.elem (i * hw.dim + r) (k * hw.dim + x))) (s.load id).scale =
        a (i * hw.dim + r) (k * hw.dim + x)) :
    let t := o.load hw sc id i k s
    t.settings = s.settings ∧ ∃ m, t.memory = { s.memory with spad := m } ∧
      o.Holds hw a m i k ∧ SameOutside hw (o.addr hw i k) s.spad m := by
  have small : o.addr hw i k < 2 ^ 29 := by
    have := hw.spad_le
    have := hw.dim_pos
    unfold Hw.spadRows at room
    omega
  have nonzero : ∀ z, o.dram + z ≠ 0 := by omega
  have lines := side_le hw o.rows o.padRows i
  have depth := side_le hw o.cols o.padCols k
  by_cases transposed : o.transposed = true
  · obtain ⟨settings, memory⟩ := State.mvin_spad hw sc s (o.dram + (k * o.stride + i) * hw.dim)
      pixels lines (side_lt hw o.cols o.padCols k)
      (show o.addr hw i k + side hw o.cols o.padCols k ≤ hw.spadRows by omega) small
    simp only [load, transposed, if_true]
    refine ⟨settings, _, memory, fun r hr x hx => ?_, modifyGrid_sameOutside depth _ _⟩
    rw [cell, if_pos transposed, modifyGrid_cell hx hr, State.mvinValue, if_neg (nonzero _), stride,
      ← source r hr x hx, elem, if_pos transposed]
    congr 2
    ring
  · obtain ⟨settings, memory⟩ := State.mvin_spad hw sc s (o.dram + (i * o.stride + k) * hw.dim)
      pixels depth (side_lt hw o.rows o.padRows i)
      (show o.addr hw i k + side hw o.rows o.padRows i ≤ hw.spadRows by omega) small
    simp only [load, transposed, Bool.false_eq_true, if_false]
    refine ⟨settings, _, memory, fun r hr x hx => ?_, modifyGrid_sameOutside lines _ _⟩
    rw [cell, if_neg transposed, modifyGrid_cell hr hx, State.mvinValue, if_neg (nonzero _), stride,
      ← source r hr x hx, elem, if_neg transposed]
    congr 2
    ring

end Operand

/-! ### A call of `loop_ws` -/

section

variable (hw) (p) (l : LoopWs)

def operandA : Operand where
  rows := l.I
  cols := l.K
  padRows := l.padI
  padCols := l.padK
  transposed := p.aTranspose
  dram := l.A
  stride := l.strideA
  start := p.aStart hw

def operandB : Operand where
  rows := l.K
  cols := l.J
  padRows := l.padK
  padCols := l.padJ
  transposed := p.bTranspose
  dram := l.B
  stride := l.strideB
  start := p.bStart hw l

def accRow (i j : ℕ) : ℕ := (i * l.J + j) * hw.dim

/-- The address of element `(r, c)` of C. -/
def elemC (r c : ℕ) : ℕ := l.C + r * l.strideC + c

end

theorem elemC_inj {l : LoopWs} {r c r' c' : ℕ} (hc : c < l.strideC) (hc' : c' < l.strideC)
    (h : elemC l r c = elemC l r' c') : r = r' ∧ c = c' := by
  unfold elemC at h
  exact index_inj hc hc' (by omega)

/-- The accelerator is configured for a tile, and the tile fits. -/
@[mk_iff]
structure Call (hw : Hw) (s : State) (p : LoopArgs) : Prop where
  mode : s.mode = .ws
  aStride : s.aStride = 1
  cStride : s.cStride = 1
  aTranspose : s.aTranspose = p.aTranspose
  bTranspose : s.bTranspose = p.bTranspose
  pixels : ∀ id < 3, (s.load id).pixelsPerRow = 1
  strideA : (s.load 0).stride = s.loopWs.strideA
  strideB : (s.load 1).stride = s.loopWs.strideB
  strideD : (s.load 2).stride = s.loopWs.strideD * 4
  strideC : s.storeStride = s.loopWs.strideC
  widthC : extent hw s.loopWs.J s.loopWs.padJ s.loopWs.J ≤ s.loopWs.strideC
  wide : (s.load 2).shrunk = false
  plain : s.pool.stride = 0
  posI : 0 < s.loopWs.I
  posJ : 0 < s.loopWs.J
  posK : 0 < s.loopWs.K
  padI : s.loopWs.padI < hw.dim
  padJ : s.loopWs.padJ < hw.dim
  padK : s.loopWs.padK < hw.dim
  spad : (s.loopWs.I * s.loopWs.K + s.loopWs.K * s.loopWs.J) * hw.dim ≤ hw.bankNum * hw.bankRows / 2
  acc : s.loopWs.I * s.loopWs.J * hw.dim ≤ hw.accRows / 2
  fullC : p.fullC = false
  lowD : p.lowD = false
  matmul : p.isResadd = false
  act : p.act = Activation.none.toNat ∨ p.act = Activation.relu.toNat

theorem accRow_apart {l : LoopWs} {i j i' j' r : ℕ} (hj : j < l.J) (hj' : j' < l.J) (hr : r < hw.dim)
    (other : ¬(i' = i ∧ j' = j)) :
    accRow hw l i' j' + r < accRow hw l i j ∨ accRow hw l i j + hw.dim ≤ accRow hw l i' j' + r := by
  by_contra within
  unfold accRow at within
  refine other (index_inj hj' hj ?_)
  exact rows_apart hr (show (i' * l.J + j') * hw.dim + r - (i * l.J + j) * hw.dim < hw.dim by omega)
    (by omega)

namespace Call

theorem of_settings {t : State} (call : Call hw s p) (same : t.settings = s.settings) : Call hw t p := by
  have mode : t.mode = s.mode := congrArg Settings.mode same
  have aStride : t.aStride = s.aStride := congrArg Settings.aStride same
  have cStride : t.cStride = s.cStride := congrArg Settings.cStride same
  have aTranspose : t.aTranspose = s.aTranspose := congrArg Settings.aTranspose same
  have bTranspose : t.bTranspose = s.bTranspose := congrArg Settings.bTranspose same
  have load : t.load = s.load := congrArg Settings.load same
  have storeStride : t.storeStride = s.storeStride := congrArg Settings.storeStride same
  have pool : t.pool = s.pool := congrArg Settings.pool same
  have loop : t.loopWs = s.loopWs := congrArg Settings.loopWs same
  rw [call_iff] at call ⊢
  rw [mode, aStride, cStride, aTranspose, bTranspose, load, storeStride, pool, loop]
  exact call

variable {i j k : ℕ} (call : Call hw s p)

include call

theorem regions :
    (operandA hw p s.loopWs).stop hw ≤ hw.spadRows ∧ (operandB hw p s.loopWs).stop hw ≤ hw.spadRows ∧
    ((operandA hw p s.loopWs).stop hw ≤ (operandB hw p s.loopWs).start ∨
      (operandB hw p s.loopWs).stop hw ≤ (operandA hw p s.loopWs).start) := by
  have room := call.spad
  have size := hw.spad_le
  rw [Nat.add_mul] at room
  simp only [Operand.stop, operandA, operandB, LoopArgs.aStart, LoopArgs.bStart, sub32, Hw.spadRows]
  split <;> split <;> omega

theorem accRow_room (hi : i < s.loopWs.I) (hj : j < s.loopWs.J) :
    accRow hw s.loopWs i j + hw.dim ≤ hw.accRows := by
  have := rows_le (d := hw.dim) (index_lt hi hj)
  have := call.acc
  unfold accRow
  omega

theorem accRow_lt (hi : i < s.loopWs.I) (hj : j < s.loopWs.J) :
    accRow hw s.loopWs i j < 2 ^ 26 := by
  have := call.accRow_room hi hj
  have := hw.acc_le
  have := hw.dim_pos
  omega

theorem cSpAddr_eq : p.cSpAddr hw s.loopWs i j = 3 <<< 30 + accRow hw s.loopWs i j := by
  have start : p.cStart = 3 <<< 30 := by
    rw [LoopArgs.cStart, call.fullC]
    rfl
  rw [LoopArgs.cSpAddr, start, accRow]

theorem out_eq (hi : i < s.loopWs.I) (hj : j < s.loopWs.J) :
    (if p.exAccumulate = false ∧ k = 0 then clearBit (p.cSpAddr hw s.loopWs i j) 30
      else p.cSpAddr hw s.loopWs i j) =
    (if ¬(p.exAccumulate = false ∧ k = 0) then 3 * 2 ^ 30 else 2 ^ 31) + accRow hw s.loopWs i j := by
  have small := call.accRow_lt hi hj
  have start : (3 : ℕ) <<< 30 = 3 * 2 ^ 30 := rfl
  rw [call.cSpAddr_eq, start]
  by_cases fresh : p.exAccumulate = false ∧ k = 0
  · have set : field (3 * 2 ^ 30 + accRow hw s.loopWs i j) 30 1 = 1 := by
      rw [field]
      omega
    rw [if_pos fresh, if_neg (not_not.mpr fresh), clearBit, set]
    omega
  · rw [if_neg fresh, if_pos fresh]

end Call

/-- The processing elements hold the block `(k, j)` of `b`. -/
def Loaded (hw : Hw) (l : LoopWs) (b : ℕ → ℕ → BitVec 8) (pe : ℕ → ℕ → BitVec 32) (k j : ℕ) : Prop :=
  ∀ x < hw.dim, ∀ c < side hw l.J l.padJ j,
    pe x c = if x < side hw l.K l.padK k then
      (b (k * hw.dim + x) (j * hw.dim + c)).signExtend 32 else 0

def term (a b : ℕ → ℕ → BitVec 8) (r c x : ℕ) : BitVec 32 :=
  (a r x).signExtend 32 * (b x c).signExtend 32

theorem sum_range_masked {α : Type} [AddCommMonoid α] {m n : ℕ} {f g : ℕ → α} (h : m ≤ n)
    (inside : ∀ x < m, g x = f x) (outside : ∀ x < n, m ≤ x → g x = 0) :
    ∑ x ∈ Finset.range n, g x = ∑ x ∈ Finset.range m, f x := by
  obtain ⟨d, rfl⟩ := Nat.exists_eq_add_of_le h
  rw [Finset.sum_range_add, Finset.sum_congr rfl fun x hx => inside x (Finset.mem_range.mp hx)]
  rw [Finset.sum_eq_zero fun x hx => outside (m + x) (by rw [Finset.mem_range] at hx; omega) (by omega),
    add_zero]

namespace Call

variable {i j k : ℕ} {a b : ℕ → ℕ → BitVec 8} (call : Call hw s p)

include call

theorem loadedB (room : (operandB hw p s.loopWs).Holds hw b s.spad k j) :
    Loaded hw s.loopWs b (s.blockPe hw (p.bSpAddr hw s.loopWs k j) (side hw s.loopWs.K s.loopWs.padK k)
      (side hw s.loopWs.J s.loopWs.padJ j)) k j := by
  intro x hx c hc
  have width := side_le hw s.loopWs.J s.loopWs.padJ j
  rw [State.blockPe, if_pos ⟨hx, by omega⟩]
  by_cases within : x < side hw s.loopWs.K s.loopWs.padK k
  · rw [if_pos ⟨within, hc⟩, if_pos within, ← room x within c hc, call.bTranspose]
    rfl
  · rw [if_neg (fun h => within h.1), if_neg within]

theorem blockSum_eq {pe : ℕ → ℕ → BitVec 32} {r c : ℕ}
    (holds : (operandA hw p s.loopWs).Holds hw a s.spad i k) (loaded : Loaded hw s.loopWs b pe k j)
    (hr : r < side hw s.loopWs.I s.loopWs.padI i) (hc : c < side hw s.loopWs.J s.loopWs.padJ j) :
    s.blockSum hw (p.aSpAddr hw s.loopWs i k) (side hw s.loopWs.I s.loopWs.padI i)
      (side hw s.loopWs.K s.loopWs.padK k) pe r c =
    ∑ x ∈ Finset.range (side hw s.loopWs.K s.loopWs.padK k),
      term a b (i * hw.dim + r) (j * hw.dim + c) (k * hw.dim + x) := by
  refine sum_range_masked (side_le hw _ _ _) (fun x hx => ?_) fun x hx outside => ?_
  · have depth := side_le hw s.loopWs.K s.loopWs.padK k
    rw [State.blockA, if_pos ⟨hr, hx⟩, loaded x (by omega) c hc, if_pos hx, term, ← holds r hr x hx,
      call.aTranspose]
    rfl
  · rw [loaded x hx c hc, if_neg (by omega), mul_zero]

theorem computeBlock_spec (hi : i < s.loopWs.I) (hj : j < s.loopWs.J) (hk : k < s.loopWs.K)
    (holdsA : (operandA hw p s.loopWs).Holds hw a s.spad i k)
    (holdsB : i = 0 → (operandB hw p s.loopWs).Holds hw b s.spad k j)
    (kept : 0 < i → Loaded hw s.loopWs b s.pe k j) :
    let t := s.computeBlock hw p k j i
    t.settings = s.settings ∧ ∃ m pe, t.memory = { s.memory with accumulator := m, pe := pe } ∧
      Loaded hw s.loopWs b pe k j ∧ SameOutside hw (accRow hw s.loopWs i j) s.accumulator m ∧
      ∀ r < side hw s.loopWs.I s.loopWs.padI i, ∀ c < side hw s.loopWs.J s.loopWs.padJ j,
        m (accRow hw s.loopWs i j + r, c) =
          (if p.exAccumulate = false ∧ k = 0 then 0 else s.accumulator (accRow hw s.loopWs i j + r, c)) +
          ∑ x ∈ Finset.range (side hw s.loopWs.K s.loopWs.padK k),
            term a b (i * hw.dim + r) (j * hw.dim + c) (k * hw.dim + x) := by
  have roomA : p.aSpAddr hw s.loopWs i k + hw.dim ≤ hw.spadRows :=
    (Operand.addr_room hw (o := operandA hw p s.loopWs) hi hk).2.trans call.regions.1
  have roomB : p.bSpAddr hw s.loopWs k j + hw.dim ≤ hw.spadRows :=
    (Operand.addr_room hw (o := operandB hw p s.loopWs) hk hj).2.trans call.regions.2.1
  have room := call.accRow_room hi hj
  have lines := side_le hw s.loopWs.I s.loopWs.padI i
  have loaded : Loaded hw s.loopWs b (if i = 0 then s.blockPe hw (p.bSpAddr hw s.loopWs k j)
      (side hw s.loopWs.K s.loopWs.padK k) (side hw s.loopWs.J s.loopWs.padJ j) else s.pe) k j := by
    split
    · next first => exact call.loadedB (holdsB first)
    · next later => exact kept (by omega)
  obtain ⟨settings, memory⟩ := State.compute_block (decide (i = 0))
    (decide (¬(p.exAccumulate = false ∧ k = 0))) ⟨call.mode, call.aStride, call.cStride⟩ lines
    (side_le hw s.loopWs.J s.loopWs.padJ j) (side_le hw s.loopWs.K s.loopWs.padK k)
    (show accRow hw s.loopWs i j + side hw s.loopWs.I s.loopWs.padI i ≤ hw.accRows by omega) roomA roomB
  simp only [decide_eq_true_eq] at settings memory
  simp only [State.computeBlock, call.out_eq hi hj]
  refine ⟨settings, _, _, memory, loaded, modifyGrid_sameOutside lines _ _, fun r hr c hc => ?_⟩
  rw [modifyGrid_cell hr hc, call.blockSum_eq holdsA loaded hr hc]
  by_cases fresh : p.exAccumulate = false ∧ k = 0
  · rw [if_neg (not_not.mpr fresh), if_pos fresh, zero_add]
  · rw [if_pos fresh, if_neg fresh]

variable (sc) in
theorem loadD_spec {d : ℕ → ℕ → BitVec 32} (hi : i < s.loopWs.I) (hj : j < s.loopWs.J)
    (present : s.loopWs.D ≠ 0)
    (source : ∀ r < side hw s.loopWs.I s.loopWs.padI i, ∀ c < side hw s.loopWs.J s.loopWs.padJ j,
      readAcc s.dram (s.loopWs.D + ((i * hw.dim + r) * s.loopWs.strideD + (j * hw.dim + c)) * 4) =
        d (i * hw.dim + r) (j * hw.dim + c)) :
    let t := s.loadD hw sc p i j
    t.settings = s.settings ∧ ∃ m, t.memory = { s.memory with accumulator := m } ∧
      SameOutside hw (accRow hw s.loopWs i j) s.accumulator m ∧
      ∀ r < side hw s.loopWs.I s.loopWs.padI i, ∀ c < side hw s.loopWs.J s.loopWs.padJ j,
        m (accRow hw s.loopWs i j + r, c) = d (i * hw.dim + r) (j * hw.dim + c) := by
  have room := call.accRow_room hi hj
  have small := call.accRow_lt hi hj
  have lines := side_le hw s.loopWs.I s.loopWs.padI i
  obtain ⟨settings, memory⟩ := State.mvin_accumulator hw sc s
    (s.loopWs.D + (i * s.loopWs.strideD + j) * hw.dim * p.sizeofD) (call.pixels 2 (by norm_num))
    (side_le hw s.loopWs.J s.loopWs.padJ j) (side_lt hw s.loopWs.I s.loopWs.padI i)
    (show accRow hw s.loopWs i j + side hw s.loopWs.I s.loopWs.padI i ≤ hw.accRows by omega) (by omega)
  refine ⟨settings, _, memory, modifyGrid_sameOutside lines _ _, fun r hr c hc => ?_⟩
  have size : p.sizeofD = 4 := by rw [LoopArgs.sizeofD, call.lowD]; rfl
  rw [modifyGrid_cell hr hc, State.mvinAccValue, if_neg (by omega), call.wide, if_neg Bool.false_ne_true,
    call.strideD, size, ← source r hr c hc]
  congr 1
  ring

theorem storeC_spec (hi : i < s.loopWs.I) (hj : j < s.loopWs.J) :
    let t := s.storeC hw sc p i j
    t.settings = s.settings ∧ ∃ m, t.memory = { s.memory with dram := m } ∧
      (∀ r < side hw s.loopWs.I s.loopWs.padI i, ∀ c < side hw s.loopWs.J s.loopWs.padJ j,
        m (elemC s.loopWs (i * hw.dim + r) (j * hw.dim + c)) =
          s.storedElem sc (s.accumulator (accRow hw s.loopWs i j + r, c))) ∧
      ∀ addr, (∀ r < side hw s.loopWs.I s.loopWs.padI i, ∀ c < side hw s.loopWs.J s.loopWs.padJ j,
        addr ≠ elemC s.loopWs (i * hw.dim + r) (j * hw.dim + c)) → m addr = s.dram addr := by
  have room := call.accRow_room hi hj
  have lines := side_le hw s.loopWs.I s.loopWs.padI i
  obtain ⟨settings, memory⟩ := State.mvout_block hw sc s
    (s.loopWs.C + (i * s.loopWs.strideC + j) * hw.dim * p.sizeofC) call.plain
    (side_le hw s.loopWs.J s.loopWs.padJ j) (side_lt hw s.loopWs.I s.loopWs.padI i)
    (show accRow hw s.loopWs i j + side hw s.loopWs.I s.loopWs.padI i ≤ hw.accRows by omega)
    (call.accRow_lt hi hj)
  have size : p.sizeofC = 1 := by rw [LoopArgs.sizeofC, call.fullC]; rfl
  have place : ∀ r c, s.loopWs.C + (i * s.loopWs.strideC + j) * hw.dim * p.sizeofC + r * s.storeStride + c =
      elemC s.loopWs (i * hw.dim + r) (j * hw.dim + c) := by
    intro r c
    rw [size, call.strideC, elemC]
    ring
  simp only [place] at memory
  simp only [State.storeC, call.cSpAddr_eq]
  refine ⟨settings, _, memory, fun r hr c hc => ?_, fun addr other => modifyGrid_of_ne other _ _⟩
  refine modifyGrid_at hr hc (fun r' hr' c' hc' same => ?_) _ s.dram
  -- The columns of a row are fewer than the stride.
  have col := (flat_lt call.padJ hj hc).trans_le call.widthC
  have col' := (flat_lt call.padJ hj hc').trans_le call.widthC
  have := elemC_inj col' col same
  omega

end Call

end Gemmini.Matmul
