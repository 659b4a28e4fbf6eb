import Gemmini.Matmul.Blocks

/-!
# `matmul_cpu`

The reference in `gemmini.h`, compiled without `HAS_NORMALIZATIONS` as the generated parameters have it,
so that layer normalization and softmax fill a buffer only.  The constants derived from `bert_scale` are
parameters.
-/

namespace Gemmini.Matmul

open Simulator

/-- What `scale_and_sat` derives from `bert_scale`. -/
structure Igelu where
  q1 : BitVec 32
  qb : BitVec 32
  qc : BitVec 32

/-- The arguments of a matrix multiplication.  An address of zero is `NULL`. -/
structure Args where
  dimI : ℕ
  dimJ : ℕ
  dimK : ℕ
  A : ℕ
  B : ℕ
  D : ℕ
  C : ℕ
  strideA : ℕ
  strideB : ℕ
  strideD : ℕ
  strideC : ℕ
  aScale : BitVec 32
  bScale : BitVec 32
  dScale : BitVec 32
  act : Activation
  scale : BitVec 32
  repeatingBias : Bool
  transposeA : Bool
  transposeB : Bool

def scaleAndSat (sc : Scaling) (ig : Igelu) (x : BitVec 32) (act : Activation) (scale : BitVec 32) :
    BitVec 8 :=
  let sign : BitVec 32 := if x.toInt < 0 then -1 else 1
  let abs : BitVec 32 := if x.toInt < 0 then -x else x
  let clipped := if abs.toInt > (-ig.qb).toInt then -ig.qb else abs
  let poly := (clipped + ig.qb) * (clipped + ig.qb) + ig.qc
  let y := saturate (sc.accScale (if act = .igelu then x * (sign * poly + ig.q1) else x) scale)
  if act = .relu then if y.toInt < 0 then 0 else y else y

namespace Args

variable (sc : Scaling) (ig : Igelu) (m : Args) (dram : ℕ → BitVec 8)

/-- The address of element `(i, k)` of A. -/
def addrA (i k : ℕ) : ℕ :=
  m.A + i * (if m.transposeA then 1 else m.strideA) + k * (if m.transposeA then m.strideA else 1)

/-- The address of element `(k, j)` of B. -/
def addrB (k j : ℕ) : ℕ :=
  m.B + j * (if m.transposeB then m.strideB else 1) + k * (if m.transposeB then 1 else m.strideB)

def addrC (i j : ℕ) : ℕ := m.C + i * m.strideC + j

def addrD (i j : ℕ) : ℕ := m.D + ((if m.repeatingBias then 0 else i) * m.strideD + j) * 4

def bias (i j : ℕ) : BitVec 32 := if m.D = 0 then 0 else readAcc dram (m.addrD i j)

def sum (i j : ℕ) : BitVec 32 :=
  forRange m.dimK (fun k sum => sum + (sc.mvinScale (dram (m.addrA i k)) m.aScale).signExtend 32 *
    (sc.mvinScale (dram (m.addrB k j)) m.bScale).signExtend 32) (m.bias dram i j)

/-- The four by four block at `(i, j)`: all results before the first of them is stored. -/
def block4 (i j : ℕ) : ℕ → BitVec 8 :=
  forRange 4 (fun ii => forRange 4 fun jj => modify (m.addrC (i + ii) (j + jj)) fun _ =>
    scaleAndSat sc ig (m.sum sc dram (i + ii) (j + jj)) m.act m.scale) dram

/-- `matmul_cpu`; `none` stands for `exit`. -/
def matmulCpu : Option (ℕ → BitVec 8) :=
  let normalize := m.act = .layernorm ∨ m.act = .softmax
  if ¬ normalize ∧ m.transposeA = false ∧ m.transposeB = false ∧ m.dimI % 4 = 0 ∧ m.dimJ % 4 = 0 then
    some (forRange (m.dimI / 4) (fun bi => forRange (m.dimJ / 4) fun bj dram =>
      m.block4 sc ig dram (4 * bi) (4 * bj)) dram)
  else if normalize ∧ m.dimJ > 1024 then none
  else some (forRange m.dimI (fun i => forRange m.dimJ fun j dram =>
    if normalize then dram
    else modify (m.addrC i j) (fun _ => scaleAndSat sc ig (m.sum sc dram i j) m.act m.scale) dram) dram)

/-! ### What is written -/

def output (i j : ℕ) : BitVec 8 := scaleAndSat sc ig (m.sum sc dram i j) m.act m.scale

/-- The elements `done` of a matrix of results have been written, and nothing else. -/
structure Wrote (out : ℕ → ℕ → BitVec 8) (done : ℕ → ℕ → Prop) (dram dram' : ℕ → BitVec 8) : Prop where
  elems : ∀ i < m.dimI, ∀ j < m.dimJ, done i j → dram' (m.addrC i j) = out i j
  kept : ∀ addr, (∀ i < m.dimI, ∀ j < m.dimJ, addr ≠ m.addrC i j) → dram' addr = dram addr

/-- The result overlaps neither with itself nor with an operand. -/
structure Separate : Prop where
  width : m.dimJ ≤ m.strideC
  a : ∀ i < m.dimI, ∀ k < m.dimK, ∀ i' < m.dimI, ∀ j' < m.dimJ, m.addrA i k ≠ m.addrC i' j'
  b : ∀ k < m.dimK, ∀ j < m.dimJ, ∀ i' < m.dimI, ∀ j' < m.dimJ, m.addrB k j ≠ m.addrC i' j'
  d : m.D ≠ 0 → ∀ i < m.dimI, ∀ j < m.dimJ, ∀ byte < 4, ∀ i' < m.dimI, ∀ j' < m.dimJ,
    m.addrD i j + byte ≠ m.addrC i' j'

variable {sc ig m dram} {out : ℕ → ℕ → BitVec 8} {done : ℕ → ℕ → Prop} {dram' : ℕ → BitVec 8}

theorem addrC_inj {i j i' j' : ℕ} (sep : m.Separate) (hj : j < m.dimJ) (hj' : j' < m.dimJ)
    (h : m.addrC i j = m.addrC i' j') : i = i' ∧ j = j' := by
  have := sep.width
  unfold addrC at h
  exact index_inj (show j < m.strideC by omega) (by omega) (by omega)

theorem Wrote.write (sep : m.Separate) (wrote : m.Wrote out done dram dram') {i j : ℕ} (hi : i < m.dimI)
    (hj : j < m.dimJ) : m.Wrote out (fun i' j' => done i' j' ∨ i' = i ∧ j' = j) dram
      (modify (m.addrC i j) (fun _ => out i j) dram') := by
  refine ⟨fun i' hi' j' hj' now => ?_, fun addr other => ?_⟩
  · by_cases same : m.addrC i' j' = m.addrC i j
    · obtain ⟨rfl, rfl⟩ := addrC_inj sep hj' hj same
      rw [modify_same]
    · rw [modify_of_ne same]
      refine wrote.elems i' hi' j' hj' (now.resolve_right fun here => same ?_)
      rw [here.1, here.2]
  · rw [modify_of_ne (other i hi j hj), wrote.kept addr other]

theorem Wrote.weaken {done' : ℕ → ℕ → Prop} (wrote : m.Wrote out done dram dram')
    (h : ∀ i < m.dimI, ∀ j < m.dimJ, done' i j → done i j) : m.Wrote out done' dram dram' :=
  ⟨fun i hi j hj now => wrote.elems i hi j hj (h i hi j hj now), wrote.kept⟩

theorem Wrote.unique {dram'' : ℕ → BitVec 8} (wrote : m.Wrote out (fun _ _ => True) dram dram')
    (wrote' : m.Wrote out (fun _ _ => True) dram dram'') : dram' = dram'' := by
  funext addr
  by_cases hit : ∃ i < m.dimI, ∃ j < m.dimJ, addr = m.addrC i j
  · obtain ⟨i, hi, j, hj, rfl⟩ := hit
    rw [wrote.elems i hi j hj trivial, wrote'.elems i hi j hj trivial]
  · have other : ∀ i < m.dimI, ∀ j < m.dimJ, addr ≠ m.addrC i j :=
      fun i hi j hj same => hit ⟨i, hi, j, hj, same⟩
    rw [wrote.kept addr other, wrote'.kept addr other]

theorem readAcc_congr {addr : ℕ} (same : ∀ byte < 4, dram' (addr + byte) = dram (addr + byte)) :
    readAcc dram' addr = readAcc dram addr := by
  have first := same 0 (by norm_num)
  rw [Nat.add_zero] at first
  rw [readAcc, readAcc, first, same 1 (by norm_num), same 2 (by norm_num), same 3 (by norm_num)]

theorem Wrote.sum_eq (sep : m.Separate) (wrote : m.Wrote out done dram dram') {i j : ℕ} (hi : i < m.dimI)
    (hj : j < m.dimJ) : m.sum sc dram' i j = m.sum sc dram i j := by
  have start : m.bias dram' i j = m.bias dram i j := by
    unfold bias
    split
    · rfl
    · next present =>
      exact readAcc_congr fun byte hb => wrote.kept _ (sep.d present i hi j hj byte hb)
  rw [sum, sum, start]
  refine forRange_congr (fun k hk sum => ?_) _
  rw [wrote.kept _ (sep.a i hi k hk), wrote.kept _ (sep.b k hk j hj)]

theorem Wrote.loop {σ : Type*} {n d : ℕ} {body : ℕ → σ → σ} {s : σ} (mem : σ → ℕ → BitVec 8)
    (count : σ → ℕ) (cell : ℕ → ℕ → ℕ → Prop) (wrote : m.Wrote out done dram (mem s))
    (step : ∀ x < n, ∀ done t, count t = count s + x * d → m.Wrote out done dram (mem t) →
      count (body x t) = count t + d ∧
        m.Wrote out (fun i j => done i j ∨ cell x i j) dram (mem (body x t))) :
    count (forRange n body s) = count s + n * d ∧
      m.Wrote out (fun i j => done i j ∨ ∃ x < n, cell x i j) dram (mem (forRange n body s)) := by
  refine forRange_inv (fun x t => count t = count s + x * d ∧
    m.Wrote out (fun i j => done i j ∨ ∃ y < x, cell y i j) dram (mem t))
    ⟨by omega, wrote.weaken fun i _ j _ now => now.resolve_right (by rintro ⟨y, hy, _⟩; omega)⟩ ?_
  rintro x hx t ⟨counted, before⟩
  obtain ⟨next, after⟩ := step x hx _ t counted before
  refine ⟨by rw [next, counted, Nat.succ_mul, Nat.add_assoc], after.weaken fun i _ j _ now => ?_⟩
  rcases now with before | ⟨y, hy, here⟩
  · exact .inl (.inl before)
  · rcases Nat.lt_succ_iff_lt_or_eq.mp hy with earlier | rfl
    · exact .inl (.inr ⟨y, earlier, here⟩)
    · exact .inr here

theorem Wrote.grid {rows cols : ℕ} {body : ℕ → ℕ → (ℕ → BitVec 8) → ℕ → BitVec 8}
    (cell : ℕ → ℕ → ℕ → ℕ → Prop) (wrote : m.Wrote out done dram dram')
    (step : ∀ r < rows, ∀ c < cols, ∀ done t, m.Wrote out done dram t →
      m.Wrote out (fun i j => done i j ∨ cell r c i j) dram (body r c t)) :
    m.Wrote out (fun i j => done i j ∨ ∃ r < rows, ∃ c < cols, cell r c i j) dram
      (forRange rows (fun r => forRange cols (body r)) dram') := by
  refine (Wrote.loop (d := 0) id (fun _ => 0) (fun r i j => ∃ c < cols, cell r c i j) wrote
    fun r hr _ _ _ before => ⟨rfl, ?_⟩).2
  exact (Wrote.loop (d := 0) id (fun _ => 0) _ before fun c hc done t _ before =>
    ⟨rfl, step r hr c hc done t before⟩).2

theorem Wrote.block4 (sep : m.Separate) (wrote : m.Wrote (m.output sc ig dram) done dram dram') {i j : ℕ}
    (hi : i + 4 ≤ m.dimI) (hj : j + 4 ≤ m.dimJ) :
    m.Wrote (m.output sc ig dram) (fun i' j' => done i' j' ∨
      ∃ ii < 4, ∃ jj < 4, i' = i + ii ∧ j' = j + jj) dram (m.block4 sc ig dram' i j) := by
  refine wrote.grid _ fun ii hii jj hjj done t before => ?_
  rw [wrote.sum_eq sep (show i + ii < m.dimI by omega) (show j + jj < m.dimJ by omega)]
  exact before.write sep (by omega) (by omega)

theorem Wrote.start : m.Wrote out (fun _ _ => False) dram dram :=
  ⟨fun _ _ _ _ h => h.elim, fun _ _ => rfl⟩

def tripleLoop (sc : Scaling) (ig : Igelu) (m : Args) (dram : ℕ → BitVec 8) : ℕ → BitVec 8 :=
  forRange m.dimI (fun i => forRange m.dimJ fun j dram =>
    modify (m.addrC i j) (fun _ => scaleAndSat sc ig (m.sum sc dram i j) m.act m.scale) dram) dram

theorem tripleLoop_wrote (sep : m.Separate) :
    m.Wrote (m.output sc ig dram) (fun _ _ => True) dram (m.tripleLoop sc ig dram) := by
  have all : m.Wrote (m.output sc ig dram) (fun i j => False ∨ ∃ r < m.dimI, ∃ c < m.dimJ, i = r ∧ j = c)
      dram (m.tripleLoop sc ig dram) := by
    refine Wrote.start.grid _ fun i hi j hj done t before => ?_
    rw [before.sum_eq sep hi hj]
    exact before.write sep hi hj
  exact all.weaken fun i hi j hj _ => Or.inr ⟨i, hi, j, hj, rfl, rfl⟩

theorem blocks_wrote (sep : m.Separate) (hi : m.dimI % 4 = 0) (hj : m.dimJ % 4 = 0) :
    m.Wrote (m.output sc ig dram) (fun _ _ => True) dram
      (forRange (m.dimI / 4) (fun bi => forRange (m.dimJ / 4) fun bj dram =>
        m.block4 sc ig dram (4 * bi) (4 * bj)) dram) := by
  refine (Wrote.start.grid _ fun bi hbi bj hbj done t before => before.block4 sep (i := 4 * bi)
    (j := 4 * bj) (by omega) (by omega)).weaken fun i hi j hj _ => Or.inr ?_
  exact ⟨i / 4, by omega, j / 4, by omega, i % 4, by omega, j % 4, by omega, by omega, by omega⟩

theorem matmulCpu_wrote (sep : m.Separate) (act : m.act ≠ .layernorm ∧ m.act ≠ .softmax) :
    ∃ dram', m.matmulCpu sc ig dram = some dram' ∧
      m.Wrote (m.output sc ig dram) (fun _ _ => True) dram dram' := by
  have plain : ¬(m.act = .layernorm ∨ m.act = .softmax) := by
    rintro (h | h)
    · exact act.1 h
    · exact act.2 h
  unfold matmulCpu
  simp only [plain, not_false_eq_true, true_and, false_and, if_false]
  split
  · next fast => exact ⟨_, rfl, blocks_wrote sep fast.2.2.1 fast.2.2.2⟩
  · exact ⟨_, rfl, tripleLoop_wrote sep⟩

/-! ### The unrolled path -/

/-- The sixteen accumulators of the block at `(i, j)`. -/
def result (sc : Scaling) (m : Args) (dram : ℕ → BitVec 8) (i j : ℕ) : ℕ × ℕ → BitVec 32 :=
  forRange m.dimK (fun k => modifyGrid 4 4 Prod.mk fun ii jj sum => sum +
      (sc.mvinScale (dram (m.A + (i + ii) * m.strideA + k)) m.aScale).signExtend 32 *
      (sc.mvinScale (dram (m.B + k * m.strideB + j + jj)) m.bScale).signExtend 32)
    fun x => m.bias dram (i + x.1) (j + x.2)

/-- The path that is taken if both sizes are multiples of four and nothing is transposed. -/
def unrolled (sc : Scaling) (ig : Igelu) (m : Args) (dram : ℕ → BitVec 8) : ℕ → BitVec 8 :=
  forRange (m.dimI / 4) (fun bi => forRange (m.dimJ / 4) fun bj dram =>
    modifyGrid 4 4 (fun ii jj => m.C + (4 * bi + ii) * m.strideC + 4 * bj + jj)
      (fun ii jj _ => scaleAndSat sc ig (m.result sc dram (4 * bi) (4 * bj) (ii, jj)) m.act m.scale)
      dram) dram

theorem result_eq_sum (plainA : m.transposeA = false) (plainB : m.transposeB = false) {i j ii jj : ℕ}
    (hi : ii < 4) (hj : jj < 4) :
    m.result sc dram i j (ii, jj) = m.sum sc dram (i + ii) (j + jj) := by
  refine forRange_sim (fun (r : ℕ × ℕ → BitVec 32) sum => r (ii, jj) = sum) rfl fun k _ r sum same => ?_
  rw [modifyGrid_at hi hj (fun _ _ _ _ h => Prod.mk.inj h), same, addrA, addrB, plainA, plainB]
  simp only [Bool.false_eq_true, if_false, Nat.mul_one]
  rw [show m.B + k * m.strideB + j + jj = m.B + (j + jj) + k * m.strideB by omega]

theorem unrolled_eq_block4 (plainA : m.transposeA = false) (plainB : m.transposeB = false) :
    m.unrolled sc ig dram = forRange (m.dimI / 4) (fun bi => forRange (m.dimJ / 4)
      fun bj dram => m.block4 sc ig dram (4 * bi) (4 * bj)) dram := by
  refine forRange_congr (fun bi _ dram => forRange_congr (fun bj _ dram => ?_) dram) dram
  refine forRange_congr (fun ii hii t => forRange_congr (fun jj hjj t => ?_) t) dram
  dsimp only
  rw [result_eq_sum plainA plainB hii hjj, addrC, Nat.add_assoc _ (4 * bj)]

/-- The unrolled path leaves the memory that the general loop leaves. -/
theorem unrolled_eq_tripleLoop (sep : m.Separate) (plainA : m.transposeA = false)
    (plainB : m.transposeB = false) (hi : m.dimI % 4 = 0) (hj : m.dimJ % 4 = 0) :
    m.unrolled sc ig dram = m.tripleLoop sc ig dram := by
  rw [unrolled_eq_block4 plainA plainB]
  exact (blocks_wrote sep hi hj).unique (tripleLoop_wrote sep)

def fourByFour : Args :=
  ⟨4, 4, 1, 16, 32, 0, 48, 1, 4, 4, 4, 0, 0, 0, .none, 0, false, false, false⟩

theorem fourByFour_unrolled : let sc : Scaling := ⟨fun x _ => x, fun x _ => x, fun x _ => x, id, id⟩
    fourByFour.unrolled sc ⟨0, 0, 0⟩ (BitVec.ofNat 8) =
      fourByFour.tripleLoop sc ⟨0, 0, 0⟩ (BitVec.ofNat 8) :=
  unrolled_eq_tripleLoop ⟨by decide, by decide, by decide, fun present => absurd rfl present⟩ rfl rfl
    rfl rfl

end Args

end Gemmini.Matmul
