import Gemmini.Matmul.Blocks

/-!
# One tile of a matrix multiplication

What `loop_ws` does for a tile of `I` by `J` blocks and a depth of `K` blocks: what the local memories
hold between the iterations of its loops, and what it writes to main memory.
-/

namespace Gemmini.Matmul

open Simulator

section

variable (hw : Hw) (p : LoopArgs) (l : LoopWs)

def Written (addr : ℕ) : Prop :=
  l.C ≠ 0 ∧ ∃ r < extent hw l.I l.padI l.I, ∃ c < extent hw l.J l.padJ l.J, addr = elemC l r c

def Filled (row : ℕ) : Prop :=
  (l.A ≠ 0 ∧ (operandA hw p l).start ≤ row ∧ row < (operandA hw p l).stop hw) ∨
    (l.B ≠ 0 ∧ (operandB hw p l).start ≤ row ∧ row < (operandB hw p l).stop hw)

/-- Before the block `(k, j, i)`, `n` blocks of the depth have been added to the block `(i', j')`. -/
def added (k j i i' j' : ℕ) : ℕ := if j' < j ∨ j' = j ∧ i' < i then k + 1 else k

theorem added_start (k i' j' : ℕ) : added k 0 0 i' j' = k := if_neg (by omega)

theorem added_of_ne {k j i i' j' : ℕ} (other : ¬(i' = i ∧ j' = j)) :
    added k j (i + 1) i' j' = added k j i i' j' :=
  if_congr (by omega) rfl rfl

end

variable (hw : Hw) (sc : Scaling) (s₀ : State) (p : LoopArgs) (a b : ℕ → ℕ → BitVec 8)
  (init : ℕ → ℕ → BitVec 32)

/-- The matrices that a call multiplies.  An operand without an address is in the scratchpad already,
`init` in the accumulator. -/
structure Sources : Prop where
  loadedA : s₀.loopWs.A ≠ 0 → ∀ r < extent hw s₀.loopWs.I s₀.loopWs.padI s₀.loopWs.I,
    ∀ x < extent hw s₀.loopWs.K s₀.loopWs.padK s₀.loopWs.K,
      ¬ Written hw s₀.loopWs ((operandA hw p s₀.loopWs).elem r x) ∧
        State.mvinScale sc (s₀.dram ((operandA hw p s₀.loopWs).elem r x)) (s₀.load 0).scale = a r x
  heldA : s₀.loopWs.A = 0 → ∀ i < s₀.loopWs.I, ∀ k < s₀.loopWs.K,
    (operandA hw p s₀.loopWs).Holds hw a s₀.spad i k
  loadedB : s₀.loopWs.B ≠ 0 → ∀ x < extent hw s₀.loopWs.K s₀.loopWs.padK s₀.loopWs.K,
    ∀ c < extent hw s₀.loopWs.J s₀.loopWs.padJ s₀.loopWs.J,
      ¬ Written hw s₀.loopWs ((operandB hw p s₀.loopWs).elem x c) ∧
        State.mvinScale sc (s₀.dram ((operandB hw p s₀.loopWs).elem x c)) (s₀.load 1).scale = b x c
  heldB : s₀.loopWs.B = 0 → ∀ k < s₀.loopWs.K, ∀ j < s₀.loopWs.J,
    (operandB hw p s₀.loopWs).Holds hw b s₀.spad k j
  bias : s₀.loopWs.D ≠ 0 → ∀ r < extent hw s₀.loopWs.I s₀.loopWs.padI s₀.loopWs.I,
    ∀ c < extent hw s₀.loopWs.J s₀.loopWs.padJ s₀.loopWs.J,
      readAcc s₀.dram (s₀.loopWs.D + (r * s₀.loopWs.strideD + c) * 4) = init r c
  held : s₀.loopWs.D = 0 → p.exAccumulate = true → ∀ i < s₀.loopWs.I, ∀ j < s₀.loopWs.J,
    ∀ r < side hw s₀.loopWs.I s₀.loopWs.padI i, ∀ c < side hw s₀.loopWs.J s₀.loopWs.padJ j,
      s₀.accumulator (accRow hw s₀.loopWs i j + r, c) = init (i * hw.dim + r) (j * hw.dim + c)
  fresh : p.exAccumulate = false → ∀ r c, init r c = 0

/-- `m` blocks of A in column `k` and, if `0 < n`, the block `(k, j)` of B have been moved in. -/
structure SpadInv (k j m n : ℕ) (spad : ℕ × ℕ → BitVec 8) : Prop where
  inA : ∀ i' < s₀.loopWs.I, ∀ k' < s₀.loopWs.K,
    (s₀.loopWs.A = 0 ∨ k' < k ∨ k' = k ∧ (0 < j ∨ i' < m)) →
      (operandA hw p s₀.loopWs).Holds hw a spad i' k'
  inB : ∀ k' < s₀.loopWs.K, ∀ j' < s₀.loopWs.J,
    (s₀.loopWs.B = 0 ∨ k' < k ∨ k' = k ∧ (j' < j ∨ j' = j ∧ 0 < n)) →
      (operandB hw p s₀.loopWs).Holds hw b spad k' j'
  kept : ∀ row col, ¬ Filled hw p s₀.loopWs row → spad (row, col) = s₀.spad (row, col)

def AccInv (k j i : ℕ) (acc : ℕ × ℕ → BitVec 32) : Prop :=
  ∀ i' < s₀.loopWs.I, ∀ j' < s₀.loopWs.J, (p.exAccumulate = true ∨ 0 < added k j i i' j') →
    ∀ r < side hw s₀.loopWs.I s₀.loopWs.padI i', ∀ c < side hw s₀.loopWs.J s₀.loopWs.padJ j',
      acc (accRow hw s₀.loopWs i' j' + r, c) = init (i' * hw.dim + r) (j' * hw.dim + c) +
        ∑ x ∈ Finset.range (extent hw s₀.loopWs.K s₀.loopWs.padK (added k j i i' j')),
          term a b (i' * hw.dim + r) (j' * hw.dim + c) x

def result (r c : ℕ) : BitVec 8 :=
  s₀.storedElem sc (init r c + ∑ x ∈ Finset.range (extent hw s₀.loopWs.K s₀.loopWs.padK s₀.loopWs.K),
    term a b r c x)

structure DramInv (k j i : ℕ) (dram : ℕ → BitVec 8) : Prop where
  stored : s₀.loopWs.C ≠ 0 → ∀ i' < s₀.loopWs.I, ∀ j' < s₀.loopWs.J,
    s₀.loopWs.K ≤ added k j i i' j' →
    ∀ r < side hw s₀.loopWs.I s₀.loopWs.padI i', ∀ c < side hw s₀.loopWs.J s₀.loopWs.padJ j',
      dram (elemC s₀.loopWs (i' * hw.dim + r) (j' * hw.dim + c)) =
        result hw sc s₀ a b init (i' * hw.dim + r) (j' * hw.dim + c)
  kept : ∀ addr, ¬ Written hw s₀.loopWs addr → dram addr = s₀.dram addr

structure Inv (k j i : ℕ) (s : State) : Prop where
  settings : s.settings = s₀.settings
  spad : SpadInv hw s₀ p a b k j i i s.spad
  pe : 0 < i → Loaded hw s₀.loopWs b s.pe k j
  acc : AccInv hw s₀ p a b init k j i s.accumulator
  dram : DramInv hw sc s₀ a b init k j i s.dram

section Steps

variable {hw sc s₀ p a b init} {s : State} {k j i : ℕ} (call : Call hw s₀ p)
  (src : Sources hw sc s₀ p a b init)

include call src

theorem loadA_inv (same : s.settings = s₀.settings) (spad : SpadInv hw s₀ p a b k j i i s.spad)
    (dram : DramInv hw sc s₀ a b init k j i s.dram) (hi : i < s₀.loopWs.I) (hk : k < s₀.loopWs.K) :
    let t := if j = 0 ∧ s₀.loopWs.A ≠ 0 then s.loadA hw sc p i k else s
    t.settings = s₀.settings ∧ ∃ m, t.memory = { s.memory with spad := m } ∧
      SpadInv hw s₀ p a b k j (i + 1) i m := by
  have loop : s.loopWs = s₀.loopWs := congrArg Settings.loopWs same
  have loads : s.load = s₀.load := congrArg Settings.load same
  by_cases now : j = 0 ∧ s₀.loopWs.A ≠ 0
  · have room := Operand.addr_room hw (o := operandA hw p s₀.loopWs) hi hk
    obtain ⟨settings, m, memory, holds, outside⟩ := Operand.load_spec
      (show (s.load 0).pixelsPerRow = 1 by rw [loads]; exact call.pixels 0 (by norm_num))
      (by rw [loads]; exact call.strideA) now.2 (room.2.trans call.regions.1) fun r hr x hx => by
        obtain ⟨unwritten, value⟩ :=
          src.loadedA now.2 _ (flat_lt call.padI hi hr) _ (flat_lt call.padK hk hx)
        rw [loads, dram.kept _ unwritten, value]
    have loaded : s.loadA hw sc p i k = (operandA hw p s₀.loopWs).load hw sc 0 i k s := by
      rw [← loop]
      rfl
    simp only [if_pos now, loaded]
    refine ⟨settings.trans same, m, memory, fun i' hi' k' hk' before => ?_,
      fun k' hk' j' hj' before => ?_, fun row col unfilled => ?_⟩
    · exact holds.update outside hi hk hi' hk' fun other => spad.inA i' hi' k' hk' (by omega)
    · exact (spad.inB k' hk' j' hj' before).other outside call.regions.2.2.symm hi hk hk' hj'
    · rw [outside row col, spad.kept row col unfilled]
      by_contra within
      exact unfilled (Or.inl ⟨now.2, by omega, by omega⟩)
  · simp only [if_neg now]
    refine ⟨same, s.spad, rfl, fun i' hi' k' hk' before => ?_, spad.inB, spad.kept⟩
    exact spad.inA i' hi' k' hk' (by omega)

theorem loadB_inv (same : s.settings = s₀.settings) (spad : SpadInv hw s₀ p a b k j (i + 1) i s.spad)
    (dram : DramInv hw sc s₀ a b init k j i s.dram) (hj : j < s₀.loopWs.J) (hk : k < s₀.loopWs.K) :
    let t := if i = 0 ∧ s₀.loopWs.B ≠ 0 then s.loadB hw sc p k j else s
    t.settings = s₀.settings ∧ ∃ m, t.memory = { s.memory with spad := m } ∧
      SpadInv hw s₀ p a b k j (i + 1) (i + 1) m := by
  have loop : s.loopWs = s₀.loopWs := congrArg Settings.loopWs same
  have loads : s.load = s₀.load := congrArg Settings.load same
  by_cases now : i = 0 ∧ s₀.loopWs.B ≠ 0
  · have room := Operand.addr_room hw (o := operandB hw p s₀.loopWs) hk hj
    obtain ⟨settings, m, memory, holds, outside⟩ := Operand.load_spec
      (show (s.load 1).pixelsPerRow = 1 by rw [loads]; exact call.pixels 1 (by norm_num))
      (by rw [loads]; exact call.strideB) now.2 (room.2.trans call.regions.2.1) fun x hx c hc => by
        obtain ⟨unwritten, value⟩ :=
          src.loadedB now.2 _ (flat_lt call.padK hk hx) _ (flat_lt call.padJ hj hc)
        rw [loads, dram.kept _ unwritten, value]
    have loaded : s.loadB hw sc p k j = (operandB hw p s₀.loopWs).load hw sc 1 k j s := by
      rw [← loop]
      rfl
    simp only [if_pos now, loaded]
    refine ⟨settings.trans same, m, memory, fun i' hi' k' hk' before => ?_,
      fun k' hk' j' hj' before => ?_, fun row col unfilled => ?_⟩
    · exact (spad.inA i' hi' k' hk' before).other outside call.regions.2.2 hk hj hi' hk'
    · exact holds.update outside hk hj hk' hj' fun other => spad.inB k' hk' j' hj' (by omega)
    · rw [outside row col, spad.kept row col unfilled]
      by_contra within
      exact unfilled (Or.inr ⟨now.2, by omega, by omega⟩)
  · simp only [if_neg now]
    refine ⟨same, s.spad, rfl, spad.inA, fun k' hk' j' hj' before => ?_, spad.kept⟩
    exact spad.inB k' hk' j' hj' (by omega)

theorem accInv_step {acc m : ℕ × ℕ → BitVec 32} (inv : AccInv hw s₀ p a b init k j i acc)
    (hj : j < s₀.loopWs.J) (hk : k < s₀.loopWs.K)
    (outside : SameOutside hw (accRow hw s₀.loopWs i j) acc m)
    (cells : ∀ r < side hw s₀.loopWs.I s₀.loopWs.padI i, ∀ c < side hw s₀.loopWs.J s₀.loopWs.padJ j,
      m (accRow hw s₀.loopWs i j + r, c) =
        (if p.exAccumulate = false ∧ k = 0 then 0 else acc (accRow hw s₀.loopWs i j + r, c)) +
        ∑ x ∈ Finset.range (side hw s₀.loopWs.K s₀.loopWs.padK k),
          term a b (i * hw.dim + r) (j * hw.dim + c) (k * hw.dim + x)) :
    AccInv hw s₀ p a b init k j (i + 1) m := by
  intro i' hi' j' hj' some r hr c hc
  by_cases this : i' = i ∧ j' = j
  · obtain ⟨rfl, rfl⟩ := this
    have now : added k j' (i' + 1) i' j' = k + 1 := if_pos (by omega)
    have before : added k j' i' i' j' = k := if_neg (by omega)
    have old : (if p.exAccumulate = false ∧ k = 0 then 0 else acc (accRow hw s₀.loopWs i' j' + r, c)) =
        init (i' * hw.dim + r) (j' * hw.dim + c) + ∑ x ∈ Finset.range (k * hw.dim),
          term a b (i' * hw.dim + r) (j' * hw.dim + c) x := by
      by_cases first : p.exAccumulate = false ∧ k = 0
      · rw [if_pos first, src.fresh first.1, first.2, Nat.zero_mul, Finset.sum_range_zero, add_zero]
      · have := inv i' hi' j' hj' (by
          rw [before]
          cases h : p.exAccumulate
          · exact Or.inr (Nat.pos_of_ne_zero fun zero => first ⟨h, zero⟩)
          · exact Or.inl rfl) r hr c hc
        rw [if_neg first, this, before, extent_of_lt hk]
    rw [cells r hr c hc, old, now, extent_succ call.padK hk, Finset.sum_range_add, add_assoc]
  · have lines := side_le hw s₀.loopWs.I s₀.loopWs.padI i'
    rw [added_of_ne this] at some ⊢
    rw [outside _ c (accRow_apart hj hj' (by omega) this)]
    exact inv i' hi' j' hj' some r hr c hc

omit src in
theorem storeC_inv (same : s.settings = s₀.settings)
    (acc : AccInv hw s₀ p a b init k j (i + 1) s.accumulator)
    (dram : DramInv hw sc s₀ a b init k j i s.dram) (hi : i < s₀.loopWs.I) (hj : j < s₀.loopWs.J)
    (hk : k < s₀.loopWs.K) :
    let t := if s₀.loopWs.C ≠ 0 ∧ k = s₀.loopWs.K - 1 then s.storeC hw sc p i j else s
    t.settings = s₀.settings ∧ ∃ m, t.memory = { s.memory with dram := m } ∧
      DramInv hw sc s₀ a b init k j (i + 1) m := by
  have loop : s.loopWs = s₀.loopWs := congrArg Settings.loopWs same
  by_cases now : s₀.loopWs.C ≠ 0 ∧ k = s₀.loopWs.K - 1
  · obtain ⟨settings, m, memory, stored, kept⟩ := (call.of_settings same).storeC_spec (i := i) (j := j)
      (by rw [loop]; exact hi) (by rw [loop]; exact hj)
    rw [loop] at stored kept
    simp only [if_pos now]
    refine ⟨settings.trans same, m, memory, fun _ i' hi' j' hj' done r hr c hc => ?_, fun addr unwritten => ?_⟩
    · by_cases here : i' = i ∧ j' = j
      · obtain ⟨rfl, rfl⟩ := here
        have all : added k j' (i' + 1) i' j' = s₀.loopWs.K := (if_pos (by omega)).trans (by omega)
        rw [stored r hr c hc, State.storedElem_congr same, acc i' hi' j' hj' (by omega) r hr c hc, all]
        rfl
      · rw [added_of_ne here] at done
        rw [kept _ fun r' hr' c' hc' hit => ?_, dram.stored now.1 i' hi' j' hj' done r hr c hc]
        have places := elemC_inj ((flat_lt call.padJ hj' hc).trans_le call.widthC)
          ((flat_lt call.padJ hj hc').trans_le call.widthC) hit
        have := side_le hw s₀.loopWs.I s₀.loopWs.padI i
        have := side_le hw s₀.loopWs.I s₀.loopWs.padI i'
        have := side_le hw s₀.loopWs.J s₀.loopWs.padJ j
        have := side_le hw s₀.loopWs.J s₀.loopWs.padJ j'
        exact here ⟨rows_apart (by omega) (by omega) places.1, rows_apart (by omega) (by omega) places.2⟩
    · rw [kept _ fun r hr c hc hit => unwritten ⟨now.1, _, flat_lt call.padI hi hr, _,
        flat_lt call.padJ hj hc, hit⟩, dram.kept addr unwritten]
  · simp only [if_neg now]
    refine ⟨same, s.dram, rfl, fun present i' hi' j' hj' done => ?_, dram.kept⟩
    have : added k j (i + 1) i' j' ≤ k + 1 := by
      unfold added
      split <;> omega
    omega

theorem Inv.step (inv : Inv hw sc s₀ p a b init k j i s) (hi : i < s₀.loopWs.I) (hj : j < s₀.loopWs.J)
    (hk : k < s₀.loopWs.K) : Inv hw sc s₀ p a b init k j (i + 1) (s.loopBody hw sc p k j i) := by
  have loop : s.loopWs = s₀.loopWs := congrArg Settings.loopWs inv.settings
  have notLayernorm : ¬ p.act = Activation.layernorm.toNat := by
    rcases call.act with h | h <;> rw [h] <;> decide
  have notSoftmax : ¬ p.act = Activation.softmax.toNat := by
    rcases call.act with h | h <;> rw [h] <;> decide
  simp only [State.loopBody, loop, notLayernorm, notSoftmax, if_false]
  obtain ⟨same₁, m₁, memory₁, spad₁⟩ := loadA_inv call src inv.settings inv.spad inv.dram hi hk
  generalize (if j = 0 ∧ s₀.loopWs.A ≠ 0 then s.loadA hw sc p i k else s) = s₁ at same₁ memory₁ ⊢
  obtain ⟨dram₁, rfl, acc₁, pe₁⟩ := Memory.mk.inj memory₁
  obtain ⟨same₂, m₂, memory₂, spad₂⟩ := loadB_inv call src same₁ spad₁ (dram₁ ▸ inv.dram) hj hk
  generalize (if i = 0 ∧ s₀.loopWs.B ≠ 0 then s₁.loadB hw sc p k j else s₁) = s₂ at same₂ memory₂ ⊢
  obtain ⟨dram₂, rfl, acc₂, pe₂⟩ := Memory.mk.inj memory₂
  have loop₂ : s₂.loopWs = s₀.loopWs := congrArg Settings.loopWs same₂
  have accs : s₂.accumulator = s.accumulator := acc₂.trans acc₁
  have pes : s₂.pe = s.pe := pe₂.trans pe₁
  obtain ⟨same₃, acc, pe, memory₃, loaded, outside, cells⟩ := (call.of_settings same₂).computeBlock_spec
    (by rw [loop₂]; exact hi) (by rw [loop₂]; exact hj) (by rw [loop₂]; exact hk)
    (by rw [loop₂]; exact spad₂.inA i hi k hk (by omega))
    (fun _ => by rw [loop₂]; exact spad₂.inB k hk j hj (by omega))
    (fun later => by rw [loop₂, pes]; exact inv.pe later)
  rw [loop₂] at loaded outside cells
  rw [accs] at outside cells
  rw [same₂] at same₃
  generalize s₂.computeBlock hw p k j i = s₃ at same₃ memory₃ ⊢
  obtain ⟨dram₃, spad₃, rfl, rfl⟩ := Memory.mk.inj memory₃
  have acc₃ := accInv_step call src inv.acc hj hk outside cells
  have drams : s₃.dram = s.dram := dram₃.trans (dram₂.trans dram₁)
  obtain ⟨same₄, m₄, memory₄, dram₄⟩ := storeC_inv call same₃ acc₃ (drams ▸ inv.dram) hi hj hk
  generalize (if s₀.loopWs.C ≠ 0 ∧ k = s₀.loopWs.K - 1 then s₃.storeC hw sc p i j else s₃) = s₄
    at same₄ memory₄ ⊢
  obtain ⟨rfl, spad₄, acc₄, pe₄⟩ := Memory.mk.inj memory₄
  exact ⟨same₄, spad₄.trans spad₃ ▸ spad₂, fun _ => pe₄ ▸ loaded, acc₄ ▸ acc₃, dram₄⟩

/-! ### The loops -/

omit src in
/-- After the last row of a column, or the last column of a layer, nothing is left to be added. -/
theorem Inv.turn {k' j' : ℕ} (inv : Inv hw sc s₀ p a b init k j i s)
    (turn : i = s₀.loopWs.I ∧ k' = k ∧ j' = j + 1 ∨
      i = 0 ∧ j = s₀.loopWs.J ∧ k' = k + 1 ∧ j' = 0) :
    Inv hw sc s₀ p a b init k' j' 0 s := by
  have rows := call.posI
  have cols := call.posJ
  have same : ∀ x < s₀.loopWs.I, ∀ y < s₀.loopWs.J, added k' j' 0 x y = added k j i x y := by
    intro x hx y hy
    unfold added
    split_ifs <;> omega
  refine ⟨inv.settings, ⟨fun x hx y hy before => inv.spad.inA x hx y hy (by omega),
    fun x hx y hy before => inv.spad.inB x hx y hy (by omega), inv.spad.kept⟩,
    fun h => by omega, fun x hx y hy some => ?_, fun present x hx y hy done => ?_, inv.dram.kept⟩
  · rw [same x hx y hy] at some ⊢
    exact inv.acc x hx y hy some
  · rw [same x hx y hy] at done
    exact inv.dram.stored present x hx y hy done

theorem Inv.run (inv : Inv hw sc s₀ p a b init 0 0 0 s) :
    Inv hw sc s₀ p a b init s₀.loopWs.K 0 0 (forRange s₀.loopWs.K (fun k => forRange s₀.loopWs.J fun j =>
      forRange s₀.loopWs.I fun i s => s.loopBody hw sc p k j i) s) := by
  refine forRange_inv (fun k t => Inv hw sc s₀ p a b init k 0 0 t) inv fun k hk t atK => ?_
  refine Inv.turn call (forRange_inv (fun j t => Inv hw sc s₀ p a b init k j 0 t) atK fun j hj t atJ => ?_)
    (.inr ⟨rfl, rfl, rfl, rfl⟩)
  refine Inv.turn call (forRange_inv (fun i t => Inv hw sc s₀ p a b init k j i t) atJ fun i hi t atI => ?_)
    (.inl ⟨rfl, rfl, rfl⟩)
  exact atI.step call src hi hj hk

/-- The blocks of the bias in the rows before `i` and `j` of row `i` have been moved in. -/
structure BiasInv (hw : Hw) (s₀ : State) (init : ℕ → ℕ → BitVec 32) (i j : ℕ) (s : State) : Prop where
  settings : s.settings = s₀.settings
  memory : s.memory = { s₀.memory with accumulator := s.accumulator }
  acc : ∀ i' < s₀.loopWs.I, ∀ j' < s₀.loopWs.J, i' < i ∨ i' = i ∧ j' < j →
    ∀ r < side hw s₀.loopWs.I s₀.loopWs.padI i', ∀ c < side hw s₀.loopWs.J s₀.loopWs.padJ j',
      s.accumulator (accRow hw s₀.loopWs i' j' + r, c) = init (i' * hw.dim + r) (j' * hw.dim + c)

theorem BiasInv.step (inv : BiasInv hw s₀ init i j s) (present : s₀.loopWs.D ≠ 0) (hi : i < s₀.loopWs.I)
    (hj : j < s₀.loopWs.J) : BiasInv hw s₀ init i (j + 1) (s.loadD hw sc p i j) := by
  have loop : s.loopWs = s₀.loopWs := congrArg Settings.loopWs inv.settings
  have dram : s.dram = s₀.dram := congrArg Memory.dram inv.memory
  obtain ⟨settings, m, memory, outside, cells⟩ := (call.of_settings inv.settings).loadD_spec sc
    (by rw [loop]; exact hi) (by rw [loop]; exact hj) (by rw [loop]; exact present)
    (fun r hr c hc => by
      rw [loop] at hr hc ⊢
      rw [dram]
      exact src.bias present _ (flat_lt call.padI hi hr) _ (flat_lt call.padJ hj hc))
  rw [loop] at outside cells
  rw [inv.memory] at memory
  generalize s.loadD hw sc p i j = t at settings memory ⊢
  obtain ⟨_, _, rfl, _⟩ := Memory.mk.inj memory
  refine ⟨settings.trans inv.settings, memory, fun i' hi' j' hj' before r hr c hc => ?_⟩
  by_cases here : i' = i ∧ j' = j
  · obtain ⟨rfl, rfl⟩ := here
    exact cells r hr c hc
  · have lines := side_le hw s₀.loopWs.I s₀.loopWs.padI i'
    rw [outside _ c (accRow_apart hj hj' (by omega) here)]
    exact inv.acc i' hi' j' hj' (by omega) r hr c hc

theorem BiasInv.run (present : s₀.loopWs.D ≠ 0) :
    BiasInv hw s₀ init s₀.loopWs.I 0
      (forRange s₀.loopWs.I (fun i => forRange s₀.loopWs.J fun j s => s.loadD hw sc p i j) s₀) := by
  have start : BiasInv hw s₀ init 0 0 s₀ := ⟨rfl, rfl, fun i' _ j' _ before => by omega⟩
  refine forRange_inv (fun i t => BiasInv hw s₀ init i 0 t) start fun i hi t atI => ?_
  have row := forRange_inv (fun j t => BiasInv hw s₀ init i j t) atI fun j hj t atJ =>
    BiasInv.step call src atJ present hi hj
  exact ⟨row.settings, row.memory, fun i' hi' j' hj' before => row.acc i' hi' j' hj' (by omega)⟩

omit src in
theorem Inv.start (src : Sources hw sc s₀ p a b init) (same : s.settings = s₀.settings)
    (memory : s.memory = { s₀.memory with accumulator := s.accumulator })
    (acc : p.exAccumulate = true → ∀ i' < s₀.loopWs.I, ∀ j' < s₀.loopWs.J,
      ∀ r < side hw s₀.loopWs.I s₀.loopWs.padI i', ∀ c < side hw s₀.loopWs.J s₀.loopWs.padJ j',
        s.accumulator (accRow hw s₀.loopWs i' j' + r, c) = init (i' * hw.dim + r) (j' * hw.dim + c)) :
    Inv hw sc s₀ p a b init 0 0 0 s := by
  have deep := call.posK
  have spad : s.spad = s₀.spad := congrArg Memory.spad memory
  have dram : s.dram = s₀.dram := congrArg Memory.dram memory
  refine ⟨same, ⟨fun i' hi' k' hk' before => ?_, fun k' hk' j' hj' before => ?_, fun row col _ => by rw [spad]⟩,
    fun h => by omega, fun i' hi' j' hj' some r hr c hc => ?_, fun _ i' hi' j' hj' done => ?_,
    fun addr _ => by rw [dram]⟩
  · rw [spad]
    exact src.heldA (by omega) i' hi' k' hk'
  · rw [spad]
    exact src.heldB (by omega) k' hk' j' hj'
  · rw [added_start] at some ⊢
    rw [acc (by simpa using some) i' hi' j' hj' r hr c hc, extent_of_lt deep, Nat.zero_mul,
      Finset.sum_range_zero, add_zero]
  · rw [added_start] at done
    omega

theorem loopWsRun_inv : Inv hw sc s₀ p a b init s₀.loopWs.K 0 0 (s₀.loopWsRun hw sc p) := by
  have accepted := LoopArgs.accepts_of_le call.spad call.acc
  simp only [State.loopWsRun, if_neg (not_not.mpr accepted), call.matmul, Bool.false_eq_true, if_false]
  refine Inv.run call src ?_
  by_cases present : s₀.loopWs.D ≠ 0
  · rw [if_pos present]
    obtain ⟨settings, memory, bias⟩ := BiasInv.run call src present
    exact Inv.start call src settings memory fun _ i' hi' j' hj' => bias i' hi' j' hj' (Or.inl hi')
  · rw [if_neg present]
    exact Inv.start call src rfl rfl fun keep i' hi' j' hj' =>
      src.held (not_not.mp present) keep i' hi' j' hj'

end Steps

end Gemmini.Matmul
