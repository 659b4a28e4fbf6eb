import Gemmini.Matmul.Tile
import Gemmini.Matmul.Program

/-!
# Tiles of a multiplication

How `tiled_matmul_outer` cuts the dimensions into tiles, and an invariant of its loops: which tiles are
still in the scratchpad, what the accumulator holds between two tiles of the depth, and which elements
of the result are in main memory.
-/

namespace Gemmini.Matmul

open Simulator

variable {hw : Hw} {sc : Scaling}

/-! ### Tiles of one dimension -/

theorem tiling_spec {n tile : ℕ} (hw : Hw) (ht : 0 < tile) (hn : 0 < n) : ∃ q N, tiles hw n tile = q + 1 ∧
    N = q * tile + last hw n tile ∧ 0 < last hw n tile ∧ last hw n tile ≤ tile ∧
    padded hw n = N * hw.dim ∧ n ≤ N * hw.dim ∧ N * hw.dim < n + hw.dim := by
  have hd := hw.dim_pos
  obtain ⟨N, hN, pos, above, below⟩ : ∃ N, padded hw n = N * hw.dim ∧ 0 < N ∧ n ≤ N * hw.dim ∧
      N * hw.dim < n + hw.dim := by
    have split := Nat.div_add_mod n hw.dim
    have small := Nat.mod_lt n hd
    rw [Nat.mul_comm] at split
    by_cases even : n % hw.dim = 0
    · refine ⟨n / hw.dim, ?_, ?_, by omega, by omega⟩
      · rw [padded, if_neg (not_not.mpr even), Nat.add_zero]
      · refine Nat.pos_of_ne_zero fun zero => ?_
        rw [zero] at split
        omega
    · refine ⟨n / hw.dim + 1, ?_, Nat.succ_pos _, ?_, ?_⟩
      · rw [padded, if_pos even]
      · rw [Nat.succ_mul]
        omega
      · rw [Nat.succ_mul]
        omega
  have mod : padded hw n % (tile * hw.dim) = N % tile * hw.dim := by rw [hN, Nat.mul_mod_mul_right]
  have div : padded hw n / (tile * hw.dim) = N / tile := by rw [hN, Nat.mul_div_mul_right _ _ hd]
  have whole : padded hw n / hw.dim = N := by rw [hN, Nat.mul_div_cancel _ hd]
  have split := Nat.div_add_mod N tile
  rw [Nat.mul_comm] at split
  have small := Nat.mod_lt N ht
  by_cases even : N % tile = 0
  · have full : last hw n tile = tile := by rw [last, mod, even, Nat.zero_mul, if_pos rfl]
    have some : 0 < N / tile := by
      refine Nat.pos_of_ne_zero fun zero => ?_
      rw [zero] at split
      omega
    refine ⟨N / tile - 1, N, ?_, ?_, by omega, by omega, hN, above, below⟩
    · rw [tiles, div, mod, even, Nat.zero_mul, if_neg (by omega)]
      omega
    · have := Nat.succ_mul (N / tile - 1) tile
      rw [Nat.succ_eq_add_one, Nat.sub_add_cancel some] at this
      omega
  · have odd : ¬ N % tile * hw.dim = 0 := by
      rw [Nat.mul_eq_zero]
      omega
    have rest : last hw n tile = N % tile := by rw [last, mod, if_neg odd, whole]
    refine ⟨N / tile, N, ?_, by omega, by omega, by omega, hN, above, below⟩
    rw [tiles, div, mod, if_pos odd]

section Dimension

variable {n tile i : ℕ} (ht : 0 < tile) (hn : 0 < n) (hi : i < tiles hw n tile)

include ht hn

variable (hw) in
theorem tiles_pos : 0 < tiles hw n tile := by
  obtain ⟨q, N, count, _⟩ := tiling_spec hw ht hn
  omega

theorem blocks_pos : 0 < blocks hw n tile i := by
  obtain ⟨q, N, _, _, some, _⟩ := tiling_spec hw ht hn
  unfold blocks
  split <;> omega

variable (hw i) in
theorem blocks_le : blocks hw n tile i ≤ tile := by
  obtain ⟨q, N, _, _, _, most, _⟩ := tiling_spec hw ht hn
  unfold blocks
  split <;> omega

theorem padding_lt : padding hw n tile i < hw.dim := by
  obtain ⟨q, N, _, _, _, _, pad, above, below⟩ := tiling_spec hw ht hn
  unfold padding
  split <;> omega

include hi

theorem tile_stop : i * (tile * hw.dim) + extent hw (blocks hw n tile i) (padding hw n tile i)
    (blocks hw n tile i) = min n ((i + 1) * (tile * hw.dim)) := by
  obtain ⟨q, N, count, total, some, most, pad, above, below⟩ := tiling_spec hw ht hn
  rw [extent, if_pos rfl]
  by_cases final : i = q
  · subst final
    have here : blocks hw n tile i = last hw n tile := if_neg (by omega)
    have padHere : padding hw n tile i = padded hw n - n := if_pos (by omega)
    have rows : N * hw.dim = i * (tile * hw.dim) + last hw n tile * hw.dim := by
      rw [total]
      ring
    have bound : last hw n tile * hw.dim ≤ tile * hw.dim := Nat.mul_le_mul_right _ most
    have room : 1 * hw.dim ≤ last hw n tile * hw.dim := Nat.mul_le_mul_right _ some
    rw [here, padHere, pad, Nat.succ_mul, min_eq_left (by omega)]
    omega
  · have here : blocks hw n tile i = tile := if_pos (by omega)
    have padHere : padding hw n tile i = 0 := if_neg (by omega)
    have rows : (i + 1) * (tile * hw.dim) + last hw n tile * hw.dim ≤ N * hw.dim := by
      calc (i + 1) * (tile * hw.dim) + last hw n tile * hw.dim
          ≤ q * (tile * hw.dim) + last hw n tile * hw.dim :=
            Nat.add_le_add_right (Nat.mul_le_mul_right _ (by omega)) _
        _ = N * hw.dim := by rw [total]; ring
    have bound : 1 * hw.dim ≤ last hw n tile * hw.dim := Nat.mul_le_mul_right _ some
    rw [here, padHere, Nat.sub_zero, min_eq_right (by omega), Nat.succ_mul]

variable {r : ℕ} (hr : r < extent hw (blocks hw n tile i) (padding hw n tile i) (blocks hw n tile i))

include hr in
theorem tile_lt : i * (tile * hw.dim) + r < n := by
  have := tile_stop ht hn hi
  omega

include hr in
theorem tile_of : (i * (tile * hw.dim) + r) / (tile * hw.dim) = i := by
  have stop := tile_stop ht hn hi
  have span : 0 < tile * hw.dim := Nat.mul_pos ht hw.dim_pos
  rw [Nat.succ_mul] at stop
  rw [Nat.mul_comm i, Nat.mul_add_div span, Nat.div_eq_of_lt (by omega), Nat.add_zero]

theorem in_tile (hr : r < n) (tileR : r / (tile * hw.dim) = i) :
    ∃ r' < extent hw (blocks hw n tile i) (padding hw n tile i) (blocks hw n tile i),
      r = i * (tile * hw.dim) + r' := by
  have stop := tile_stop ht hn hi
  have span : 0 < tile * hw.dim := Nat.mul_pos ht hw.dim_pos
  have split := Nat.div_add_mod r (tile * hw.dim)
  have small := Nat.mod_lt r span
  rw [tileR, Nat.mul_comm] at split
  rw [Nat.succ_mul] at stop
  exact ⟨r % (tile * hw.dim), by omega, split.symm⟩

end Dimension

theorem tiles_cover {n tile : ℕ} (hw : Hw) (ht : 0 < tile) (hn : 0 < n) :
    n ≤ tiles hw n tile * (tile * hw.dim) := by
  obtain ⟨q, N, count, total, some, most, pad, above, below⟩ := tiling_spec hw ht hn
  calc n ≤ N * hw.dim := above
    _ = q * (tile * hw.dim) + last hw n tile * hw.dim := by rw [total]; ring
    _ ≤ q * (tile * hw.dim) + tile * hw.dim := Nat.add_le_add_left (Nat.mul_le_mul_right _ most) _
    _ = tiles hw n tile * (tile * hw.dim) := by rw [count]; ring

/-! ### One tile -/

/-- Operands and result are there and do not overlap, and the stride of the result fits the store
command. -/
structure Legal (m : Args) : Prop where
  dimI : 0 < m.dimI
  dimJ : 0 < m.dimJ
  dimK : 0 < m.dimK
  A : m.A ≠ 0
  B : m.B ≠ 0
  C : m.C ≠ 0
  strideC : m.strideC < 2 ^ 32
  act : m.act = .none ∨ m.act = .relu
  separate : m.Separate

section Matrices

variable (sc : Scaling) (m : Args) (dram : ℕ → BitVec 8)

def matA (r x : ℕ) : BitVec 8 := State.mvinScale sc (dram (m.addrA r x)) m.aScale

def matB (x c : ℕ) : BitVec 8 := State.mvinScale sc (dram (m.addrB x c)) m.bScale

/-- The sum over the first `n` elements of the depth. -/
def partialSum (n r c : ℕ) : BitVec 32 :=
  m.bias dram r c + ∑ x ∈ Finset.range n, term (matA sc m dram) (matB sc m dram) r c x

end Matrices

variable {m : Args} {t : Tiling} {s : State} {i0 j0 k0 : ℕ}

section Tile

variable (legal : Legal m) (accepted : Accepted hw m t)

include legal accepted

theorem tile_call (hj : j0 < tiles hw m.dimJ t.tileJ) :
    Call hw (withLoop (configured hw m s) (tileRegs hw m t i0 j0 k0)) (tileArgs hw m t i0 j0 k0) := by
  have leI := blocks_le hw i0 accepted.tileI_pos legal.dimI
  have leJ := blocks_le hw j0 accepted.tileJ_pos legal.dimJ
  have leK := blocks_le hw k0 accepted.tileK_pos legal.dimK
  refine ⟨rfl, rfl, rfl, rfl, rfl, ?_, rfl, rfl, ?_, rfl, ?_, rfl, rfl,
    blocks_pos accepted.tileI_pos legal.dimI, blocks_pos accepted.tileJ_pos legal.dimJ,
    blocks_pos accepted.tileK_pos legal.dimK, padding_lt accepted.tileI_pos legal.dimI,
    padding_lt accepted.tileJ_pos legal.dimJ, padding_lt accepted.tileK_pos legal.dimK, ?_, ?_, rfl,
    rfl, rfl, ?_⟩
  · intro id hid
    interval_cases id <;> rfl
  · simp only [withLoop, configured, tileRegs, modify_same]
    split <;> simp
  · have stop := tile_stop accepted.tileJ_pos legal.dimJ hj
    have width := legal.separate.width
    have fits : extent hw (blocks hw m.dimJ t.tileJ j0) (padding hw m.dimJ t.tileJ j0)
        (blocks hw m.dimJ t.tileJ j0) ≤ m.dimJ := by omega
    exact fits.trans width
  · refine le_trans ?_ accepted.spad
    rw [← Nat.add_mul]
    exact Nat.mul_le_mul_right _ (Nat.add_le_add (Nat.mul_le_mul leI leK) (Nat.mul_le_mul leK leJ))
  · exact le_trans (Nat.mul_le_mul_right _ (Nat.mul_le_mul leI leJ)) accepted.acc
  · rcases legal.act with h | h
    · exact Or.inl (congrArg Activation.toNat h)
    · exact Or.inr (congrArg Activation.toNat h)

end Tile

/-- What holds before the tile `(i0, j0, k0)`, for a multiplication that started in `s₀`. -/
structure Outer (hw : Hw) (sc : Scaling) (m : Args) (t : Tiling) (s₀ : State) (i0 j0 k0 : ℕ) (s : State) :
    Prop where
  settings : ∀ l, (withLoop s l).settings = (withLoop (configured hw m s₀) l).settings
  heldA : aReuse hw m t = true → ∀ k' < tiles hw m.dimK t.tileK, 0 < j0 ∨ k' < k0 →
    ∀ i < blocks hw m.dimI t.tileI i0, ∀ k < blocks hw m.dimK t.tileK k',
      (operandA hw (tileArgs hw m t i0 j0 k') (tileRegs hw m t i0 j0 k')).Holds hw
        (fun r x => matA sc m s₀.dram (i0 * (t.tileI * hw.dim) + r) (k' * (t.tileK * hw.dim) + x)) s.spad i k
  heldB : bReuse hw m t = true → ∀ k' < tiles hw m.dimK t.tileK, ∀ j' < tiles hw m.dimJ t.tileJ,
    0 < i0 ∨ j' < j0 ∨ j' = j0 ∧ k' < k0 →
    ∀ k < blocks hw m.dimK t.tileK k', ∀ j < blocks hw m.dimJ t.tileJ j',
      (operandB hw (tileArgs hw m t i0 j' k') (tileRegs hw m t i0 j' k')).Holds hw
        (fun x c => matB sc m s₀.dram (k' * (t.tileK * hw.dim) + x) (j' * (t.tileJ * hw.dim) + c)) s.spad k j
  acc : 0 < k0 → k0 < tiles hw m.dimK t.tileK →
    ∀ i < blocks hw m.dimI t.tileI i0, ∀ j < blocks hw m.dimJ t.tileJ j0,
    ∀ r < side hw (blocks hw m.dimI t.tileI i0) (padding hw m.dimI t.tileI i0) i,
    ∀ c < side hw (blocks hw m.dimJ t.tileJ j0) (padding hw m.dimJ t.tileJ j0) j,
      s.accumulator ((i * blocks hw m.dimJ t.tileJ j0 + j) * hw.dim + r, c) =
        partialSum sc m s₀.dram (k0 * (t.tileK * hw.dim)) (i0 * (t.tileI * hw.dim) + (i * hw.dim + r))
          (j0 * (t.tileJ * hw.dim) + (j * hw.dim + c))
  wrote : m.Wrote (fun r c => (configured hw m s₀).storedElem sc (partialSum sc m s₀.dram m.dimK r c))
    (fun r c => r / (t.tileI * hw.dim) < i0 ∨ r / (t.tileI * hw.dim) = i0 ∧
      (c / (t.tileJ * hw.dim) < j0 ∨ c / (t.tileJ * hw.dim) = j0 ∧ tiles hw m.dimK t.tileK ≤ k0))
    s₀.dram s.dram

section Step

variable {s₀ : State} (legal : Legal m) (accepted : Accepted hw m t)
  (hi : i0 < tiles hw m.dimI t.tileI) (hj : j0 < tiles hw m.dimJ t.tileJ) (hk : k0 < tiles hw m.dimK t.tileK)

theorem elemA_eq (present : (tileRegs hw m t i0 j0 k0).A ≠ 0) (r x : ℕ) :
    (operandA hw (tileArgs hw m t i0 j0 k0) (tileRegs hw m t i0 j0 k0)).elem r x =
      m.addrA (i0 * (t.tileI * hw.dim) + r) (k0 * (t.tileK * hw.dim) + x) := by
  have real : ¬(aReuse hw m t = true ∧ j0 ≥ 1) := fun reused => present (if_pos reused)
  simp only [Operand.elem, operandA, tileArgs, tileRegs, if_neg real, Args.addrA]
  split <;> ring

theorem elemB_eq (present : (tileRegs hw m t i0 j0 k0).B ≠ 0) (x c : ℕ) :
    (operandB hw (tileArgs hw m t i0 j0 k0) (tileRegs hw m t i0 j0 k0)).elem x c =
      m.addrB (k0 * (t.tileK * hw.dim) + x) (j0 * (t.tileJ * hw.dim) + c) := by
  have real : ¬(bReuse hw m t = true ∧ i0 ≥ 1) := fun reused => present (if_pos reused)
  simp only [Operand.elem, operandB, tileArgs, tileRegs, if_neg real, Args.addrB]
  split <;> ring

theorem elemC_eq (present : (tileRegs hw m t i0 j0 k0).C ≠ 0) (r c : ℕ) :
    elemC (tileRegs hw m t i0 j0 k0) r c =
      m.addrC (i0 * (t.tileI * hw.dim) + r) (j0 * (t.tileJ * hw.dim) + c) := by
  have final : k0 = tiles hw m.dimK t.tileK - 1 := by
    by_contra other
    exact present (if_neg other)
  simp only [elemC, tileRegs, if_pos final, Args.addrC]
  ring

theorem partialSum_zero (r c : ℕ) : partialSum sc m s₀.dram 0 r c = m.bias s₀.dram r c := by
  rw [partialSum, Finset.sum_range_zero, add_zero]

include legal accepted hi hj hk

omit hk in
theorem tile_written {addr : ℕ} (written : Written hw (tileRegs hw m t i0 j0 k0) addr) :
    ∃ i' < m.dimI, ∃ j' < m.dimJ, addr = m.addrC i' j' := by
  obtain ⟨present, r, hr, c, hc, rfl⟩ := written
  exact ⟨_, tile_lt accepted.tileI_pos legal.dimI hi hr, _, tile_lt accepted.tileJ_pos legal.dimJ hj hc,
    elemC_eq present r c⟩

theorem Outer.sources (outer : Outer hw sc m t s₀ i0 j0 k0 s) :
    Sources hw sc (withLoop s (tileRegs hw m t i0 j0 k0)) (tileArgs hw m t i0 j0 k0)
      (fun r x => matA sc m s₀.dram (i0 * (t.tileI * hw.dim) + r) (k0 * (t.tileK * hw.dim) + x))
      (fun x c => matB sc m s₀.dram (k0 * (t.tileK * hw.dim) + x) (j0 * (t.tileJ * hw.dim) + c))
      (fun r c => partialSum sc m s₀.dram (k0 * (t.tileK * hw.dim)) (i0 * (t.tileI * hw.dim) + r)
        (j0 * (t.tileJ * hw.dim) + c)) := by
  have sep := legal.separate
  have load : s.load = (configured hw m s₀).load :=
    congrArg Settings.load (outer.settings (tileRegs hw m t i0 j0 k0))
  constructor
  · intro present r hr x hx
    rw [withLoop_loopWs, elemA_eq present]
    have row := tile_lt accepted.tileI_pos legal.dimI hi hr
    have col := tile_lt accepted.tileK_pos legal.dimK hk hx
    refine ⟨fun written => ?_, ?_⟩
    · obtain ⟨i', hi', j', hj', same⟩ := tile_written legal accepted hi hj written
      exact sep.a _ row _ col i' hi' j' hj' same
    · simp only [withLoop, load, matA]
      rw [outer.wrote.kept _ (sep.a _ row _ col)]
      rfl
  · intro absent
    have reused : aReuse hw m t = true ∧ j0 ≥ 1 := by
      by_contra other
      have := legal.A
      simp only [withLoop, tileRegs, if_neg other] at absent
      split at absent <;> omega
    exact outer.heldA reused.1 k0 hk (Or.inl reused.2)
  · intro present x hx c hc
    rw [withLoop_loopWs, elemB_eq present]
    have row := tile_lt accepted.tileK_pos legal.dimK hk hx
    have col := tile_lt accepted.tileJ_pos legal.dimJ hj hc
    refine ⟨fun written => ?_, ?_⟩
    · obtain ⟨i', hi', j', hj', same⟩ := tile_written legal accepted hi hj written
      exact sep.b _ row _ col i' hi' j' hj' same
    · simp only [withLoop, load, matB]
      rw [outer.wrote.kept _ (sep.b _ row _ col)]
      rfl
  · intro absent
    have reused : bReuse hw m t = true ∧ i0 ≥ 1 := by
      by_contra other
      have := legal.B
      simp only [withLoop, tileRegs, if_neg other] at absent
      split at absent <;> omega
    exact outer.heldB reused.1 k0 hk j0 hj (Or.inl reused.2)
  · intro present r hr c hc
    have real : ¬(m.D = 0 ∨ k0 ≠ 0) := fun none => present (if_pos none)
    obtain ⟨hD, hk0⟩ := not_or.mp real
    have first : k0 = 0 := not_not.mp hk0
    have place : (tileRegs hw m t i0 j0 k0).D + (r * (tileRegs hw m t i0 j0 k0).strideD + c) * 4 =
        m.addrD (i0 * (t.tileI * hw.dim) + r) (j0 * (t.tileJ * hw.dim) + c) := by
      simp only [tileRegs, if_neg real, Args.addrD]
      split <;> ring
    have row := tile_lt accepted.tileI_pos legal.dimI hi hr
    have col := tile_lt accepted.tileJ_pos legal.dimJ hj hc
    simp only [withLoop, place]
    rw [Args.readAcc_congr fun byte hb => outer.wrote.kept _ (sep.d hD _ row _ col byte hb), first,
      Nat.zero_mul, partialSum_zero, Args.bias, if_neg hD]
  · intro absent keep i hi' j hj' r hr c hc
    have later : 0 < k0 := by
      refine Nat.pos_of_ne_zero fun first => ?_
      have hD : m.D ≠ 0 := by
        simp only [tileArgs, first, ne_eq, not_true_eq_false, or_false, decide_eq_true_eq] at keep
        exact keep
      simp only [withLoop, tileRegs, first, hD, ne_eq, not_true_eq_false, or_false, if_false] at absent
      omega
    exact outer.acc later hk i hi' j hj' r hr c hc
  · intro fresh r c
    simp only [tileArgs, decide_eq_false_iff_not, not_or, not_not] at fresh
    rw [fresh.2, Nat.zero_mul, partialSum_zero, Args.bias, if_pos fresh.1]

/-! ### Reuse of operands -/

omit hi hj hk in
theorem zoneA (i0 j0 k0 : ℕ) :
    let o := operandA hw (tileArgs hw m t i0 j0 k0) (tileRegs hw m t i0 j0 k0)
    o.start = (if (tileArgs hw m t i0 j0 k0).aSpadId = 2 then hw.bankNum * hw.bankRows / 2 else 0) ∧
      o.stop hw ≤ o.start + t.tileI * t.tileK * hw.dim := by
  refine ⟨rfl, Nat.add_le_add_left (Nat.mul_le_mul_right _ (Nat.mul_le_mul ?_ ?_)) _⟩
  · exact blocks_le hw _ accepted.tileI_pos legal.dimI
  · exact blocks_le hw _ accepted.tileK_pos legal.dimK

omit hi hj hk in
theorem zoneB (i0 j0 k0 : ℕ) :
    let o := operandB hw (tileArgs hw m t i0 j0 k0) (tileRegs hw m t i0 j0 k0)
    let stop := if (tileArgs hw m t i0 j0 k0).bSpadId = 2 then hw.bankNum * hw.bankRows
      else hw.bankNum * hw.bankRows / 2
    o.stop hw = stop ∧ stop ≤ o.start + t.tileK * t.tileJ * hw.dim := by
  have room := accepted.spad
  have size : blocks hw m.dimK t.tileK k0 * blocks hw m.dimJ t.tileJ j0 * hw.dim ≤
      t.tileK * t.tileJ * hw.dim := Nat.mul_le_mul_right _ (Nat.mul_le_mul
    (blocks_le hw _ accepted.tileK_pos legal.dimK) (blocks_le hw _ accepted.tileJ_pos legal.dimJ))
  have limit := hw.spad_le
  simp only [Operand.stop, operandB, LoopArgs.bStart, sub32, tileRegs]
  split <;> omega

omit legal accepted hi hj hk in
theorem first_or_second {x y i k i' k' : ℕ} (few : x * y ≤ 2) (hi : i < x) (hk : k < y) (hi' : i' < x)
    (hk' : k' < y) (other : ¬(i' = i ∧ k' = k)) :
    (if i' + k' = 0 then 1 else 2) ≠ 2 ∧ (if i + k = 0 then 1 else 2) = 2 ∨
      (if i' + k' = 0 then 1 else 2) = 2 ∧ (if i + k = 0 then 1 else 2) ≠ 2 := by
  have small : x ≤ 1 ∨ y ≤ 1 := by
    by_contra more
    have := Nat.mul_le_mul (show 2 ≤ x by omega) (show 2 ≤ y by omega)
    omega
  rcases small with one | one
  · obtain rfl : x = 1 := by omega
    split_ifs <;> omega
  · obtain rfl : y = 1 := by omega
    split_ifs <;> omega

omit legal accepted hj in
theorem aSpadId_apart (j0 : ℕ) {k' : ℕ} (reuse : aReuse hw m t = true) (hk' : k' < tiles hw m.dimK t.tileK)
    (other : k' ≠ k0) :
    (tileArgs hw m t i0 j0 k').aSpadId ≠ 2 ∧ (tileArgs hw m t i0 j0 k0).aSpadId = 2 ∨
      (tileArgs hw m t i0 j0 k').aSpadId = 2 ∧ (tileArgs hw m t i0 j0 k0).aSpadId ≠ 2 := by
  have few := of_decide_eq_true reuse
  simp only [tileArgs, reuse, if_true]
  exact first_or_second few hi hk hi hk' (by omega)

omit legal accepted hi in
theorem bSpadId_apart (i0 : ℕ) {j' k' : ℕ} (reuse : bReuse hw m t = true) (hj' : j' < tiles hw m.dimJ t.tileJ)
    (hk' : k' < tiles hw m.dimK t.tileK) (other : ¬(j' = j0 ∧ k' = k0)) :
    (tileArgs hw m t i0 j' k').bSpadId ≠ 2 ∧ (tileArgs hw m t i0 j0 k0).bSpadId = 2 ∨
      (tileArgs hw m t i0 j' k').bSpadId = 2 ∧ (tileArgs hw m t i0 j0 k0).bSpadId ≠ 2 := by
  have few := of_decide_eq_true reuse
  simp only [tileArgs, reuse, if_true]
  exact first_or_second few hj hk hj' hk' other

omit hj in
theorem keptA {k' row : ℕ} (reuse : aReuse hw m t = true) (hk' : k' < tiles hw m.dimK t.tileK)
    (other : k' ≠ k0)
    (low : (operandA hw (tileArgs hw m t i0 j0 k') (tileRegs hw m t i0 j0 k')).start ≤ row)
    (high : row < (operandA hw (tileArgs hw m t i0 j0 k') (tileRegs hw m t i0 j0 k')).stop hw) :
    ¬ Filled hw (tileArgs hw m t i0 j0 k0) (tileRegs hw m t i0 j0 k0) row := by
  have room := accepted.spad
  obtain ⟨start, stop⟩ := zoneA legal accepted i0 j0 k'
  obtain ⟨start', stop'⟩ := zoneA legal accepted i0 j0 k0
  obtain ⟨stopB, startB⟩ := zoneB legal accepted i0 j0 k0
  have ids := aSpadId_apart hi hk j0 reuse hk' other
  rintro (⟨-, low', high'⟩ | ⟨-, low', high'⟩)
  · rcases ids with ⟨one, two⟩ | ⟨one, two⟩ <;> simp only [one, two, if_true, if_false] at start start' <;>
      omega
  · rw [stopB] at high'
    split_ifs at high' startB start <;> omega

omit hi in
theorem keptB {j' k' row : ℕ} (reuse : bReuse hw m t = true) (hj' : j' < tiles hw m.dimJ t.tileJ)
    (hk' : k' < tiles hw m.dimK t.tileK) (other : ¬(j' = j0 ∧ k' = k0))
    (low : (operandB hw (tileArgs hw m t i0 j' k') (tileRegs hw m t i0 j' k')).start ≤ row)
    (high : row < (operandB hw (tileArgs hw m t i0 j' k') (tileRegs hw m t i0 j' k')).stop hw) :
    ¬ Filled hw (tileArgs hw m t i0 j0 k0) (tileRegs hw m t i0 j0 k0) row := by
  have room := accepted.spad
  obtain ⟨stop, start⟩ := zoneB legal accepted i0 j' k'
  obtain ⟨stop', start'⟩ := zoneB legal accepted i0 j0 k0
  obtain ⟨startA, stopA⟩ := zoneA legal accepted i0 j0 k0
  have ids := bSpadId_apart hj hk i0 reuse hj' hk' other
  rintro (⟨-, low', high'⟩ | ⟨-, low', high'⟩)
  · rw [stop] at high
    split_ifs at high start startA <;> omega
  · rcases ids with ⟨one, two⟩ | ⟨one, two⟩ <;>
      simp only [one, two, if_true, if_false] at stop start stop' start' <;> omega

end Step

end Gemmini.Matmul
