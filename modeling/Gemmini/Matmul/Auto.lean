import Gemmini.Matmul.Correct
import Gemmini.Matmul.TileSearch

/-!
# `tiled_matmul_auto` on the functional model

The search for the tiles, and the multiplication with the tiles that it finds.
-/

namespace Gemmini.Matmul

open Simulator (Hw State Scaling gemminiParams fresh unscaled)

def problemOf (m : Args) : Problem := ⟨m.dimI, m.dimJ, m.dimK, m.act, .ws⟩

/-- For every legal multiplication the search ends, and the accelerator leaves with its tiles what
`matmul_cpu` leaves, unless a softmax stays configured. -/
theorem tiledMatmulAuto_eq_matmulCpu {hw : Hw} {m : Args} (sc : Scaling) (ig : Igelu) (c : Consts) {s : State}
    (legal : Legal m) (transposes : ¬(m.transposeA = true ∧ m.transposeB = true))
    (acc : hw.dim ≤ hw.accRows / 2)
    (deep : maxTileIJ (sizesOf hw) (problemOf m) ≤ matsInPartition (sizesOf hw) (problemOf m))
    (blocks : hw.bankNum * hw.bankRows / hw.dim ≤ 65535) (ok : s.ok = true)
    (clear : m.act = .relu ∨ s.accAct ≠ .softmax) :
    ∃ t, (∃ n, ∀ fuel > n, tiledMatmulAuto (sizesOf hw) (problemOf m) fuel = some t) ∧
      (s.run hw sc (tiledMatmulOuter hw m t c)).ok = true ∧
      m.matmulCpu sc ig s.dram = some (s.run hw sc (tiledMatmulOuter hw m t c)).dram := by
  have plain : m.act ≠ .layernorm ∧ m.act ≠ .softmax := by
    rcases legal.act with h | h <;> rw [h] <;> decide
  obtain ⟨t, ends, fit, -⟩ := search_ends (firstTiling_fit (by tauto) legal.dimI legal.dimJ legal.dimK acc deep)
  have accepted : Accepted hw m t := (fit.sizesPass blocks).accepted transposes
  refine ⟨t, ends, (Outer.memory_iff ig legal accepted ok (Outer.run legal accepted c)).mpr fun none pending => ?_⟩
  rcases clear with relu | clear
  · exact absurd (relu.symm.trans none) (by decide)
  · exact absurd pending clear

/-- More blocks than the accumulator holds at once, so that the search gives several tiles. -/
theorem product_tiled :
    let m := product 100 200 300 .none
    gemminiParams.accRows / 2 < padded gemminiParams m.dimI / 16 * padded gemminiParams m.dimJ ∧ ∃ t,
      (∃ n, ∀ fuel > n, tiledMatmulAuto (sizesOf gemminiParams) (problemOf m) fuel = some t) ∧
      (fresh.run gemminiParams unscaled (tiledMatmulOuter gemminiParams m t bertConsts)).ok = true ∧
      m.matmulCpu unscaled ⟨0, 0, 0⟩ fresh.dram =
        some (fresh.run gemminiParams unscaled (tiledMatmulOuter gemminiParams m t bertConsts)).dram :=
  ⟨by decide, tiledMatmulAuto_eq_matmulCpu _ _ _ (product_legal (by decide) (by decide)) (by decide)
    (by decide) ((Nat.sqrt_le_self _).trans (by decide)) (by decide) rfl (.inr (by decide))⟩

end Gemmini.Matmul
