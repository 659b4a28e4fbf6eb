import Gemmini.Matmul.Tiling

/-!
# The tiled multiplication computes the product

Running `tiled_matmul_outer` on the functional model leaves main memory as `matmul_cpu` leaves it.
-/

namespace Gemmini.Matmul

open Simulator

variable {hw : Hw} {sc : Scaling} {m : Args} {t : Tiling} {s : State} {i0 j0 k0 : ℕ}

section Step

variable {s₀ : State} (legal : Legal m) (accepted : Accepted hw m t)
  (hi : i0 < tiles hw m.dimI t.tileI) (hj : j0 < tiles hw m.dimJ t.tileJ) (hk : k0 < tiles hw m.dimK t.tileK)

include legal accepted hi hj hk

/-! ### Sums over tiles of the depth -/

omit legal accepted hi hj hk in
theorem partialSum_add (n d r c : ℕ) : partialSum sc m s₀.dram n r c +
    ∑ x ∈ Finset.range d, term (matA sc m s₀.dram) (matB sc m s₀.dram) r c (n + x) =
      partialSum sc m s₀.dram (n + d) r c := by
  rw [partialSum, partialSum, add_assoc, Finset.sum_range_add]

omit hi hj hk in
theorem depth_next (next : k0 + 1 < tiles hw m.dimK t.tileK) :
    k0 * (t.tileK * hw.dim) + extent hw (blocks hw m.dimK t.tileK k0) (padding hw m.dimK t.tileK k0)
      (blocks hw m.dimK t.tileK k0) = (k0 + 1) * (t.tileK * hw.dim) := by
  have here := tile_stop accepted.tileK_pos legal.dimK (show k0 < tiles hw m.dimK t.tileK by omega)
  have there := tile_stop accepted.tileK_pos legal.dimK next
  omega

omit hi hj hk in
theorem depth_last (final : k0 + 1 = tiles hw m.dimK t.tileK) :
    k0 * (t.tileK * hw.dim) + extent hw (blocks hw m.dimK t.tileK k0) (padding hw m.dimK t.tileK k0)
      (blocks hw m.dimK t.tileK k0) = m.dimK := by
  have here := tile_stop accepted.tileK_pos legal.dimK (show k0 < tiles hw m.dimK t.tileK by omega)
  have cover := tiles_cover hw accepted.tileK_pos legal.dimK
  rw [← final] at cover
  omega

/-! ### One tile -/

theorem Outer.wrote_step (outer : Outer hw sc m t s₀ i0 j0 k0 s) {dram : ℕ → BitVec 8}
    (inv : DramInv hw sc (withLoop s (tileRegs hw m t i0 j0 k0))
      (fun r x => matA sc m s₀.dram (i0 * (t.tileI * hw.dim) + r) (k0 * (t.tileK * hw.dim) + x))
      (fun x c => matB sc m s₀.dram (k0 * (t.tileK * hw.dim) + x) (j0 * (t.tileJ * hw.dim) + c))
      (fun r c => partialSum sc m s₀.dram (k0 * (t.tileK * hw.dim)) (i0 * (t.tileI * hw.dim) + r)
        (j0 * (t.tileJ * hw.dim) + c)) (tileRegs hw m t i0 j0 k0).K 0 0 dram) :
    m.Wrote (fun r c => (configured hw m s₀).storedElem sc (partialSum sc m s₀.dram m.dimK r c))
      (fun r c => r / (t.tileI * hw.dim) < i0 ∨ r / (t.tileI * hw.dim) = i0 ∧
        (c / (t.tileJ * hw.dim) < j0 ∨ c / (t.tileJ * hw.dim) = j0 ∧ tiles hw m.dimK t.tileK ≤ k0 + 1))
      s₀.dram dram := by
  refine ⟨fun r hr c hc done => ?_, fun addr other => ?_⟩
  · by_cases here : r / (t.tileI * hw.dim) = i0 ∧ c / (t.tileJ * hw.dim) = j0 ∧
        tiles hw m.dimK t.tileK = k0 + 1
    · obtain ⟨tileR, tileC, final⟩ := here
      have present : (tileRegs hw m t i0 j0 k0).C ≠ 0 := by
        have := legal.C
        simp only [tileRegs, if_pos (show k0 = tiles hw m.dimK t.tileK - 1 by omega)]
        omega
      obtain ⟨r', hr', rfl⟩ := in_tile accepted.tileI_pos legal.dimI hi hr tileR
      obtain ⟨c', hc', rfl⟩ := in_tile accepted.tileJ_pos legal.dimJ hj hc tileC
      obtain ⟨blockR, sideR, splitR⟩ := flat_split hr'
      obtain ⟨blockC, sideC, splitC⟩ := flat_split hc'
      have stored := inv.stored present _ blockR _ blockC (added_start _ _ _).ge
        _ sideR _ sideC
      rw [← splitR, ← splitC, withLoop_loopWs, elemC_eq present] at stored
      rw [stored, result, State.storedElem_congr (outer.settings _)]
      simp only [withLoop_loopWs]
      rw [← depth_last legal accepted final.symm, ← partialSum_add]
      rfl
    · have same : dram (m.addrC r c) = s.dram (m.addrC r c) := by
        apply inv.kept
        rintro ⟨present, r', hr', c', hc', place⟩
        apply here
        rw [withLoop_loopWs, elemC_eq present] at place
        have col := tile_lt accepted.tileJ_pos legal.dimJ hj hc'
        obtain ⟨rfl, rfl⟩ := Args.addrC_inj legal.separate hc col place
        refine ⟨tile_of accepted.tileI_pos legal.dimI hi hr', tile_of accepted.tileJ_pos legal.dimJ hj hc', ?_⟩
        have final : k0 = tiles hw m.dimK t.tileK - 1 := by
          by_contra other
          exact present (if_neg other)
        omega
      rw [same]
      exact outer.wrote.elems r hr c hc (by omega)
  · rw [inv.kept addr fun written => ?_]
    · exact outer.wrote.kept addr other
    · obtain ⟨i', hi', j', hj', same⟩ := tile_written legal accepted hi hj written
      exact other i' hi' j' hj' same

theorem Outer.step (outer : Outer hw sc m t s₀ i0 j0 k0 s) :
    Outer hw sc m t s₀ i0 j0 (k0 + 1)
      (s.run hw sc (loopWsInstrs (tileRegs hw m t i0 j0 k0) (tileArgs hw m t i0 j0 k0))) := by
  have call : Call hw (withLoop s (tileRegs hw m t i0 j0 k0)) (tileArgs hw m t i0 j0 k0) :=
    (tile_call (s := s₀) legal accepted hj).of_settings (outer.settings _)
  have inv := loopWsRun_inv call (outer.sources legal accepted hi hj hk)
  have leI := blocks_le hw i0 accepted.tileI_pos legal.dimI
  have leJ := blocks_le hw j0 accepted.tileJ_pos legal.dimJ
  have leK := blocks_le hw k0 accepted.tileK_pos legal.dimK
  have bitsI := accepted.tileI_bits
  have bitsJ := accepted.tileJ_bits
  have bitsK := accepted.tileK_bits
  have bits := hw.dim_lt
  have act : m.act.toNat < 8 := by rcases legal.act with h | h <;> rw [h] <;> decide
  have ids : (tileArgs hw m t i0 j0 k0).aSpadId < 4 ∧ (tileArgs hw m t i0 j0 k0).bSpadId < 4 := by
    simp only [tileArgs]
    split_ifs <;> decide
  rw [run_loopWsInstrs (l := tileRegs hw m t i0 j0 k0) (leI.trans_lt (by omega)) (leJ.trans_lt (by omega))
    (leK.trans_lt (by omega)) (call.padI.trans bits) (call.padJ.trans bits)
    (call.padK.trans bits) act ids.1 ids.2]
  generalize (withLoop s (tileRegs hw m t i0 j0 k0)).loopWsRun hw sc (tileArgs hw m t i0 j0 k0) = s' at inv ⊢
  refine ⟨fun l => ?_, fun reuse k' hk' before i hi' k hk'' => ?_, fun reuse k' hk' j' hj' before k hk'' j hj'' => ?_,
    fun _ next i hi' j hj' r hr c hc => ?_, outer.wrote_step legal accepted hi hj hk inv.dram⟩
  · rw [← outer.settings l]
    exact congrArg (fun σ : Settings => { σ with loopWs := l }) inv.settings
  · by_cases this : k' = k0
    · subst this
      exact inv.spad.inA i hi' k hk'' (Or.inr (Or.inl hk''))
    · refine (outer.heldA reuse k' hk' (by omega) i hi' k hk'').kept fun r hr c => inv.spad.kept _ c ?_
      have room := Operand.addr_room hw (o := operandA hw (tileArgs hw m t i0 j0 k') (tileRegs hw m t i0 j0 k'))
        hi' hk''
      exact keptA legal accepted hi hk reuse hk' this (by omega) (by omega)
  · by_cases this : j' = j0 ∧ k' = k0
    · obtain ⟨rfl, rfl⟩ := this
      exact inv.spad.inB k hk'' j hj'' (Or.inr (Or.inl hk''))
    · refine (outer.heldB reuse k' hk' j' hj' (by omega) k hk'' j hj'').kept fun r hr c => inv.spad.kept _ c ?_
      have room := Operand.addr_room hw (o := operandB hw (tileArgs hw m t i0 j' k') (tileRegs hw m t i0 j' k'))
        hk'' hj''
      exact keptB legal accepted hj hk reuse hj' hk' this (by omega) (by omega)
  · have sum := inv.acc i hi' j hj' (Or.inr (by rw [added_start]; exact call.posK)) r hr c hc
    rw [added_start] at sum
    rw [← depth_next legal accepted next, ← partialSum_add]
    exact sum

end Step

/-! ### The whole multiplication -/

theorem run_range (n : ℕ) (f : ℕ → List Instr) (s : State) :
    s.run hw sc ((List.range n).flatMap f) = forRange n (fun i s => s.run hw sc (f i)) s := by
  induction n with
  | zero => rfl
  | succ n ih => rw [List.range_succ, List.flatMap_append, run_append, ih, List.flatMap_singleton, forRange_succ]

section Run

variable {s₀ : State}

theorem Outer.start (legal : Legal m) (accepted : Accepted hw m t) :
    Outer hw sc m t s₀ 0 0 0 (configured hw m s₀) := by
  have depth := tiles_pos hw accepted.tileK_pos legal.dimK
  refine ⟨fun l => rfl, fun _ k' _ before => by omega, fun _ k' _ j' _ before => by omega,
    fun h => by omega, fun r _ c _ done => ?_, fun addr _ => rfl⟩
  generalize r / (t.tileI * hw.dim) = x at done
  generalize c / (t.tileJ * hw.dim) = y at done
  omega

theorem Outer.column (outer : Outer hw sc m t s₀ i0 j0 (tiles hw m.dimK t.tileK) s)
    (depth : 0 < tiles hw m.dimK t.tileK) : Outer hw sc m t s₀ i0 (j0 + 1) 0 s := by
  refine ⟨outer.settings, fun reuse k' hk' _ i hi k hk => ?_, fun reuse k' hk' j' hj' before k hk j hj => ?_,
    fun h => by omega, outer.wrote.weaken fun r hr c hc done => ?_⟩
  · exact (outer.heldA reuse k' hk' (Or.inr hk') i hi k hk).moved rfl
  · exact outer.heldB reuse k' hk' j' hj' (by omega) k hk j hj
  · generalize r / (t.tileI * hw.dim) = x at done ⊢
    generalize c / (t.tileJ * hw.dim) = y at done ⊢
    omega

theorem Outer.row (outer : Outer hw sc m t s₀ i0 (tiles hw m.dimJ t.tileJ) 0 s)
    (depth : 0 < tiles hw m.dimK t.tileK) (legal : Legal m) (accepted : Accepted hw m t) :
    Outer hw sc m t s₀ (i0 + 1) 0 0 s := by
  refine ⟨outer.settings, fun reuse k' hk' before => by omega, fun reuse k' hk' j' hj' before k hk j hj => ?_,
    fun h => by omega, outer.wrote.weaken fun r hr c hc done => ?_⟩
  · exact (outer.heldB reuse k' hk' j' hj' (by omega) k hk j hj).moved rfl
  · have span : 0 < t.tileJ * hw.dim := Nat.mul_pos accepted.tileJ_pos hw.dim_pos
    have inside : c / (t.tileJ * hw.dim) < tiles hw m.dimJ t.tileJ := by
      rw [Nat.div_lt_iff_lt_mul span]
      exact hc.trans_le (tiles_cover hw accepted.tileJ_pos legal.dimJ)
    generalize r / (t.tileI * hw.dim) = x at done ⊢
    generalize c / (t.tileJ * hw.dim) = y at done inside ⊢
    omega

theorem Outer.run (legal : Legal m) (accepted : Accepted hw m t) (c : Consts) :
    Outer hw sc m t s₀ (tiles hw m.dimI t.tileI) 0 0 (s₀.run hw sc (tiledMatmulOuter hw m t c)) := by
  rw [tiledMatmulOuter, run_append, run_configInstrs legal.act accepted.transposes legal.strideC]
  simp only [run_range]
  have depth := tiles_pos hw accepted.tileK_pos legal.dimK
  refine forRange_inv (fun i0 s => Outer hw sc m t s₀ i0 0 0 s) (Outer.start legal accepted)
    fun i0 hi s atRow => Outer.row ?_ depth legal accepted
  refine forRange_inv (fun j0 s => Outer hw sc m t s₀ i0 j0 0 s) atRow
    fun j0 hj s atCol => Outer.column ?_ depth
  exact forRange_inv (fun k0 s => Outer hw sc m t s₀ i0 j0 k0 s) atCol fun k0 hk s before =>
    before.step legal accepted hi hj hk

end Run

theorem partialSum_eq (sc : Scaling) (m : Args) (dram : ℕ → BitVec 8) (r c : ℕ) :
    partialSum sc m dram m.dimK r c = m.sum sc dram r c := by
  have scaled : ∀ x y, State.mvinScale sc x y = sc.mvinScale x y := fun x y => saturate_signExtend _
  rw [Args.sum, forRange_add, partialSum]
  simp only [term, matA, matB, scaled]

theorem configured_storedElem (legal : Legal m) (ig : Igelu) (v : BitVec 32) :
    (configured hw m s).storedElem sc v = if m.act = .none ∧ s.accAct = .softmax then
      { s with accShift := m.scale }.storedElem sc v else scaleAndSat sc ig v m.act m.scale := by
  rcases legal.act with act | act
  · by_cases pending : s.accAct = .softmax
    · rw [if_pos ⟨act, pending⟩]
      have chosen : s.selectAct m.act.toNat = .softmax := by
        rw [act]
        exact if_pos pending
      simp only [State.storedElem, State.applyPreActivationAcc, configured, chosen, pending]
    · have chosen : s.selectAct m.act.toNat = .none := by
        rw [act]
        exact if_neg pending
      rw [if_neg fun h => pending h.2, act]
      simp only [State.storedElem, State.applyPreActivationAcc, configured, chosen, State.applyActivation,
        scaleAndSat, State.accScale, reduceCtorEq, if_false]
  · have chosen : s.selectAct m.act.toNat = .relu := by
      rw [act]
      rfl
    rw [if_neg (by rw [act]; exact fun h => absurd h.1 (by decide)), act]
    simp only [State.storedElem, State.applyPreActivationAcc, configured, chosen, State.applyActivation,
      scaleAndSat, State.accScale, reduceCtorEq, if_false, if_true]
    generalize saturate (sc.accScale v m.scale) = y
    rcases lt_trichotomy y.toInt 0 with h | h | h
    · rw [if_neg (by omega), if_pos h]
    · rw [if_neg (by omega), if_neg (by omega)]
      exact (BitVec.toInt_inj.mp (h.trans BitVec.toInt_zero.symm)).symm
    · rw [if_pos h, if_neg (by omega)]

/-- What a run through every tile leaves in main memory is what `matmul_cpu` leaves there, except where
a softmax from before matters. -/
theorem Outer.memory_iff (ig : Igelu) (legal : Legal m) (accepted : Accepted hw m t) (ok : s.ok = true)
    (outer : Outer hw sc m t s (tiles hw m.dimI t.tileI) 0 0 s') :
    (s'.ok = true ∧ m.matmulCpu sc ig s.dram = some s'.dram) ↔
      (m.act = .none → s.accAct = .softmax → ∀ i < m.dimI, ∀ j < m.dimJ,
        { s with accShift := m.scale }.storedElem sc (m.sum sc s.dram i j) = m.output sc ig s.dram i j) := by
  have running : s'.ok = true := (congrArg Settings.ok (outer.settings s.loopWs)).trans ok
  have wrote : m.Wrote (fun r c => (configured hw m s).storedElem sc (m.sum sc s.dram r c))
      (fun _ _ => True) s.dram s'.dram := by
    refine ⟨fun r hr c hc _ => ?_, outer.wrote.kept⟩
    rw [outer.wrote.elems r hr c hc (Or.inl ?_), partialSum_eq]
    rw [Nat.div_lt_iff_lt_mul (Nat.mul_pos accepted.tileI_pos hw.dim_pos)]
    exact hr.trans_le (tiles_cover hw accepted.tileI_pos legal.dimI)
  have notNormalized : m.act ≠ .layernorm ∧ m.act ≠ .softmax := by
    rcases legal.act with h | h <;> rw [h] <;> decide
  obtain ⟨dram, cpu, reference⟩ : ∃ dram, m.matmulCpu sc ig s.dram = some dram ∧
      m.Wrote (m.output sc ig s.dram) (fun _ _ => True) s.dram dram :=
    Args.matmulCpu_wrote legal.separate notNormalized
  rw [cpu, Option.some.injEq]
  constructor
  · rintro ⟨-, rfl⟩ act pending i hi j hj
    rw [← reference.elems i hi j hj trivial, wrote.elems i hi j hj trivial, configured_storedElem legal ig,
      if_pos ⟨act, pending⟩]
  · intro harmless
    refine ⟨running, reference.unique (Args.Wrote.mk (fun i hi j hj _ => ?_) wrote.kept)⟩
    rw [wrote.elems i hi j hj trivial, configured_storedElem legal ig]
    split
    · next h => exact harmless h.1 h.2 i hi j hj
    · rfl

/-- The tiled multiplication on the accelerator leaves main memory as `matmul_cpu` does, unless it is
without an activation and a softmax is still configured from before, one that matters for some
element: `config_st` does not clear it. -/
theorem tiledMatmulOuter_eq_matmulCpu (hw : Hw) (sc : Scaling) (ig : Igelu) (c : Consts) (m : Args)
    (t : Tiling) (s : State) (legal : Legal m) (accepted : Accepted hw m t) (ok : s.ok = true) :
    ((s.run hw sc (tiledMatmulOuter hw m t c)).ok = true ∧
        m.matmulCpu sc ig s.dram = some (s.run hw sc (tiledMatmulOuter hw m t c)).dram) ↔
      (m.act = .none → s.accAct = .softmax → ∀ i < m.dimI, ∀ j < m.dimJ,
        { s with accShift := m.scale }.storedElem sc (m.sum sc s.dram i j) = m.output sc ig s.dram i j) :=
  Outer.memory_iff ig legal accepted ok (Outer.run legal accepted c)

/-! ### A softmax that stays configured -/

/-- The scale `0` is the identity, and any other stands for `127.0` over its sum. -/
def quotients : Scaling :=
  { unscaled with accScale := fun x b => if b = 0 then x
      else BitVec.ofInt 32 ((2 * 127 * x.toInt + b.toInt) / (2 * b.toInt)) }

def product (dimI dimJ dimK : ℕ) (act : Activation) : Args where
  dimI := dimI
  dimJ := dimJ
  dimK := dimK
  A := 16
  B := 32
  D := 0
  C := 2 ^ 18
  strideA := 512
  strideB := 512
  strideD := 512
  strideC := 512
  aScale := 0
  bScale := 0
  dScale := 0
  act := act
  scale := 0
  repeatingBias := false
  transposeA := false
  transposeB := false

theorem product_legal {dimI dimJ dimK : ℕ} (pos : 0 < dimI ∧ 0 < dimJ ∧ 0 < dimK)
    (small : dimI ≤ 300 ∧ dimJ ≤ 300 ∧ dimK ≤ 300) : Legal (product dimI dimJ dimK .none) := by
  obtain ⟨posI, posJ, posK⟩ := pos
  refine ⟨posI, posJ, posK, nofun, nofun, nofun, by simp [product], .inl rfl, ?_, ?_, ?_, ?_⟩
  · show dimJ ≤ 512
    omega
  · intro i hi k hk i' hi' j' hj'
    simp only [product, Args.addrA, Args.addrC, Bool.false_eq_true, if_false, mul_one] at *
    omega
  · intro k hk j hj i' hi' j' hj'
    simp only [product, Args.addrB, Args.addrC, Bool.false_eq_true, if_false, mul_one] at *
    omega
  · exact fun bias => absurd rfl bias

/-- The constants for a `bert_scale` of `0.05`. -/
def bertConsts : Consts := ⟨0, 27, 383, 13, 5041⟩

theorem oneByOne_accepted : Accepted gemminiParams (product 1 1 1 .none) ⟨1, 1, 1⟩ := by
  constructor <;> decide

/-- After a multiplication with softmax, the accelerator stores `127` for the product of `2` and `1`. -/
theorem softmax_stays_configured :
    let s := fresh.run gemminiParams quotients
      (tiledMatmulOuter gemminiParams (product 1 1 1 .softmax) ⟨1, 1, 1⟩ bertConsts)
    Legal (product 1 1 1 .none) ∧ Accepted gemminiParams (product 1 1 1 .none) ⟨1, 1, 1⟩ ∧ s.ok = true ∧
      (s.run gemminiParams quotients
        (tiledMatmulOuter gemminiParams (product 1 1 1 .none) ⟨1, 1, 1⟩ bertConsts)).dram (2 ^ 18) = 127 ∧
      ((product 1 1 1 .none).matmulCpu quotients ⟨0, 0, 0⟩ s.dram).map (fun dram => dram (2 ^ 18)) = some 2 := by
  refine ⟨product_legal (by decide) (by decide), oneByOne_accepted, ?_, ?_, ?_⟩
  · decide
  · decide +kernel
  · decide

/-- Two by three by three blocks, none of them full at the edge, in six tiles that share A. -/
theorem ragged_multiplied :
    let m := product 20 40 33 .none
    aReuse gemminiParams m ⟨2, 1, 2⟩ = true ∧ tiles gemminiParams m.dimJ 1 * tiles gemminiParams m.dimK 2 = 6 ∧
      (fresh.run gemminiParams unscaled (tiledMatmulOuter gemminiParams m ⟨2, 1, 2⟩ bertConsts)).ok = true ∧
      m.matmulCpu unscaled ⟨0, 0, 0⟩ fresh.dram =
        some (fresh.run gemminiParams unscaled (tiledMatmulOuter gemminiParams m ⟨2, 1, 2⟩ bertConsts)).dram := by
  have accepted : Accepted gemminiParams (product 20 40 33 .none) ⟨2, 1, 2⟩ := by
    constructor <;> decide
  exact ⟨by decide, by decide,
    (tiledMatmulOuter_eq_matmulCpu _ _ ⟨0, 0, 0⟩ bertConsts _ _ fresh
      (product_legal (by decide) (by decide)) accepted rfl).mpr fun _ pending => absurd pending (by decide)⟩

end Gemmini.Matmul
