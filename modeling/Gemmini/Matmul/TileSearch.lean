import Gemmini.Matmul.Program

/-!
# The tile search of `tiled_matmul_auto`

`gemmini.h`: the tiles start from a guess, a square of blocks of the accumulator and as much depth as
the scratchpad has for it, and then grow in one dimension after the other until nothing fits any more.
The square root is taken exactly; sizes are those of matrices in memory, so nothing wraps.
-/

namespace Gemmini.Matmul

open Simulator (Hw Mode Activation)

/-- `DIM`, `BANK_NUM`, `BANK_ROWS` and `ACC_ROWS`. -/
structure Sizes where
  dim : ℕ
  bankNum : ℕ
  bankRows : ℕ
  accRows : ℕ
  dim_pos : 0 < dim

/-- The arguments of `tiled_matmul_auto` that the search reads. -/
structure Problem where
  dimI : ℕ
  dimJ : ℕ
  dimK : ℕ
  act : Activation
  /-- `tiled_matmul_type`, with `double_buffered` for the weight-stationary dataflow. -/
  mode : Mode

section Search

variable (z : Sizes) (q : Problem)

def Sizes.padded (n : ℕ) : ℕ := (n / z.dim + if n % z.dim ≠ 0 then 1 else 0) * z.dim

/-- `tiled_matmul_total_spad_rows`. -/
def Sizes.totalSpadRows (I J K : ℕ) : ℕ := (I * K + K * J) * z.dim

/-- `tiled_matmul_total_acc_rows`. -/
def Sizes.totalAccRows (I J : ℕ) : ℕ := I * J * z.dim

def maxSpadRows : ℕ :=
  if q.mode = .ws then z.bankNum * z.bankRows / 2 else z.bankNum * z.bankRows

def maxAccRows : ℕ := if q.mode = .ws then z.accRows / 2 else z.accRows

/-- `db_mats_in_partition` or `mats_in_partition`. -/
def matsInPartition : ℕ :=
  if q.mode = .ws then z.bankNum * z.bankRows / 2 / 2 / z.dim else z.bankNum * z.bankRows / 2 / z.dim

/-- `db_mats_in_acc` or `mats_in_acc`. -/
def matsInAcc : ℕ := if q.mode = .ws then z.accRows / 2 / z.dim else z.accRows / z.dim

/-- `db_max_tile_i_j` or `max_tile_i_j`. -/
def maxTileIJ : ℕ := Nat.sqrt (matsInAcc z q)

/-- `db_max_tile_k` or `max_tile_k`. -/
def maxTileK : ℕ := matsInPartition z q / maxTileIJ z q

def firstTiling : Tiling :=
  if q.act = .layernorm ∨ q.act = .softmax then ⟨1, z.padded q.dimJ / z.dim, 1⟩
  else
    ⟨if z.padded q.dimI / z.dim < maxTileIJ z q then z.padded q.dimI / z.dim else maxTileIJ z q,
      if z.padded q.dimJ / z.dim < maxTileIJ z q then z.padded q.dimJ / z.dim else maxTileIJ z q,
      if z.padded q.dimK / z.dim < maxTileK z q then z.padded q.dimK / z.dim else maxTileK z q⟩

def RoomJ (t : Tiling) : Prop :=
  z.totalSpadRows t.tileI (t.tileJ + 1) t.tileK ≤ maxSpadRows z q ∧
    z.totalAccRows t.tileI (t.tileJ + 1) ≤ maxAccRows z q ∧ (t.tileJ + 1) * z.dim ≤ z.padded q.dimJ

def RoomI (t : Tiling) : Prop :=
  z.totalSpadRows (t.tileI + 1) t.tileJ t.tileK ≤ maxSpadRows z q ∧
    z.totalAccRows (t.tileI + 1) t.tileJ ≤ maxAccRows z q ∧ (t.tileI + 1) * z.dim ≤ z.padded q.dimI

def RoomK (t : Tiling) : Prop :=
  z.totalSpadRows t.tileI t.tileJ (t.tileK + 1) ≤ maxSpadRows z q ∧
    (t.tileK + 1) * z.dim ≤ z.padded q.dimK

instance (t : Tiling) : Decidable (RoomJ z q t) := by
  unfold RoomJ
  infer_instance

instance (t : Tiling) : Decidable (RoomI z q t) := by
  unfold RoomI
  infer_instance

instance (t : Tiling) : Decidable (RoomK z q t) := by
  unfold RoomK
  infer_instance

/-- The body of the loop, with `increased`. -/
def growRound (t : Tiling) : Tiling × Bool :=
  let x := if RoomJ z q t then ({ t with tileJ := t.tileJ + 1 }, true) else (t, false)
  let x := if RoomI z q x.1 then ({ x.1 with tileI := x.1.tileI + 1 }, true) else x
  if RoomK z q x.1 then ({ x.1 with tileK := x.1.tileK + 1 }, true) else x

/-- `while (true)`, left when nothing was increased. -/
def tiledMatmulAuto (fuel : ℕ) : Option Tiling :=
  whileSome (fun t => if (growRound z q t).2 then some (growRound z q t).1 else none) fuel
    (firstTiling z q)

/-- What `tiled_matmul` checks of the tiles. -/
structure SizesPass (t : Tiling) : Prop where
  tileI_pos : 0 < t.tileI
  tileJ_pos : 0 < t.tileJ
  tileK_pos : 0 < t.tileK
  tileI_le : t.tileI * z.dim ≤ z.padded q.dimI
  tileJ_le : t.tileJ * z.dim ≤ z.padded q.dimJ
  tileK_le : t.tileK * z.dim ≤ z.padded q.dimK
  spad : t.tileI * t.tileK * z.dim + t.tileK * t.tileJ * z.dim ≤ maxSpadRows z q
  acc : t.tileI * t.tileJ * z.dim ≤ maxAccRows z q
  tileI_bits : t.tileI ≤ 65535
  tileJ_bits : t.tileJ ≤ 65535
  tileK_bits : t.tileK ≤ 65535

end Search

variable {z : Sizes} {q : Problem} {t : Tiling}

/-! ### The loop -/

structure TilesFit (z : Sizes) (q : Problem) (t : Tiling) : Prop where
  pos : 0 < t.tileI ∧ 0 < t.tileJ ∧ 0 < t.tileK
  dimI : t.tileI * z.dim ≤ z.padded q.dimI
  dimJ : t.tileJ * z.dim ≤ z.padded q.dimJ
  dimK : t.tileK * z.dim ≤ z.padded q.dimK
  spad : z.totalSpadRows t.tileI t.tileJ t.tileK ≤ maxSpadRows z q
  acc : z.totalAccRows t.tileI t.tileJ ≤ maxAccRows z q

namespace TilesFit

theorem growJ (fit : TilesFit z q t) (room : RoomJ z q t) :
    TilesFit z q { t with tileJ := t.tileJ + 1 } :=
  ⟨⟨fit.pos.1, Nat.succ_pos _, fit.pos.2.2⟩, fit.dimI, room.2.2, fit.dimK, room.1, room.2.1⟩

theorem growI (fit : TilesFit z q t) (room : RoomI z q t) :
    TilesFit z q { t with tileI := t.tileI + 1 } :=
  ⟨⟨Nat.succ_pos _, fit.pos.2⟩, room.2.2, fit.dimJ, fit.dimK, room.1, room.2.1⟩

theorem growK (fit : TilesFit z q t) (room : RoomK z q t) :
    TilesFit z q { t with tileK := t.tileK + 1 } :=
  ⟨⟨fit.pos.1, fit.pos.2.1, Nat.succ_pos _⟩, fit.dimI, fit.dimJ, room.2, room.1, fit.acc⟩

end TilesFit

def Tiling.total (t : Tiling) : ℕ := t.tileI + t.tileJ + t.tileK

/-- After some of the three steps of a round the tiles fit, and have grown or were `blocked`. -/
structure Tried (z : Sizes) (q : Problem) (t : Tiling) (blocked : Prop) (x : Tiling × Bool) : Prop where
  fit : TilesFit z q x.1
  grown : x.2 = true → t.total < x.1.total
  same : x.2 = false → x.1 = t ∧ blocked

theorem Tried.step {blocked : Prop} {x : Tiling × Bool} (tried : Tried z q t blocked x)
    (room : Tiling → Prop) [DecidablePred room] (bigger : Tiling → Tiling)
    (fits : ∀ y, TilesFit z q y → room y → TilesFit z q (bigger y))
    (more : ∀ y : Tiling, y.total < (bigger y).total) :
    Tried z q t (blocked ∧ ¬room t) (if room x.1 then (bigger x.1, true) else x) := by
  split_ifs with now
  · refine ⟨fits _ tried.fit now, fun _ => ?_, (nomatch ·)⟩
    have larger := more x.1
    cases grew : x.2 with
    | true => exact (tried.grown grew).trans larger
    | false => rwa [(tried.same grew).1] at larger ⊢
  · refine ⟨tried.fit, tried.grown, fun unchanged => ?_⟩
    obtain ⟨same, before⟩ := tried.same unchanged
    exact ⟨same, before, same ▸ now⟩

theorem growRound_tried (fit : TilesFit z q t) :
    Tried z q t (((True ∧ ¬RoomJ z q t) ∧ ¬RoomI z q t) ∧ ¬RoomK z q t) (growRound z q t) := by
  have start : Tried z q t True (t, false) := ⟨fit, (nomatch ·), fun _ => ⟨rfl, trivial⟩⟩
  have afterJ := start.step (RoomJ z q) (fun y => { y with tileJ := y.tileJ + 1 })
    (fun y => TilesFit.growJ) (fun y => by simp only [Tiling.total]; omega)
  have afterI := afterJ.step (RoomI z q) (fun y => { y with tileI := y.tileI + 1 })
    (fun y => TilesFit.growI) (fun y => by simp only [Tiling.total]; omega)
  exact afterI.step (RoomK z q) (fun y => { y with tileK := y.tileK + 1 })
    (fun y => TilesFit.growK) (fun y => by simp only [Tiling.total]; omega)

theorem TilesFit.total_le (fit : TilesFit z q t) :
    t.total ≤ z.padded q.dimI + z.padded q.dimJ + z.padded q.dimK := by
  have boundI := (Nat.le_mul_of_pos_right t.tileI z.dim_pos).trans fit.dimI
  have boundJ := (Nat.le_mul_of_pos_right t.tileJ z.dim_pos).trans fit.dimJ
  have boundK := (Nat.le_mul_of_pos_right t.tileK z.dim_pos).trans fit.dimK
  unfold Tiling.total
  omega

/-! ### The guess -/

theorem Sizes.padded_div (z : Sizes) {n : ℕ} (pos : 0 < n) :
    0 < z.padded n / z.dim ∧ z.padded n / z.dim * z.dim = z.padded n := by
  have blocks : z.padded n / z.dim = n / z.dim + if n % z.dim ≠ 0 then 1 else 0 :=
    Nat.mul_div_cancel _ z.dim_pos
  refine ⟨?_, by rw [blocks]; rfl⟩
  rw [blocks]
  have split := Nat.div_add_mod n z.dim
  split_ifs with rest
  · exact Nat.succ_pos _
  · refine Nat.pos_of_ne_zero fun zero => ?_
    rw [Nat.add_zero] at zero
    rw [zero] at split
    omega

theorem maxTileIJ_spec (acc : z.dim ≤ z.accRows / 2) :
    0 < maxTileIJ z q ∧ maxTileIJ z q * maxTileIJ z q * z.dim ≤ maxAccRows z q := by
  have blocks : 0 < matsInAcc z q ∧ matsInAcc z q * z.dim ≤ maxAccRows z q := by
    unfold matsInAcc maxAccRows
    split_ifs
    · exact ⟨Nat.div_pos acc z.dim_pos, Nat.div_mul_le_self _ _⟩
    · exact ⟨Nat.div_pos (by omega) z.dim_pos, Nat.div_mul_le_self _ _⟩
  exact ⟨Nat.sqrt_pos.mpr blocks.1,
    (Nat.mul_le_mul_right _ (Nat.sqrt_le (matsInAcc z q))).trans blocks.2⟩

theorem maxTileK_spec : 2 * (maxTileIJ z q * maxTileK z q) * z.dim ≤ maxSpadRows z q := by
  have depth : maxTileIJ z q * maxTileK z q ≤ matsInPartition z q := Nat.mul_div_le _ _
  have halves : 2 * (matsInPartition z q * z.dim) ≤ maxSpadRows z q := by
    have whole := Nat.div_mul_le_self (z.bankNum * z.bankRows / 2) z.dim
    have half := Nat.div_mul_le_self (z.bankNum * z.bankRows / 2 / 2) z.dim
    unfold matsInPartition maxSpadRows
    split_ifs <;> omega
  calc 2 * (maxTileIJ z q * maxTileK z q) * z.dim
      ≤ 2 * matsInPartition z q * z.dim :=
        Nat.mul_le_mul_right _ (Nat.mul_le_mul_left 2 depth)
    _ = 2 * (matsInPartition z q * z.dim) := Nat.mul_assoc _ _ _
    _ ≤ maxSpadRows z q := halves

theorem firstTiling_fit (plain : ¬(q.act = .layernorm ∨ q.act = .softmax)) (dimI : 0 < q.dimI)
    (dimJ : 0 < q.dimJ) (dimK : 0 < q.dimK) (acc : z.dim ≤ z.accRows / 2)
    (deep : maxTileIJ z q ≤ matsInPartition z q) : TilesFit z q (firstTiling z q) := by
  obtain ⟨side_pos, square⟩ := maxTileIJ_spec (q := q) acc
  have depth_pos : 0 < maxTileK z q := Nat.div_pos deep side_pos
  obtain ⟨posI, wholeI⟩ := z.padded_div dimI
  obtain ⟨posJ, wholeJ⟩ := z.padded_div dimJ
  obtain ⟨posK, wholeK⟩ := z.padded_div dimK
  -- each factor is the smaller of the blocks that there are and of the guess
  have small : ∀ {n side : ℕ}, 0 < n → 0 < side →
      0 < (if n < side then n else side) ∧ (if n < side then n else side) ≤ n ∧
        (if n < side then n else side) ≤ side := by
    intro n side _ _
    split_ifs <;> omega
  obtain ⟨I_pos, I_le, I_side⟩ := small posI side_pos
  obtain ⟨J_pos, J_le, J_side⟩ := small posJ side_pos
  obtain ⟨K_pos, K_le, K_side⟩ := small posK depth_pos
  rw [firstTiling, if_neg plain]
  refine ⟨⟨I_pos, J_pos, K_pos⟩, (Nat.mul_le_mul_right _ I_le).trans wholeI.le,
    (Nat.mul_le_mul_right _ J_le).trans wholeJ.le, (Nat.mul_le_mul_right _ K_le).trans wholeK.le, ?_, ?_⟩
  · refine le_trans (Nat.mul_le_mul_right _ ?_) maxTileK_spec
    have first := Nat.mul_le_mul I_side K_side
    have second := Nat.mul_le_mul K_side J_side
    rw [Nat.mul_comm (maxTileK z q)] at second
    exact (Nat.add_le_add first second).trans (Nat.two_mul _).ge
  · exact (Nat.mul_le_mul_right _ (Nat.mul_le_mul I_side J_side)).trans square

theorem TilesFit.sizesPass (fit : TilesFit z q t)
    (blocks : z.bankNum * z.bankRows / z.dim ≤ 65535) : SizesPass z q t := by
  obtain ⟨I_pos, J_pos, K_pos⟩ := fit.pos
  have all : t.tileI * t.tileK + t.tileK * t.tileJ ≤ 65535 := by
    refine le_trans ((Nat.le_div_iff_mul_le z.dim_pos).mpr (fit.spad.trans ?_)) blocks
    unfold maxSpadRows
    split_ifs <;> omega
  have lineI := Nat.le_mul_of_pos_right t.tileI K_pos
  have lineJ := Nat.le_mul_of_pos_left t.tileJ K_pos
  have lineK := Nat.le_mul_of_pos_right t.tileK J_pos
  refine ⟨I_pos, J_pos, K_pos, fit.dimI, fit.dimJ, fit.dimK, ?_, fit.acc, by omega, by omega, by omega⟩
  rw [← Nat.add_mul]
  exact fit.spad

theorem search_ends (start : TilesFit z q (firstTiling z q)) :
    ∃ t, (∃ n, ∀ fuel > n, tiledMatmulAuto z q fuel = some t) ∧ TilesFit z q t ∧
      ¬RoomI z q t ∧ ¬RoomJ z q t ∧ ¬RoomK z q t := by
  have step : ∀ t t', TilesFit z q t →
      (if (growRound z q t).2 then some (growRound z q t).1 else none) = some t' →
      TilesFit z q t' ∧ z.padded q.dimI + z.padded q.dimJ + z.padded q.dimK - t'.total <
        z.padded q.dimI + z.padded q.dimJ + z.padded q.dimK - t.total := by
    intro t t' fit next
    have tried := growRound_tried fit
    split_ifs at next with grew
    obtain rfl := Option.some.inj next
    have larger := tried.grown grew
    have bound := tried.fit.total_le
    exact ⟨tried.fit, by omega⟩
  obtain ⟨t, ends, fit, final⟩ := whileSome_ends (fun t => _ - t.total) step start
  have still : (growRound z q t).2 = false := by
    by_contra grew
    rw [Bool.not_eq_false] at grew
    rw [if_pos grew] at final
    exact nomatch final
  obtain ⟨⟨⟨-, noJ⟩, noI⟩, noK⟩ := ((growRound_tried fit).same still).2
  exact ⟨t, ⟨_, ends⟩, fit, noI, noJ, noK⟩

/-- The search ends, for every multiplication without a normalization and every hardware whose half
accumulator has a block and whose partition has room for the guess: its tiles pass the checks of
`tiled_matmul`, and no factor can be increased. -/
theorem tiledMatmulAuto_maximal (z : Sizes) (q : Problem)
    (plain : ¬(q.act = .layernorm ∨ q.act = .softmax)) (dimI : 0 < q.dimI) (dimJ : 0 < q.dimJ)
    (dimK : 0 < q.dimK) (acc : z.dim ≤ z.accRows / 2) (deep : maxTileIJ z q ≤ matsInPartition z q)
    (blocks : z.bankNum * z.bankRows / z.dim ≤ 65535) :
    ∃ t, (∃ n, ∀ fuel > n, tiledMatmulAuto z q fuel = some t) ∧ SizesPass z q t ∧
      ¬RoomI z q t ∧ ¬RoomJ z q t ∧ ¬RoomK z q t := by
  obtain ⟨t, ends, fit, full⟩ := search_ends (firstTiling_fit plain dimI dimJ dimK acc deep)
  exact ⟨t, ends, fit.sizesPass blocks, full⟩

/-- The generated parameters, with a multiplication of 100 by 200 by 300 elements. -/
def generatedSizes : Sizes := ⟨16, 4, 4096, 1024, Simulator.sixteen_pos⟩

def smallProblem : Problem := ⟨100, 200, 300, .relu, .ws⟩

theorem smallProblem_tiled : ∃ t, (∃ n, ∀ fuel > n, tiledMatmulAuto generatedSizes smallProblem fuel =
      some t) ∧ SizesPass generatedSizes smallProblem t ∧ ¬RoomI generatedSizes smallProblem t ∧
      ¬RoomJ generatedSizes smallProblem t ∧ ¬RoomK generatedSizes smallProblem t :=
  tiledMatmulAuto_maximal generatedSizes smallProblem (by decide) (by decide) (by decide) (by decide)
    (by decide) ((Nat.sqrt_le_self _).trans (by decide)) (by decide)

/-! ### The tiles of a multiplication -/

def sizesOf (hw : Hw) : Sizes := ⟨hw.dim, hw.bankNum, hw.bankRows, hw.accRows, hw.dim_pos⟩

/-- Tiles that pass the checks for the weight-stationary dataflow are those that the outer loops of
the multiplication take. -/
theorem SizesPass.accepted {hw : Hw} {m : Args}
    (pass : SizesPass (sizesOf hw) ⟨m.dimI, m.dimJ, m.dimK, m.act, .ws⟩ t)
    (transposes : ¬(m.transposeA = true ∧ m.transposeB = true)) : Accepted hw m t :=
  ⟨pass.tileI_pos, pass.tileJ_pos, pass.tileK_pos, pass.tileI_le, pass.tileJ_le, pass.tileK_le,
    pass.spad, pass.acc, pass.tileI_bits, pass.tileJ_bits, pass.tileK_bits, transposes⟩

end Gemmini.Matmul
