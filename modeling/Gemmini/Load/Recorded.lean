import Gemmini.Load.Rows

/-!
# The recorded range of an mvin

The reservation station moves the start of a load's range down by the repeated pixels but keeps its
length, so that the end moves down too, while the topmost row is always written in its own place.
-/

namespace Gemmini.Load

open ReservationStation

variable {p : ArrayConfig} {s : State p.reservationStation} {r : Regs} {config : Cmd} {c : Mvin p}

/-- `CONFIG_LD`. -/
def IsConfigLd (config : Cmd) : Prop := config.funct = .config ∧ config.configCmdType = 1

instance (config : Cmd) : Decidable (IsConfigLd config) := by
  unfold IsConfigLd
  infer_instance

theorem configure_ld (isConfig : IsConfigLd config) :
    (configure s config).ldBlockStrides (slice config.rs1 3 2) =
        (r.configure p config).blockStrides (slice config.rs1 3 2) ∧
      (configure s config).ldPixelRepeats (slice config.rs1 3 2) + 1 =
        (r.configure p config).pixelRepeats (slice config.rs1 3 2) := by
  obtain ⟨funct, type⟩ := isConfig
  have config' : config.isConfig = true := by simp [Cmd.isConfig, funct]
  have queue : config.q = .ld := by simp [Cmd.q, Cmd.isLoad, config', type]
  have bits : p.strideBits ≤ 16 := min_le_left _ _
  have stride : slice config.rs1 16 16 % 2 ^ p.strideBits = slice config.rs1 16 p.strideBits :=
    Nat.mod_mod_of_dvd _ (pow_dvd_pow 2 bits)
  unfold configure Regs.configure
  simp only [config', queue, if_true, Function.update_self, ArrayConfig.reservationStation, stride,
    true_and]
  split_ifs <;> omega

theorem loadStart_data (first : p.hasFirstLayerOptimizations = true)
    (sp : c.localaddr.isAccAddr = false) (named : c.localaddr.data < p.geometry.spRows) :
    (loadStart s c.cmd).isAccAddr = false ∧ (loadStart s c.cmd).data =
      c.localaddr.data - min (s.ldPixelRepeats c.id)
        (c.localaddr.data - if c.localaddr.data > p.geometry.spRows / 2
          then p.geometry.spRows / 2 else 0) := by
  have bits : p.geometry.spRows ≤ 2 ^ p.geometry.spAddrBits := le_two_pow_log2Ceil _
  have bits' := p.geometry.sp_le
  have full : c.localaddr.fullSpAddr p.geometry = c.localaddr.data := Nat.mod_eq_of_lt (by omega)
  have start : loadStart s c.cmd =
      if p.hasFirstLayerOptimizations then
        if c.localaddr.isAccAddr then c.localaddr
        else if c.localaddr.fullSpAddr p.geometry > p.geometry.spRows / 2 then
          (c.localaddr.floorSub p.geometry (s.ldPixelRepeats c.id) (p.geometry.spRows / 2)).1
        else (c.localaddr.floorSub p.geometry (s.ldPixelRepeats c.id) 0).1
      else c.localaddr := rfl
  rw [start, if_pos first, if_neg (by simp [sp]), full]
  split_ifs with upper
  all_goals
    refine ⟨sp, ?_⟩
    simp only [LocalAddr.floorSub, decide_eq_true_eq]
    split_ifs with under <;> rw [Nat.mod_eq_of_lt (by omega)] <;> omega

theorem newEntry_opa_eq : (newEntry s c.cmd).opa.bits = rangeFrom p.geometry (loadStart s c.cmd)
    (totalRows p.dim p.mvinColsBits p.mvinRowsBits p.strideBits c.cols (s.ldBlockStrides c.id)
      c.rows) := by
  rcases c with ⟨cmd, load, _⟩
  rcases load with h | h | h <;>
    simp [newEntry, newOpa, dst, Cmd.dstValid, h, Mvin.cols, Mvin.id, Mvin.rows,
      ArrayConfig.reservationStation]

/-- For an mvin under any `CONFIG_LD`, to any scratchpad row from which it does not run past the end:
all rows written lie in the recorded range exactly if no pixel is repeated or the mvin starts at
row 0. -/
theorem mvin_rows_recorded_iff (isConfig : IsConfigLd config)
    (same : slice config.rs1 3 2 = c.id) (first : p.hasFirstLayerOptimizations = true)
    (sp : c.localaddr.isAccAddr = false)
    (inside : c.localaddr.data + c.rows + (r.configure p config).blockStrides c.id *
      (blocksOf p.dim c.cols - 1) ≤ p.geometry.spRows) :
    (∀ a ∈ rowsWritten (r.configure p config) c,
        (newEntry (configure s config) c.cmd).opa.bits.HasRow p.geometry false
          (a.row p.geometry)) ↔
      slice config.rs1 8 p.pixelRepeatsBits ≤ 1 ∨ c.localaddr.data = 0 := by
  obtain ⟨strides, repeats⟩ := configure_ld (p := p) (s := s) (r := r) isConfig
  rw [same] at strides repeats
  have repeats_eq : (r.configure p config).pixelRepeats c.id =
      if slice config.rs1 8 p.pixelRepeatsBits = 0 then 1
      else slice config.rs1 8 p.pixelRepeatsBits := by
    simp [Regs.configure, same]
  have rows_pos : 0 < c.rows := c.rows_pos
  have blocks_pos : 0 < blocksOf p.dim c.cols := blocksOf_pos p.dim_pos c.cols_pos
  -- the recorded length, which is also the number of rows from the first to the last block row
  obtain ⟨stride, stride_eq⟩ : ∃ x, (r.configure p config).blockStrides c.id = x := ⟨_, rfl⟩
  rw [stride_eq] at strides inside
  have length : totalRows p.dim p.mvinColsBits p.mvinRowsBits p.strideBits c.cols
      ((configure s config).ldBlockStrides c.id) c.rows =
        (blocksOf p.dim c.cols - 1) * stride + c.rows := by
    rw [strides]
    refine totalRows_eq p.dim_pos c.cols_pos (Nat.mod_lt _ (Nat.two_pow_pos _)) ?_
      (Nat.mod_lt _ (Nat.two_pow_pos _)) ?_
    · have set : stride = slice config.rs1 16 p.strideBits := by
        simp [← stride_eq, Regs.configure, same]
      exact set ▸ Nat.mod_lt _ (Nat.two_pow_pos _)
    · exact log2Up_mono (Nat.succ_le_succ (le_max_right _ _))
  rw [Nat.mul_comm] at length
  have named : c.localaddr.data < p.geometry.spRows := by omega
  obtain ⟨startSp, start⟩ := loadStart_data (s := configure s config) first sp named
  have bits : p.geometry.spRows ≤ 2 ^ p.geometry.addrBits false := le_two_pow_log2Ceil _
  have covered : ∀ n < p.geometry.spRows,
      (newEntry (configure s config) c.cmd).opa.bits.HasRow p.geometry false n ↔
        (loadStart (configure s config) c.cmd).data ≤ n ∧
          n < (loadStart (configure s config) c.cmd).data +
            (stride * (blocksOf p.dim c.cols - 1) + c.rows) := by
    intro n row
    rw [newEntry_opa_eq, length, ← startSp]
    refine rangeFrom_hasRow_of_le ?_ ?_ ?_ ?_
    · simp [LocalAddr.isGarbage, startSp]
    all_goals rw [startSp]; omega
  have written := fun n => exists_rowWritten_iff (r := r.configure p config) (c := c) (n := n) sp
    (by omega) (stride_eq ▸ inside)
  simp only [stride_eq] at written
  constructor
  · -- the topmost row is written, but the end of the range has moved below it
    intro all
    by_contra no
    have top : c.localaddr.data + (c.rows - 1) + stride * (blocksOf p.dim c.cols - 1) <
        p.geometry.spRows := by omega
    obtain ⟨a, mem, row⟩ := (written _).mpr ⟨c.rows - 1, by omega, blocksOf p.dim c.cols - 1,
      by omega, 0, by omega, ⟨by split_ifs <;> omega, rfl⟩⟩
    have inRange := all a mem
    rw [row, Nat.sub_zero, covered _ top] at inRange
    have moved : 0 < min ((configure s config).ldPixelRepeats c.id)
        (c.localaddr.data - if c.localaddr.data > p.geometry.spRows / 2
          then p.geometry.spRows / 2 else 0) := by
      rw [lt_min_iff]
      constructor
      · split_ifs at repeats_eq <;> omega
      · split_ifs <;> omega
    omega
  · intro unmoved a mem
    obtain ⟨i, hi, m, hm, k, hk, floor, row⟩ := (written _).mp ⟨a, mem, rfl⟩
    have block := Nat.mul_le_mul_left stride (show m ≤ blocksOf p.dim c.cols - 1 by omega)
    rw [covered _ (by omega), row, start]
    rcases unmoved with none | zero
    · have : k = 0 ∧ (configure s config).ldPixelRepeats c.id = 0 := by
        split_ifs at repeats_eq <;> omega
      rw [this.1, this.2, Nat.zero_min]
      omega
    · rw [zero]
      omega

/-- `CONFIG_LD` for load state 0: row stride 2, block stride 2, and a number of pixel repeats. -/
def configLd (pixelRepeats : Nat) : Cmd :=
  ⟨.config, BitVec.ofNat 64 (1 + pixelRepeats * 2 ^ 8 + 2 * 2 ^ 16), 2⟩

/-- An mvin of two rows and three columns, that is two blocks, to row `start`. -/
def loadAt (start : Nat) : Cmd := ⟨.load, 100, operand 2 3 start⟩

def mvinAtZero : Mvin smallArray :=
  ⟨loadAt 0, by decide, by decide, by decide, by decide, by decide⟩

def mvinAtThree : Mvin smallArray :=
  ⟨loadAt 3, by decide, by decide, by decide, by decide, by decide⟩

def noRegs : Regs := ⟨fun _ => 0, fun _ => false, fun _ => 0, fun _ => 1⟩

theorem rows_at_zero_recorded :
    rowsWritten (noRegs.configure smallArray (configLd 2)) mvinAtZero ≠ [] ∧
    ∀ a ∈ rowsWritten (noRegs.configure smallArray (configLd 2)) mvinAtZero,
      (newEntry (configure (resetState smallArray.reservationStation) (configLd 2))
        mvinAtZero.cmd).opa.bits.HasRow smallArray.geometry false (a.row smallArray.geometry) :=
  ⟨by decide, (mvin_rows_recorded_iff (by decide) (by decide) rfl (by decide)
    (by decide)).mpr (.inr (by decide))⟩

/-- With two pixels per row the mvin to rows 3 to 6 also writes row 2; rows 2 to 5 are recorded. -/
theorem top_row_not_recorded :
    IsConfigLd (configLd 2) ∧ mvinAtThree.localaddr.isAccAddr = false ∧
      (rowsWritten (noRegs.configure smallArray (configLd 2)) mvinAtThree).map
        (·.row smallArray.geometry) = [2, 3, 4, 5, 3, 4, 5, 6] ∧
      ¬∀ a ∈ rowsWritten (noRegs.configure smallArray (configLd 2)) mvinAtThree,
        (newEntry (configure (resetState smallArray.reservationStation) (configLd 2))
          mvinAtThree.cmd).opa.bits.HasRow smallArray.geometry false
            (a.row smallArray.geometry) := by
  decide

end Gemmini.Load
