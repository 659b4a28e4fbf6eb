import Gemmini.Store.Model
import Gemmini.ReservationStation.Ranges

/-!
# The recorded ranges of a store

The rows that a store reads and writes against the ranges that the reservation station has recorded,
whose lengths come from the row and column fields alone: they do not know the rows of a one-dimensional
mvout, nor the stride and the blocks of the destination of a local move.
-/

namespace Gemmini.Store

open ReservationStation
open Odometer (wrappingAdd wrappingAdd_one)

variable {p : ArrayConfig} {r : Regs} {c : Mvout p}

/-- The rows that an mvout without pooling passes over; the row counter has twelve bits. -/
def rowsSent (r : Regs) (c : Mvout p) : Nat :=
  min (if mvout1dEnabled (p := p) r then mvout1dRows r else c.rows) (2 ^ 12)

/-- What the source takes for granted: pooling in hardware that has it and in one accumulator bank;
single blocks if pooled or one-dimensional; rows that exist; local moves in the scratchpad. -/
structure Legal (r : Regs) (c : Mvout p) : Prop where
  pools : r.poolStride ≠ 0 → p.hasMaxPool = true
  oneBlock : r.poolStride ≠ 0 ∨ r.poolSize ≠ 0 → c.blocks = 1
  blocks_le : c.blocks ≤ 2 ^ 8
  oneDimensional : mvout1dEnabled (p := p) r = true → 0 < mvout1dRows r
  clean : c.localaddr.isGarbage p.geometry = false
  named : c.localaddr.data < 2 ^ p.geometry.addrBits c.localaddr.isAccAddr
  fits : r.poolStride = 0 →
    (c.blocks - 1) * p.dim + c.rows ≤ 2 ^ p.geometry.addrBits c.localaddr.isAccAddr
  tile : r.poolStride ≠ 0 → c.localaddr.isAccAddr = true ∧
    c.localaddr.data % 2 ^ p.geometry.accBankRowBits + r.poolOrows * r.poolOcols ≤
      2 ^ p.geometry.accBankRowBits
  move : c.dstIsSpad = true → r.poolStride = 0 ∧ c.localaddr.isAccAddr = false ∧
    c.dstSpadAddr.isAccAddr = false ∧ c.dstSpadAddr.data < 2 ^ p.geometry.spAddrBits

theorem Legal.single (legal : Legal r c) (one : mvout1dEnabled (p := p) r = true) : c.blocks = 1 :=
  legal.oneBlock (.inr fun none => by simp [mvout1dEnabled, none] at one)

theorem blocks_pos (c : Mvout p) : 0 < c.blocks := blocksOf_pos p.dim_pos c.cols_pos

theorem poolingIsEnabled_eq (legal : Legal r c) :
    poolingIsEnabled (p := p) r = decide (r.poolStride ≠ 0) := by
  by_cases off : r.poolStride = 0
  · simp [poolingIsEnabled, off]
  · simp [poolingIsEnabled, off, legal.pools off]

/-! ### The positions of a store without pooling -/

section Plain

variable (legal : Legal r c) (plain : r.poolStride = 0)
include legal plain

theorem not_pooling : poolingIsEnabled (p := p) r = false := by
  rw [poolingIsEnabled_eq legal, plain]
  rfl

omit plain in
theorem rowsSent_pos : 0 < rowsSent r c := by
  have rows_pos : 0 < c.rows := c.rows_pos
  unfold rowsSent
  split_ifs with one
  · have := legal.oneDimensional one
    omega
  · omega

theorem next_eq {x : Counters} (block : x.block < c.blocks) (row : x.row < rowsSent r c) :
    (next r c x).block = (if x.block + 1 < c.blocks then x.block + 1 else 0) ∧
      (next r c x).row = if x.block + 1 < c.blocks then x.row
        else if x.row + 1 < rowsSent r c then x.row + 1 else 0 := by
  have off := not_pooling legal plain
  have blocks_pos := blocks_pos c
  have blocks_le := legal.blocks_le
  have blocks_width : c.blocks ≤ 2 ^ p.mvoutColsBits :=
    (blocksOf_le p.dim_pos _).trans (Nat.mod_lt _ (Nat.two_pow_pos _)).le
  unfold next
  rw [if_neg (by simp [off])]
  constructor
  · simp only [wrappingAdd_one blocks_pos blocks_width block]
    split_ifs <;> omega
  · by_cases one : mvout1dEnabled (p := p) r = true
    · have single := legal.single one
      have bound : rowsSent r c = min (mvout1dRows r) (2 ^ 12) := by simp [rowsSent, one]
      have width : mvout1dRows r ≤ 2 ^ 16 := (Nat.mod_lt _ (by decide)).le
      simp only [one, if_true]
      rw [wrappingAdd_one (legal.oneDimensional one) width (by omega)]
      split_ifs <;> omega
    · have bound : rowsSent r c = min c.rows (2 ^ 12) := by simp [rowsSent, one]
      have width : c.rows ≤ 2 ^ p.mvoutRowsBits := (Nat.mod_lt _ (Nat.two_pow_pos _)).le
      simp only [one, Bool.false_eq_true, if_false]
      by_cases inner : x.block + 1 < c.blocks
      · have hold : (x.block == c.blocks - 1) = false := by
          simp only [beq_eq_false_iff_ne]
          omega
        simp only [hold, wrappingAdd, Bool.not_false, if_true, if_pos inner]
        omega
      · have steps : (x.block == c.blocks - 1) = true := by
          simp only [beq_iff_eq]
          omega
        rw [steps, wrappingAdd_one (show 0 < c.rows from c.rows_pos) width (by omega), if_neg inner]
        split_ifs <;> omega

def index (c : Mvout p) (x : Counters) : Nat := x.row * c.blocks + x.block

theorem walk_within {fuel : Nat} {x y : Counters} (block : x.block < c.blocks)
    (row : x.row < rowsSent r c) (mem : y ∈ walk r c fuel x) :
    y.block < c.blocks ∧ y.row < rowsSent r c := by
  induction fuel generalizing x with
  | zero => simp [walk] at mem
  | succ fuel ih =>
    obtain ⟨nextBlock, nextRow⟩ := next_eq legal plain block row
    rw [walk] at mem
    split_ifs at mem with h h'
    · simp at mem
    · obtain rfl : y = x := by simpa using mem
      exact ⟨block, row⟩
    · rcases List.mem_cons.mp mem with rfl | mem
      · exact ⟨block, row⟩
      · refine ih ?_ ?_ mem
        · rw [nextBlock]
          split_ifs <;> omega
        · rw [nextRow]
          split_ifs <;> omega

theorem positions_within {x : Counters} (mem : x ∈ positions r c) :
    x.block < c.blocks ∧ x.row < rowsSent r c := by
  have blocks_pos := blocks_pos c
  have rows_pos := rowsSent_pos legal
  rcases List.mem_cons.mp mem with rfl | mem
  · exact ⟨blocks_pos, rows_pos⟩
  · obtain ⟨nextBlock, nextRow⟩ := next_eq legal plain (x := .zero) blocks_pos rows_pos
    refine walk_within legal plain ?_ ?_ mem
    · rw [nextBlock]
      split_ifs <;> omega
    · rw [nextRow]
      split_ifs <;> simp only [Counters.zero] at * <;> omega

theorem walk_reaches {fuel : Nat} {x : Counters} (block : x.block < c.blocks)
    (row : x.row < rowsSent r c) (started : 0 < index c x) {k b : Nat} (hk : k < rowsSent r c)
    (hb : b < c.blocks) (ahead : index c x ≤ k * c.blocks + b)
    (enough : k * c.blocks + b < index c x + fuel) :
    ∃ y ∈ walk r c fuel x, y.row = k ∧ y.block = b := by
  induction fuel generalizing x with
  | zero => omega
  | succ fuel ih =>
    have off := not_pooling legal plain
    have blocks_pos := blocks_pos c
    obtain ⟨nextBlock, nextRow⟩ := next_eq legal plain block row
    have notBack : back (p := p) r x = false := by
      simp only [back, off, Bool.false_eq_true, if_false, Bool.and_eq_false_iff, beq_eq_false_iff_ne]
      by_contra both
      simp only [not_or, not_not] at both
      simp [index, both] at started
    rw [walk, if_neg (by simp [notBack])]
    rcases Nat.eq_or_lt_of_le ahead with here | later
    · -- the index determines the two counters
      refine ⟨x, List.mem_cons_self, ?_, ?_⟩
      · have := congrArg (· / c.blocks) here
        simpa [index, Nat.add_div_of_dvd_right, Nat.mul_add_div, Nat.mul_comm _ c.blocks,
          Nat.div_eq_of_lt block, Nat.div_eq_of_lt hb, blocks_pos] using this
      · have := congrArg (· % c.blocks) here
        simpa [index, Nat.mod_eq_of_lt block, Nat.mod_eq_of_lt hb] using this
    · have before : x.row < k ∨ (x.row = k ∧ x.block < b) := by
        by_contra no
        have le : k ≤ x.row := by omega
        rcases Nat.eq_or_lt_of_le le with same | less
        · subst same
          simp only [index] at later
          omega
        · have := Nat.mul_le_mul_right c.blocks (show k + 1 ≤ x.row from less)
          rw [Nat.succ_mul] at this
          simp only [index] at later
          omega
      have notLast : last r c x = false := by
        simp only [last, off, Bool.false_eq_true, if_false, Bool.and_eq_false_iff,
          beq_eq_false_iff_ne]
        unfold rowsSent at hk
        omega
      rw [if_neg (by simp [notLast])]
      have step : index c (next r c x) = index c x + 1 := by
        simp only [index, nextBlock, nextRow]
        by_cases inner : x.block + 1 < c.blocks
        · simp only [if_pos inner]
          omega
        · rw [if_neg inner, if_neg inner, if_pos (by omega), Nat.succ_mul]
          omega
      obtain ⟨y, mem, at_y⟩ := ih (x := next r c x)
        (by rw [nextBlock]; split_ifs <;> omega) (by rw [nextRow]; split_ifs <;> omega)
        (by omega) (by omega) (by omega)
      exact ⟨y, List.mem_cons_of_mem _ mem, at_y⟩

theorem positions_reach {k b : Nat} (hk : k < rowsSent r c) (hb : b < c.blocks) :
    ∃ x ∈ positions r c, x.row = k ∧ x.block = b := by
  have blocks_pos := blocks_pos c
  have rows_pos := rowsSent_pos legal
  rcases Nat.eq_zero_or_pos (k * c.blocks + b) with start | later
  · have k_zero : k = 0 := by
      by_contra no
      have := Nat.mul_pos (Nat.pos_of_ne_zero no) blocks_pos
      omega
    exact ⟨.zero, List.mem_cons_self, k_zero.symm, by simp only [Counters.zero]; omega⟩
  · obtain ⟨nextBlock, nextRow⟩ := next_eq legal plain (x := .zero) blocks_pos rows_pos
    simp only [Counters.zero, Nat.zero_add] at nextBlock nextRow
    have many : 1 < c.blocks ∨ 1 < rowsSent r c := by
      by_contra no
      have : k = 0 ∧ b = 0 := by omega
      simp [this.1, this.2] at later
    have first : index c (next r c .zero) = 1 := by
      simp only [index, Counters.zero, nextBlock, nextRow]
      split_ifs <;> omega
    have total : k * c.blocks + b < 2 ^ 20 := by
      have := legal.blocks_le
      have : rowsSent r c ≤ 2 ^ 12 := min_le_right _ _
      calc k * c.blocks + b < k * c.blocks + c.blocks := by omega
        _ = (k + 1) * c.blocks := (Nat.succ_mul _ _).symm
        _ ≤ 2 ^ 12 * 2 ^ 8 := Nat.mul_le_mul (by omega) (by omega)
    obtain ⟨y, mem, at_y⟩ : ∃ y ∈ walk r c (2 ^ 20) (next r c .zero), y.row = k ∧ y.block = b := by
      apply walk_reaches legal plain ?_ ?_ ?_ hk hb
      all_goals simp only [Counters.zero, nextBlock, nextRow] at first ⊢
      · omega
      · omega
      · split_ifs <;> omega
      · split_ifs <;> omega
      · omega
    exact ⟨y, List.mem_cons_of_mem _ mem, at_y⟩

end Plain

/-! ### The recorded ranges -/

def sourceRange (s : State p.reservationStation) (c : Mvout p) : OpT :=
  if c.dstIsSpad then (newEntry s c.cmd).opb.bits else (newEntry s c.cmd).opa.bits

def destinationRange (s : State p.reservationStation) (c : Mvout p) : OpT :=
  (newEntry s c.cmd).opa.bits

theorem sourceRange_eq (s : State p.reservationStation) (c : Mvout p) :
    sourceRange s c = (op2 s c.cmd).bits := by
  rcases c.store with h | h <;>
    simp [sourceRange, Mvout.dstIsSpad, newEntry, newOpa, newOpb, Cmd.dstValid, Cmd.op1Valid,
      Cmd.functIsCompute, h]

theorem sourceRange_of_plain {s : State p.reservationStation} (off : s.poolingIsEnabled = false)
    (c : Mvout p) :
    sourceRange s c = rangeFrom p.geometry c.localaddr ((c.blocks - 1) * p.dim + c.rows) := by
  have total : totalRows p.dim p.mvoutColsBits p.mvoutRowsBits (log2Up (p.dim + 1)) c.cols p.dim
      c.rows = (c.blocks - 1) * p.dim + c.rows :=
    totalRows_eq p.dim_pos c.cols_pos (Nat.mod_lt _ (Nat.two_pow_pos _)) (le_two_pow_log2Up _)
      (Nat.mod_lt _ (Nat.two_pow_pos _)) (log2Up_mono (Nat.succ_le_succ (le_max_right _ _)))
  have notCompute : c.cmd.functIsCompute = false := by
    rcases c.store with h | h <;> simp [Cmd.functIsCompute, h]
  rw [sourceRange_eq, ← total, op2]
  simp only [notCompute, off, Bool.false_eq_true, if_false]
  rfl

theorem destinationRange_eq (s : State p.reservationStation) {c : Mvout p}
    (move : c.dstIsSpad = true) :
    destinationRange s c = rangeFrom p.geometry c.dstSpadAddr c.rows := by
  have funct : c.cmd.funct = .storeSpad := by simpa [Mvout.dstIsSpad] using move
  simp [destinationRange, newEntry, newOpa, dst, Cmd.dstValid, funct, Mvout.dstSpadAddr, Mvout.rows,
    ArrayConfig.reservationStation]

theorem pooled_hasRow {s : State p.reservationStation} (pooling : s.poolingIsEnabled = true)
    {c : Mvout p} (acc : c.localaddr.isAccAddr = true)
    (clean : c.localaddr.isGarbage p.geometry = false)
    (named : c.localaddr.data < 2 ^ p.geometry.accAddrBits) {o : Nat}
    (inBank : c.localaddr.data % 2 ^ p.geometry.accBankRowBits + o <
      2 ^ p.geometry.accBankRowBits) :
    (sourceRange s c).HasRow p.geometry true ((c.localaddr.add p.geometry o).row p.geometry) := by
  have notCompute : c.cmd.functIsCompute = false := by
    rcases c.store with h | h <;> simp [Cmd.functIsCompute, h]
  have bits := p.accBankRowBits_le
  have maxBits := p.geometry.acc_le
  have addrBits : p.geometry.addrBits true = p.geometry.accAddrBits := rfl
  -- the end of the bank, which is at most the end of the accumulator
  set rowBits := p.geometry.accBankRowBits with rowBits_eq
  obtain ⟨bankBits, accBits⟩ : ∃ k, p.geometry.accAddrBits = rowBits + k := ⟨_, (Nat.add_sub_of_le bits).symm⟩
  have size : 2 ^ p.geometry.accAddrBits = 2 ^ rowBits * 2 ^ bankBits := by rw [accBits, pow_add]
  have row_pos := Nat.two_pow_pos rowBits
  set bank := c.localaddr.data / 2 ^ rowBits with bank_eq
  have split := Nat.div_add_mod c.localaddr.data (2 ^ rowBits)
  rw [← bank_eq] at split
  have bank_lt : bank < 2 ^ bankBits := by
    rw [bank_eq, Nat.div_lt_iff_lt_mul row_pos, Nat.mul_comm, ← size]
    exact named
  have bank_end : 2 ^ rowBits * (bank + 1) ≤ 2 ^ p.geometry.accAddrBits := by
    rw [size]
    exact Nat.mul_le_mul_left _ bank_lt
  rw [Nat.mul_succ] at bank_end
  have accBank : c.localaddr.accBank p.geometry = bank := by
    rw [LocalAddr.accBank, Nat.mod_eq_of_lt named]
  have row : (c.localaddr.add p.geometry o).row p.geometry = c.localaddr.data + o := by
    rw [LocalAddr.row_add, acc, addrBits, Nat.mod_eq_of_lt (by omega)]
  have first : c.localaddr.row p.geometry = c.localaddr.data :=
    LocalAddr.row_of_lt (by rw [acc]; exact named)
  rw [row, sourceRange_eq, op2]
  simp only [notCompute, pooling, Bool.false_eq_true, if_false, if_true]
  rw [show LocalAddr.ofWord p.reservationStation.geometry c.cmd.rs2 = c.localaddr from rfl,
    show p.reservationStation.geometry = p.geometry from rfl, accBank, ← rowBits_eq, accBits,
    Nat.add_sub_cancel_left]
  refine ⟨clean, acc, by rw [addrBits]; omega, .inl ⟨by simp only [first]; omega, ?_⟩⟩
  by_cases lastBank : (bank + 1) % 2 ^ max 1 bankBits * 2 ^ rowBits = 2 ^ rowBits * (bank + 1) ∧
      2 ^ rowBits * (bank + 1) < 2 ^ p.geometry.accAddrBits
  · -- the next bank exists
    refine .inr ⟨rfl, ?_⟩
    obtain ⟨next, below⟩ := lastBank
    simp only [LocalAddr.row, addrBits, next]
    rw [Nat.mul_succ] at below ⊢
    rw [Nat.mod_eq_of_lt (show 2 ^ rowBits * bank + 2 ^ rowBits < 2 ^ p.geometry.maxAddrBits by
      omega), Nat.mod_eq_of_lt below]
    omega
  · refine .inl ?_
    have wraps : ((bank + 1) % 2 ^ max 1 bankBits * 2 ^ rowBits) %
        2 ^ p.geometry.maxAddrBits % 2 ^ p.geometry.accAddrBits = 0 := by
      have dvd : 2 ^ p.geometry.accAddrBits ∣ 2 ^ p.geometry.maxAddrBits :=
        pow_dvd_pow 2 (le_max_right _ _)
      rw [Nat.mod_mod_of_dvd _ dvd]
      have wide : 2 ^ bankBits ≤ 2 ^ max 1 bankBits :=
        Nat.pow_le_pow_right Nat.two_pos (le_max_right _ _)
      rcases Nat.lt_or_ge (bank + 1) (2 ^ max 1 bankBits) with fits | wrapped
      · rw [Nat.mod_eq_of_lt fits, Nat.mul_comm] at lastBank ⊢
        have : 2 ^ rowBits * (bank + 1) = 2 ^ p.geometry.accAddrBits := by
          rw [Nat.mul_succ] at lastBank ⊢
          omega
        rw [this, Nat.mod_self]
      · rw [show bank + 1 = 2 ^ max 1 bankBits by omega, Nat.mod_self, Nat.zero_mul, Nat.zero_mod]
    simp only [LocalAddr.accBank, wraps, Nat.zero_div, beq_self_eq_true]

/-! ### Containment -/

def RowsRecorded (s : State p.reservationStation) (r : Regs) (c : Mvout p) : Prop :=
  ∀ x ∈ positions r c,
    (∀ a ∈ laddr r c x, (sourceRange s c).HasRow p.geometry a.isAccAddr (a.row p.geometry)) ∧
      ∀ n ∈ dstRows c x, (destinationRange s c).HasRow p.geometry false n

/-- A one-dimensional mvout names at least the rows it moves, a local move all rows up to its last
destination row, which exist. -/
def Named (r : Regs) (c : Mvout p) : Prop :=
  (mvout1dEnabled (p := p) r = true →
    min (rowsSent r c) (2 ^ p.geometry.addrBits c.localaddr.isAccAddr) ≤ c.rows) ∧
  (c.dstIsSpad = true →
    (rowsSent r c - 1) * c.dstSpadStride + c.blocks ≤ c.rows ∧
      c.dstSpadAddr.data + (rowsSent r c - 1) * c.dstSpadStride + c.blocks ≤
        2 ^ p.geometry.spAddrBits)

/-- `CONFIG_ST`. -/
def IsConfigSt (config : Cmd) : Prop := config.funct = .config ∧ config.configCmdType = 2

instance (config : Cmd) : Decidable (IsConfigSt config) := by
  unfold IsConfigSt
  infer_instance

theorem configure_st {config : Cmd} (isConfig : IsConfigSt config)
    (s : State p.reservationStation) (r : Regs) :
    (configure s config).poolingIsEnabled = decide ((r.configure config).poolStride ≠ 0) := by
  obtain ⟨funct, type⟩ := isConfig
  have config' : config.isConfig = true := by simp [Cmd.isConfig, funct]
  have queue : config.q = .st := by simp [Cmd.q, Cmd.isLoad, Cmd.isStore, config', type, funct]
  have notNorm : config.isNorm = false := by simp [Cmd.isNorm, type]
  have stride : (r.configure config).poolStride = slice config.rs1 4 2 := by
    simp only [Regs.configure]
    split_ifs <;> rfl
  rw [stride]
  simp [configure, config', queue, notNorm]

section Sources

variable {s : State p.reservationStation} (legal : Legal r c)
  (agree : s.poolingIsEnabled = decide (r.poolStride ≠ 0))
include legal agree

theorem source_hasRow_iff (plain : r.poolStride = 0) (o : Nat) :
    (sourceRange s c).HasRow p.geometry c.localaddr.isAccAddr
        ((c.localaddr.add p.geometry o).row p.geometry) ↔
      o % 2 ^ p.geometry.addrBits c.localaddr.isAccAddr < (c.blocks - 1) * p.dim + c.rows := by
  rw [sourceRange_of_plain (by simp [agree, plain]), LocalAddr.row_add]
  have named := legal.named
  have fits := legal.fits plain
  exact rangeFrom_hasRow_iff legal.clean named (by omega) o

theorem sources_recorded_iff :
    (∀ x ∈ positions r c, ∀ a ∈ laddr r c x,
        (sourceRange s c).HasRow p.geometry a.isAccAddr (a.row p.geometry)) ↔
      (mvout1dEnabled (p := p) r = true →
        min (rowsSent r c) (2 ^ p.geometry.addrBits c.localaddr.isAccAddr) ≤ c.rows) := by
  by_cases plain : r.poolStride = 0
  · have off := not_pooling legal plain
    have read : ∀ x a, a ∈ laddr r c x ↔
        a = c.localaddr.add p.geometry (x.block * p.dim + x.row) := by
      intro x a
      simp [laddr, off, eq_comm]
    have covered := source_hasRow_iff legal agree plain
    constructor
    · -- row number `c.rows` would be the first one outside
      intro all one
      have single := legal.single one
      by_contra long
      rw [not_le, lt_min_iff] at long
      obtain ⟨x, mem, row, block⟩ := positions_reach legal plain long.1 (blocks_pos c)
      have inRange := all x mem _ ((read x _).mpr rfl)
      rw [LocalAddr.add_isAccAddr, covered, block, row, Nat.zero_mul, Nat.zero_add,
        Nat.mod_eq_of_lt long.2, single] at inRange
      omega
    · intro named x mem a at_a
      obtain ⟨block, row⟩ := positions_within legal plain mem
      rw [(read x a).mp at_a, LocalAddr.add_isAccAddr, covered]
      have le := Nat.mod_le (x.block * p.dim + x.row)
        (2 ^ p.geometry.addrBits c.localaddr.isAccAddr)
      have blocks := Nat.mul_le_mul_right p.dim (show x.block ≤ c.blocks - 1 by omega)
      by_cases one : mvout1dEnabled (p := p) r = true
      · have := named one
        rw [legal.single one] at blocks ⊢
        omega
      · have : rowsSent r c ≤ c.rows := by simp [rowsSent, one]
        omega
  · have notOne : mvout1dEnabled (p := p) r = false := by
      simp [mvout1dEnabled, poolingIsEnabled_eq legal, plain]
    obtain ⟨acc, inBank⟩ := legal.tile plain
    refine iff_of_true (fun x _ a at_a => ?_) (fun one => by simp [notOne] at one)
    simp only [laddr, poolingIsEnabled_eq legal, plain, ne_eq, not_false_eq_true, decide_true,
      if_true] at at_a
    split_ifs at at_a with outside
    · simp at at_a
    · obtain rfl := Option.mem_some_iff.mp at_a
      simp only [not_or, not_lt, not_le, ge_iff_le] at outside
      obtain ⟨_, _, orow, ocol⟩ := outside
      rw [LocalAddr.add_isAccAddr, acc]
      refine pooled_hasRow (by simp [agree, plain]) acc legal.clean
        (by have := legal.named; rwa [acc] at this) (lt_of_lt_of_le ?_ inBank)
      have := Nat.mul_le_mul_right r.poolOcols (Nat.succ_le_of_lt orow)
      rw [Nat.succ_mul] at this
      omega

omit agree in
theorem destinations_recorded_iff (move : c.dstIsSpad = true) :
    (∀ x ∈ positions r c, ∀ n ∈ dstRows c x,
        (destinationRange s c).HasRow p.geometry false n) ↔
      (rowsSent r c - 1) * c.dstSpadStride + c.blocks ≤ c.rows ∧
        c.dstSpadAddr.data + (rowsSent r c - 1) * c.dstSpadStride + c.blocks ≤
          2 ^ p.geometry.spAddrBits := by
  obtain ⟨plain, sourceSp, dstSp, dstNamed⟩ := legal.move move
  have fits := legal.fits plain
  rw [sourceSp] at fits
  have addrBits : p.geometry.addrBits false = p.geometry.spAddrBits := rfl
  rw [addrBits] at fits
  have blocks_pos := blocks_pos c
  have rows_pos := rowsSent_pos legal
  have clean : c.dstSpadAddr.isGarbage p.geometry = false := by simp [LocalAddr.isGarbage, dstSp]
  -- a row that exists is covered at the offsets below the row field
  have covered : ∀ o, c.dstSpadAddr.data + o < 2 ^ p.geometry.spAddrBits →
      ((destinationRange s c).HasRow p.geometry false (c.dstSpadAddr.data + o) ↔ o < c.rows) := by
    intro o inside
    have once : c.dstSpadAddr.data + c.rows <
        2 * 2 ^ p.geometry.addrBits c.dstSpadAddr.isAccAddr := by
      rw [dstSp, addrBits]
      omega
    have range := rangeFrom_hasRow_iff clean (by rw [dstSp]; exact dstNamed) once o
    rw [dstSp, addrBits, Nat.mod_eq_of_lt inside, Nat.mod_eq_of_lt (by omega)] at range
    rw [destinationRange_eq s move]
    exact range
  have written : ∀ x n, n ∈ dstRows c x ↔ x.block = c.blocks - 1 ∧
      ∃ b < c.blocks, n = c.dstSpadAddr.data + (x.row * c.dstSpadStride + b) := by
    intro x n
    simp only [dstRows, move, true_and]
    split_ifs with last
    · simp only [List.mem_map, List.mem_range, last, true_and, Nat.add_assoc]
      exact exists_congr fun b => and_congr_right fun _ => eq_comm
    · simp [last]
  constructor
  · intro all
    obtain ⟨x, mem, row, block⟩ := positions_reach legal plain
      (show rowsSent r c - 1 < rowsSent r c by omega) (show c.blocks - 1 < c.blocks by omega)
    have inRange := all x mem _ ((written x _).mpr ⟨block, c.blocks - 1, by omega, rfl⟩)
    have inside : c.dstSpadAddr.data + (x.row * c.dstSpadStride + (c.blocks - 1)) <
        2 ^ p.geometry.spAddrBits := inRange.2.2.1
    rw [covered _ inside] at inRange
    rw [row] at inRange inside
    omega
  · rintro ⟨short, exist⟩ x mem n at_n
    obtain ⟨_, b, hb, rfl⟩ := (written x n).mp at_n
    obtain ⟨_, row⟩ := positions_within legal plain mem
    have := Nat.mul_le_mul_right c.dstSpadStride (show x.row ≤ rowsSent r c - 1 by omega)
    rw [covered _ (by omega)]
    omega

end Sources

/-- For every store under any `CONFIG_ST`: the rows it reads and writes lie in the recorded ranges
exactly if they are named in its row field, where it is one-dimensional or a local move.  Plain and
pooled mvouts have no condition. -/
theorem store_rows_recorded_iff {config : Cmd} (isConfig : IsConfigSt config)
    {s : State p.reservationStation} {r : Regs} {c : Mvout p}
    (legal : Legal (r.configure config) c) :
    RowsRecorded (configure s config) (r.configure config) c ↔ Named (r.configure config) c := by
  have agree := configure_st isConfig s r
  have sources := sources_recorded_iff legal agree
  have split : RowsRecorded (configure s config) (r.configure config) c ↔
      (∀ x ∈ positions (r.configure config) c, ∀ a ∈ laddr (r.configure config) c x,
        (sourceRange (configure s config) c).HasRow p.geometry a.isAccAddr (a.row p.geometry)) ∧
      ∀ x ∈ positions (r.configure config) c, ∀ n ∈ dstRows c x,
        (destinationRange (configure s config) c).HasRow p.geometry false n :=
    ⟨fun h => ⟨fun x mem => (h x mem).1, fun x mem => (h x mem).2⟩,
      fun h x mem => ⟨h.1 x mem, h.2 x mem⟩⟩
  rw [split, sources, Named]
  refine and_congr_right fun _ => ?_
  by_cases move : c.dstIsSpad = true
  · rw [destinations_recorded_iff legal move]
    exact ⟨fun h _ => h, fun h => h move⟩
  · refine iff_of_true (fun x _ n at_n => ?_) (fun h => absurd h move)
    simp [dstRows, move] at at_n

/-- A one-dimensional `CONFIG_ST` for two times two output rows. -/
def configOneDimensional : Cmd :=
  ⟨.config, BitVec.ofNat 64 (2 + 1 * 2 ^ 6 + 2 * 2 ^ 48 + 2 * 2 ^ 56), 0⟩

/-- A `CONFIG_ST` without pooling. -/
def configPlain : Cmd := ⟨.config, 2, 0⟩

def moveToFour (stride : Nat) : Mvout smallArray where
  cmd := ⟨.storeSpad, BitVec.ofNat 64 (4 + stride * 2 ^ 32), operand 2 2 0⟩
  store := .inr rfl
  rows_pos := show 0 < slice (operand 2 2 0) 48 smallArray.mvoutRowsBits by decide
  cols_pos := show 0 < slice (operand 2 2 0) 32 smallArray.mvoutColsBits by decide

def mvoutAtZero : Mvout smallArray :=
  ⟨⟨.store, 100, operand 2 2 0⟩, .inl rfl, by decide, by decide⟩

def noRegs : Regs := ⟨0, 0, 0, 0, 0, 0, 0, 0, 0⟩

theorem legal_moveToFour : Legal (noRegs.configure configPlain) (moveToFour 1) := by
  constructor <;> decide

theorem move_in_one_piece_recorded :
    RowsRecorded (configure (resetState smallArray.reservationStation) configPlain)
      (noRegs.configure configPlain) (moveToFour 1) :=
  (store_rows_recorded_iff (by decide) legal_moveToFour).mpr (by
    unfold Named
    decide)

instance (s : State p.reservationStation) (r : Regs) (c : Mvout p) :
    Decidable (RowsRecorded s r c) := by
  unfold RowsRecorded
  infer_instance

/-- A move with stride 2 writes rows 4 and 6, and rows 4 and 5 are recorded; a one-dimensional mvout
reads rows 0 to 3, and rows 0 and 1 are recorded. -/
theorem stored_rows_not_recorded :
    (IsConfigSt configPlain ∧
      (positions (noRegs.configure configPlain) (moveToFour 2)).flatMap
        (dstRows (moveToFour 2)) = [4, 6] ∧
      ¬RowsRecorded (configure (resetState smallArray.reservationStation) configPlain)
        (noRegs.configure configPlain) (moveToFour 2)) ∧
    IsConfigSt configOneDimensional ∧
      (positions (noRegs.configure configOneDimensional) mvoutAtZero).map (·.row) = [0, 1, 2, 3] ∧
      ¬RowsRecorded (configure (resetState smallArray.reservationStation) configOneDimensional)
        (noRegs.configure configOneDimensional) mvoutAtZero := by
  decide

end Gemmini.Store
