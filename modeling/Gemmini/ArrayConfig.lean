import Gemmini.ReservationStation.Model

/-!
# The parameters of an accelerator

The fields of `GemminiArrayConfig` that the controllers read, with the requirements that elaboration
checks, and the widths derived from them.  The reservation station gets its parameters from here, so
that it decodes commands with the same widths.
-/

namespace Gemmini

/-- Chisel's `isPow2`. -/
def isPow2 (n : Nat) : Bool := 2 ^ Nat.log2 n == n

/-- `GemminiArrayConfig`; widths of element types are in bytes. -/
structure ArrayConfig where
  geometry : Geometry
  dim : Nat
  inputBytes : Nat
  accBytes : Nat
  dmaMaxbytes : Nat
  dmaBusBytes : Nat
  alignedTo : Nat
  coreMaxAddrBits : Nat
  hasFirstLayerOptimizations : Bool
  hasMaxPool : Bool
  exReadFromSpad : Bool
  exReadFromAcc : Bool
  exWriteToSpad : Bool
  exWriteToAcc : Bool
  entriesLd : Nat
  entriesEx : Nat
  entriesSt : Nat
  dim_ge : 2 ≤ dim
  accBanks_pos : 0 < geometry.accBanks
  accBankEntries_pos : 0 < geometry.accBankEntries
  accBankEntries_dvd : dim ∣ geometry.accBankEntries
  inputBytes_pos : 0 < inputBytes
  dmaBusBytes_pow : isPow2 dmaBusBytes = true
  alignedTo_pow : isPow2 alignedTo = true
  beat_le : max alignedTo dmaBusBytes ≤ dmaMaxbytes

namespace ArrayConfig

variable (p : ArrayConfig)

def maxCols : Nat := max (p.dmaMaxbytes / p.inputBytes) p.dim

def mvinColsBits : Nat := log2Up (p.maxCols + 1)
def mvinRowsBits : Nat := log2Up (p.dim + 1)
def mvoutColsBits : Nat := log2Up (p.maxCols + 1)
def mvoutRowsBits : Nat := log2Up (p.dim + 1)

/-- `block_stride_bits`, `a_stride_bits` and `c_stride_bits`. -/
def strideBits : Nat := min 16 (max (log2Up p.geometry.accRows) (log2Up p.geometry.spRows))

def pixelRepeatsBits : Nat := min 8 (log2Up (p.dim + 1))

/-- The bytes of a scratchpad row, `spadWidthBytes`. -/
def spadRowBytes : Nat := p.dim * p.inputBytes

def reservationStation : ReservationStation.Config where
  geometry := p.geometry
  blockRows := p.dim
  blockCols := p.dim
  mvinColsBits := p.mvinColsBits
  mvinRowsBits := p.mvinRowsBits
  mvoutColsBits := p.mvoutColsBits
  mvoutRowsBits := p.mvoutRowsBits
  aStrideBits := p.strideBits
  cStrideBits := p.strideBits
  blockStrideBits := p.strideBits
  pixelRepeatsBits := p.pixelRepeatsBits
  hasFirstLayerOptimizations := p.hasFirstLayerOptimizations
  entriesLd := p.entriesLd
  entriesEx := p.entriesEx
  entriesSt := p.entriesSt

theorem dim_pos : 0 < p.dim := Nat.lt_of_lt_of_le Nat.two_pos p.dim_ge

theorem accBankRowBits_le : p.geometry.accBankRowBits ≤ p.geometry.accAddrBits := by
  have entries : 2 ≤ p.geometry.accBankEntries :=
    p.dim_ge.trans (Nat.le_of_dvd p.accBankEntries_pos p.accBankEntries_dvd)
  have rows : p.geometry.accBankEntries ≤ p.geometry.accRows :=
    Nat.le_mul_of_pos_left _ p.accBanks_pos
  exact max_le (Nat.succ_le_of_lt (log2Ceil_pos (entries.trans rows))) (log2Ceil_mono rows)

theorem spadRowBytes_pos : 0 < p.spadRowBytes := Nat.mul_pos p.dim_pos p.inputBytes_pos

end ArrayConfig

def smallArray : ArrayConfig where
  geometry := { spBanks := 2, spBankEntries := 8, accBanks := 2, accBankEntries := 4 }
  dim := 2
  inputBytes := 1
  accBytes := 4
  dmaMaxbytes := 8
  dmaBusBytes := 4
  alignedTo := 1
  coreMaxAddrBits := 40
  hasFirstLayerOptimizations := true
  hasMaxPool := true
  exReadFromSpad := true
  exReadFromAcc := true
  exWriteToSpad := true
  exWriteToAcc := true
  entriesLd := 2
  entriesEx := 2
  entriesSt := 2
  dim_ge := by decide
  accBanks_pos := by decide
  accBankEntries_pos := by decide
  accBankEntries_dvd := by decide
  inputBytes_pos := by decide
  dmaBusBytes_pow := by decide
  alignedTo_pow := by decide
  beat_le := by decide

def fourArray : ArrayConfig :=
  { smallArray with
    geometry := { spBanks := 2, spBankEntries := 16, accBanks := 2, accBankEntries := 16 }
    dim := 4
    dim_ge := by decide
    accBanks_pos := by decide
    accBankEntries_pos := by decide
    accBankEntries_dvd := by decide
    beat_le := by decide }

/-- The number of blocks of `dim` columns that `cols` columns touch. -/
def blocksOf (dim cols : Nat) : Nat := cols / dim + if cols % dim ≠ 0 then 1 else 0

theorem lt_blocksOf {dim : Nat} (pos : 0 < dim) {cols m : Nat} :
    m < blocksOf dim cols ↔ m * dim < cols := by
  have split := Nat.div_add_mod cols dim
  have small := Nat.mod_lt cols pos
  unfold blocksOf
  constructor
  · intro h
    split_ifs at h with rest
    · have := Nat.mul_le_mul_right dim (Nat.lt_succ_iff.mp h)
      rw [Nat.mul_comm (cols / dim)] at this
      omega
    · have := Nat.mul_le_mul_right dim (show m + 1 ≤ cols / dim by omega)
      rw [Nat.mul_comm (cols / dim), Nat.succ_mul] at this
      omega
  · intro h
    by_contra no
    have le : cols / dim + (if cols % dim ≠ 0 then 1 else 0) ≤ m := Nat.not_lt.mp no
    have := Nat.mul_le_mul_right dim le
    rw [Nat.add_mul, Nat.mul_comm (cols / dim)] at this
    split_ifs at this with rest <;> omega

theorem blocksOf_le {dim : Nat} (pos : 0 < dim) (cols : Nat) : blocksOf dim cols ≤ cols := by
  by_contra no
  have := (lt_blocksOf pos).mp (Nat.not_le.mp no)
  exact absurd (Nat.le_mul_of_pos_right cols pos) (by omega)

theorem blocksOf_pos {dim : Nat} (pos : 0 < dim) {cols : Nat} (some' : 0 < cols) :
    0 < blocksOf dim cols := (lt_blocksOf pos).mpr (by omega)

end Gemmini
