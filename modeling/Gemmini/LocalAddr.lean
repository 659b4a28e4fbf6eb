import Gemmini.Lib.Machine
import Mathlib.Data.BitVec
import Mathlib.Data.Nat.Log
import Mathlib.Tactic

/-!
# Local addresses

`LocalAddr.scala`: the 32-bit word that names a row of the scratchpad or of the accumulator.
Comparisons only ever relate rows of one memory, and additions wrap in the row bits.
-/

namespace Gemmini

/-- Chisel's `log2Ceil`. -/
def log2Ceil (n : Nat) : Nat := if n ≤ 1 then 0 else Nat.log2 (n - 1) + 1

/-- Chisel's `log2Up`. -/
def log2Up (n : Nat) : Nat := max 1 (log2Ceil n)

theorem le_two_pow_log2Ceil (n : ℕ) : n ≤ 2 ^ log2Ceil n := by
  unfold log2Ceil
  split_ifs with small
  · simpa using small
  · have := Nat.lt_log2_self (n := n - 1)
    omega

theorem le_two_pow_log2Up (n : ℕ) : n ≤ 2 ^ log2Up n :=
  (le_two_pow_log2Ceil n).trans (Nat.pow_le_pow_right (by decide) (le_max_right 1 _))

theorem log2Ceil_mono {m n : ℕ} (le : m ≤ n) : log2Ceil m ≤ log2Ceil n := by
  unfold log2Ceil
  split_ifs with small small'
  · exact le_rfl
  · exact Nat.zero_le _
  · omega
  · have mono : Nat.log2 (m - 1) ≤ Nat.log2 (n - 1) := by
      rw [Nat.log2_eq_log_two, Nat.log2_eq_log_two]
      exact Nat.log_mono_right (by omega)
    omega

theorem log2Ceil_pos {n : ℕ} (two : 2 ≤ n) : 0 < log2Ceil n := by
  rw [log2Ceil, if_neg (by omega)]
  exact Nat.succ_pos _

theorem log2Up_mono {m n : ℕ} (le : m ≤ n) : log2Up m ≤ log2Up n :=
  max_le_max le_rfl (log2Ceil_mono le)

/-- The bits `x(lo + len - 1, lo)` of a 64-bit operand. -/
def slice (x : BitVec 64) (lo len : Nat) : Nat := x.toNat / 2 ^ lo % 2 ^ len

/-- The bit `x(i)` of a 64-bit operand. -/
def bit (x : BitVec 64) (i : Nat) : Bool := x.toNat.testBit i

structure Geometry where
  spBanks : Nat
  spBankEntries : Nat
  accBanks : Nat
  accBankEntries : Nat

namespace Geometry

variable (g : Geometry)

def spRows : Nat := g.spBanks * g.spBankEntries
def accRows : Nat := g.accBanks * g.accBankEntries
def spAddrBits : Nat := log2Ceil g.spRows
def accAddrBits : Nat := log2Ceil g.accRows
def maxAddrBits : Nat := max g.spAddrBits g.accAddrBits
def accBankRowBits : Nat := log2Up g.accBankEntries

def addrBits (isAcc : Bool) : Nat := if isAcc then g.accAddrBits else g.spAddrBits

theorem sp_le : 2 ^ g.spAddrBits ≤ 2 ^ g.maxAddrBits :=
  Nat.pow_le_pow_right Nat.two_pos (le_max_left _ _)

theorem acc_le : 2 ^ g.accAddrBits ≤ 2 ^ g.maxAddrBits :=
  Nat.pow_le_pow_right Nat.two_pos (le_max_right _ _)

end Geometry

/-- The fields of a local address, `data` being the row bits. -/
structure LocalAddr where
  isAccAddr : Bool
  accumulate : Bool
  readFullAccRow : Bool
  normCmd : Nat
  garbageBit : Bool
  data : Nat
  deriving DecidableEq, Repr

namespace LocalAddr

variable (g : Geometry)

/-- `asTypeOf(local_addr_t)`: the fields of the low word of an operand, the first one on top. -/
def ofWord (x : BitVec 64) : LocalAddr where
  isAccAddr := bit x 31
  accumulate := bit x 30
  readFullAccRow := bit x 29
  normCmd := slice x 26 3
  garbageBit := bit x g.maxAddrBits
  data := slice x 0 g.maxAddrBits

def fullSpAddr (a : LocalAddr) : Nat := a.data % 2 ^ g.spAddrBits
def fullAccAddr (a : LocalAddr) : Nat := a.data % 2 ^ g.accAddrBits

def accBank (a : LocalAddr) : Nat := a.data % 2 ^ g.accAddrBits / 2 ^ g.accBankRowBits

/-- The row within its bank, `acc_row`. -/
def accRow (a : LocalAddr) : Nat := a.data % 2 ^ g.accBankRowBits

def row (a : LocalAddr) : Nat := a.data % 2 ^ g.addrBits a.isAccAddr

def isGarbage (a : LocalAddr) : Bool :=
  a.isAccAddr && a.accumulate && a.readFullAccRow && a.data == 2 ^ g.maxAddrBits - 1 && a.garbageBit

/-- `LocalAddr.+`: the row bits wrap. -/
def add (a : LocalAddr) (n : Nat) : LocalAddr :=
  { a with data := (a.data + n) % 2 ^ g.maxAddrBits }

/-- `LocalAddr.<=`. -/
def le (a b : LocalAddr) : Bool :=
  a.isAccAddr == b.isAccAddr &&
    if a.isAccAddr then a.fullAccAddr g ≤ b.fullAccAddr g else a.fullSpAddr g ≤ b.fullSpAddr g

/-- `LocalAddr.<`. -/
def lt (a b : LocalAddr) : Bool :=
  a.isAccAddr == b.isAccAddr &&
    if a.isAccAddr then a.fullAccAddr g < b.fullAccAddr g else a.fullSpAddr g < b.fullSpAddr g

/-- `add_with_overflow`: the wrapped sum, and the carry bit out of the named memory. -/
def addWithOverflow (a : LocalAddr) (n : Nat) : LocalAddr × Bool :=
  ({ a with data := (a.data + n) % 2 ^ g.maxAddrBits },
    if a.isAccAddr then (a.data + n).testBit g.accAddrBits else (a.data + n).testBit g.spAddrBits)

/-- `floorSub`: the difference, or the floor where it would fall below it. -/
def floorSub (a : LocalAddr) (n floor : Nat) : LocalAddr × Bool :=
  let underflow := decide (a.data < floor + n)
  ({ a with data := (if underflow then floor else a.data - n) % 2 ^ g.maxAddrBits }, underflow)

variable {g}

theorem le_iff {a b : LocalAddr} :
    a.le g b = true ↔ a.isAccAddr = b.isAccAddr ∧ a.row g ≤ b.row g := by
  unfold le row fullAccAddr fullSpAddr Geometry.addrBits
  rw [Bool.and_eq_true, beq_iff_eq]
  refine and_congr_right fun same => ?_
  rw [← same]
  cases a.isAccAddr <;> simp

theorem lt_iff {a b : LocalAddr} :
    a.lt g b = true ↔ a.isAccAddr = b.isAccAddr ∧ a.row g < b.row g := by
  unfold lt row fullAccAddr fullSpAddr Geometry.addrBits
  rw [Bool.and_eq_true, beq_iff_eq]
  refine and_congr_right fun same => ?_
  rw [← same]
  cases a.isAccAddr <;> simp

end LocalAddr

end Gemmini
