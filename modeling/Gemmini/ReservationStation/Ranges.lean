import Gemmini.ArrayConfig
import Gemmini.ReservationStation.Hazards

/-!
# Which rows a recorded range covers

A range of `rows` rows from a row of a memory covers the rows at the offsets below `rows`, also when
it runs past the end of the memory once.
-/

namespace Gemmini

theorem testBit_of_lt_double {x b : ℕ} (small : x < 2 * 2 ^ b) :
    x.testBit b = decide (2 ^ b ≤ x) := by
  rw [Nat.testBit_eq_decide_div_mod_eq]
  rcases Nat.lt_or_ge x (2 ^ b) with below | above
  · have quotient : x / 2 ^ b = 0 := Nat.div_eq_of_lt below
    simp [quotient, below]
  · have quotient : x / 2 ^ b = 1 := Nat.div_eq_of_lt_le (by omega) (by omega)
    simp [quotient, above]

theorem mod_of_lt_double {x m : ℕ} (small : x < 2 * m) :
    x % m = if x < m then x else x - m := by
  split_ifs with below
  · exact Nat.mod_eq_of_lt below
  · rw [Nat.mod_eq_sub_mod (by omega), Nat.mod_eq_of_lt (by omega)]

namespace LocalAddr

variable {g : Geometry}

theorem addrBits_le (isAcc : Bool) : g.addrBits isAcc ≤ g.maxAddrBits := by
  cases isAcc
  · exact le_max_left _ _
  · exact le_max_right _ _

theorem row_of_lt {a : LocalAddr} (named : a.data < 2 ^ g.addrBits a.isAccAddr) :
    a.row g = a.data := Nat.mod_eq_of_lt named

theorem row_add (a : LocalAddr) (n : Nat) :
    (a.add g n).row g = (a.data + n) % 2 ^ g.addrBits a.isAccAddr :=
  Nat.mod_mod_of_dvd _ (pow_dvd_pow 2 (addrBits_le a.isAccAddr))

@[simp] theorem add_isAccAddr (a : LocalAddr) (n : Nat) : (a.add g n).isAccAddr = a.isAccAddr := rfl

theorem overflow_of_lt {a : LocalAddr} {n : Nat}
    (small : a.data + n < 2 * 2 ^ g.addrBits a.isAccAddr) :
    (a.addWithOverflow g n).2 = decide (2 ^ g.addrBits a.isAccAddr ≤ a.data + n) := by
  rw [← testBit_of_lt_double small]
  unfold addWithOverflow Geometry.addrBits
  cases a.isAccAddr <;> rfl

end LocalAddr

namespace ReservationStation

section

variable {g : Geometry} {start : LocalAddr} {rows : Nat} (clean : start.isGarbage g = false)
  (named : start.data < 2 ^ g.addrBits start.isAccAddr)
include clean named

theorem rangeFrom_hasRow_iff (once : start.data + rows < 2 * 2 ^ g.addrBits start.isAccAddr) (o : Nat) :
    (rangeFrom g start rows).HasRow g start.isAccAddr
        ((start.data + o) % 2 ^ g.addrBits start.isAccAddr) ↔
      o % 2 ^ g.addrBits start.isAccAddr < rows := by
  have first : (rangeFrom g start rows).start.row g = start.data := LocalAddr.row_of_lt named
  have stop : (rangeFrom g start rows).stop.row g =
      (start.data + rows) % 2 ^ g.addrBits start.isAccAddr := LocalAddr.row_add start rows
  have wraps : (rangeFrom g start rows).wrapsAround =
      decide (2 ^ g.addrBits start.isAccAddr ≤ start.data + rows) := LocalAddr.overflow_of_lt once
  unfold OpT.HasRow
  rw [first, stop, wraps]
  have clean' : (rangeFrom g start rows).start.isGarbage g = false := clean
  have same : (rangeFrom g start rows).start.isAccAddr = start.isAccAddr := rfl
  have same' : (rangeFrom g start rows).stop.isAccAddr = start.isAccAddr := rfl
  simp only [clean', same, same', true_and, decide_eq_true_eq]
  -- only the offset within the memory matters
  rw [Nat.add_mod start.data o, Nat.mod_eq_of_lt named]
  generalize hsize : 2 ^ g.addrBits start.isAccAddr = size at *
  have size_pos : 0 < size := hsize ▸ Nat.two_pow_pos _
  have offset := Nat.mod_lt o size_pos
  generalize o % size = o' at *
  rw [mod_of_lt_double (show start.data + o' < 2 * size by omega), mod_of_lt_double once]
  split_ifs <;> omega

theorem rangeFrom_hasRow_of_le (inside : start.data + rows ≤ 2 ^ g.addrBits start.isAccAddr) {n : Nat}
    (row : n < 2 ^ g.addrBits start.isAccAddr) :
    (rangeFrom g start rows).HasRow g start.isAccAddr n ↔
      start.data ≤ n ∧ n < start.data + rows := by
  have once : start.data + rows < 2 * 2 ^ g.addrBits start.isAccAddr := by
    omega
  have offset := rangeFrom_hasRow_iff clean named once
  rcases Nat.lt_or_ge n start.data with before | after
  · have back := offset (n + 2 ^ g.addrBits start.isAccAddr - start.data)
    rw [show start.data + (n + 2 ^ g.addrBits start.isAccAddr - start.data) =
        n + 2 ^ g.addrBits start.isAccAddr by omega, Nat.add_mod_right, Nat.mod_eq_of_lt row,
      Nat.mod_eq_of_lt (by omega)] at back
    rw [back]
    omega
  · have ahead := offset (n - start.data)
    rw [show start.data + (n - start.data) = n by omega, Nat.mod_eq_of_lt row,
      Nat.mod_eq_of_lt (by omega)] at ahead
    rw [ahead]
    omega

end

/-- A range that ends by the end of its memory: its end address and its overflow bit, taken together,
are its end. -/
theorem below_stop_iff {g : Geometry} {a x : LocalAddr} {m : Nat}
    (inside : a.data + m ≤ 2 ^ g.addrBits a.isAccAddr) (same : x.isAccAddr = a.isAccAddr)
    (named : x.data < 2 ^ g.addrBits x.isAccAddr) :
    (x.lt g (rangeFrom g a m).stop || (rangeFrom g a m).wrapsAround) = true ↔
      x.data < a.data + m := by
  have stop : (rangeFrom g a m).stop.row g = (a.data + m) % 2 ^ g.addrBits a.isAccAddr :=
    LocalAddr.row_add a m
  have wraps : (rangeFrom g a m).wrapsAround = decide (2 ^ g.addrBits a.isAccAddr ≤ a.data + m) :=
    LocalAddr.overflow_of_lt (by have := Nat.two_pow_pos (g.addrBits a.isAccAddr); omega)
  have memory : x.isAccAddr = (rangeFrom g a m).stop.isAccAddr := same
  rw [Bool.or_eq_true, LocalAddr.lt_iff, stop, wraps, decide_eq_true_eq, LocalAddr.row_of_lt named]
  simp only [memory, true_and]
  rw [same] at named
  rcases Nat.eq_or_lt_of_le inside with whole | short
  · rw [whole, Nat.mod_self]
    omega
  · rw [Nat.mod_eq_of_lt short]
    omega

theorem rows_le (g : Geometry) (isAcc : Bool) :
    (if isAcc then g.accRows else g.spRows) ≤ 2 ^ g.addrBits isAcc := by
  cases isAcc
  · exact le_two_pow_log2Ceil _
  · exact le_two_pow_log2Ceil _

/-- Two ranges that end by the end of their memory overlap exactly if they are in one memory and share
a row; the end address of a range up to the last row has wrapped. -/
theorem overlaps_iff_common_row {g : Geometry} {a b : LocalAddr} {m n : Nat}
    (clean : a.isGarbage g = false) (clean' : b.isGarbage g = false) (pos : 0 < m) (pos' : 0 < n)
    (inside : a.data + m ≤ if a.isAccAddr then g.accRows else g.spRows)
    (inside' : b.data + n ≤ if b.isAccAddr then g.accRows else g.spRows) :
    (rangeFrom g a m).overlaps g (rangeFrom g b n) = true ↔
      a.isAccAddr = b.isAccAddr ∧
        ∃ r, (a.data ≤ r ∧ r < a.data + m) ∧ (b.data ≤ r ∧ r < b.data + n) := by
  have fits := inside.trans (rows_le g a.isAccAddr)
  have fits' := inside'.trans (rows_le g b.isAccAddr)
  have named : a.data < 2 ^ g.addrBits a.isAccAddr := by omega
  have named' : b.data < 2 ^ g.addrBits b.isAccAddr := by omega
  have starts : (rangeFrom g a m).start = a ∧ (rangeFrom g b n).start = b := ⟨rfl, rfl⟩
  simp only [OpT.overlaps, starts, clean, clean', Bool.or_self, Bool.not_false, Bool.and_true]
  rw [Bool.or_eq_true, Bool.and_eq_true, Bool.and_eq_true, LocalAddr.le_iff, LocalAddr.le_iff,
    LocalAddr.row_of_lt named, LocalAddr.row_of_lt named']
  constructor
  · rintro (⟨⟨same, le⟩, below⟩ | ⟨⟨same, le⟩, below⟩)
    · have := (below_stop_iff fits' same.symm named).mp below
      exact ⟨same.symm, a.data, by omega, by omega⟩
    · have := (below_stop_iff fits same.symm named').mp below
      exact ⟨same, b.data, by omega, by omega⟩
  · rintro ⟨same, r, ha, hb⟩
    rcases Nat.le_total b.data a.data with le | le
    · exact .inl ⟨⟨same.symm, le⟩, (below_stop_iff fits' same named).mpr (by omega)⟩
    · exact .inr ⟨⟨same, le⟩, (below_stop_iff fits same.symm named').mpr (by omega)⟩

theorem last_row_overlaps :
    let g : Geometry := ⟨2, 4, 2, 2⟩
    (rangeFrom g ⟨false, false, false, 0, false, 6⟩ 2).stop.row g = 0 ∧
      (rangeFrom g ⟨false, false, false, 0, false, 6⟩ 2).overlaps g
        (rangeFrom g ⟨false, false, false, 0, false, 7⟩ 1) = true :=
  ⟨by decide, (overlaps_iff_common_row (by decide) (by decide) (by decide) (by decide) (by decide)
    (by decide)).mpr ⟨rfl, 7, by decide⟩⟩

/-- The length of the range of a move, if the widths hold the fields and a row field is not wider
than a column field. -/
theorem totalRows_eq {dim colsBits rowsBits strideBits cols stride rows : Nat} (pos : 0 < dim)
    (cols_pos : 0 < cols) (cols_lt : cols < 2 ^ colsBits) (stride_lt : stride < 2 ^ strideBits)
    (rows_lt : rows < 2 ^ rowsBits) (narrow : rowsBits ≤ colsBits) :
    totalRows dim colsBits rowsBits strideBits cols stride rows =
      (blocksOf dim cols - 1) * stride + rows := by
  have mats_pos := blocksOf_pos pos cols_pos
  have mats_le := blocksOf_le pos cols
  have mats_lt : blocksOf dim cols < 2 ^ colsBits := by omega
  have product : (blocksOf dim cols - 1) * stride + rows < 2 ^ (colsBits + strideBits) := by
    have rows_lt' := rows_lt.trans_le (Nat.pow_le_pow_right Nat.two_pos narrow)
    rw [Nat.pow_add]
    calc (blocksOf dim cols - 1) * stride + rows
        ≤ (2 ^ colsBits - 2) * (2 ^ strideBits - 1) + rows :=
          Nat.add_le_add_right (Nat.mul_le_mul (by omega) (by omega)) rows
      _ < 2 ^ colsBits * 2 ^ strideBits := by
          obtain ⟨a, ha⟩ : ∃ a, 2 ^ colsBits = a + 2 := ⟨2 ^ colsBits - 2, by omega⟩
          obtain ⟨b, hb⟩ : ∃ b, 2 ^ strideBits = b + 1 :=
            ⟨2 ^ strideBits - 1, by have := Nat.two_pow_pos strideBits; omega⟩
          rw [ha] at rows_lt'
          rw [ha, hb, Nat.add_sub_cancel, Nat.add_sub_cancel, Nat.add_mul, Nat.mul_succ]
          omega
  have wide := product.trans_le (Nat.pow_le_pow_right Nat.two_pos
    (le_max_left (colsBits + strideBits) rowsBits))
  unfold totalRows
  change ((blocksOf dim cols % 2 ^ colsBits + 2 ^ colsBits - 1) % 2 ^ colsBits * stride + rows) % _
    = _
  rw [Nat.mod_eq_of_lt mats_lt, show blocksOf dim cols + 2 ^ colsBits - 1 =
    blocksOf dim cols - 1 + 2 ^ colsBits by omega, Nat.add_mod_right,
    Nat.mod_eq_of_lt (show blocksOf dim cols - 1 < 2 ^ colsBits by omega), Nat.mod_eq_of_lt wide]

end ReservationStation

end Gemmini
