import Gemmini.Mesh.OutputStationary
import Gemmini.Simulator.Model

/-!
# The rounding shift as arithmetic

The bits that the processing elements look at decide on which side of a half the dropped part is.
-/

namespace Gemmini.Mesh

open Simulator.State (roundingRightShift)

/-- The nearest integer, the even one of two. -/
def nearestEven (q : ℚ) : ℤ :=
  if q - ⌊q⌋ < 1 / 2 then ⌊q⌋ else if 1 / 2 < q - ⌊q⌋ then ⌊q⌋ + 1 else ⌊q⌋ + ⌊q⌋ % 2

theorem nearestEven_div (x : ℤ) (u : ℕ) : nearestEven (x / 2 ^ u) =
    if 2 * (x % 2 ^ u) < 2 ^ u then x / 2 ^ u
    else if 2 ^ u < 2 * (x % 2 ^ u) then x / 2 ^ u + 1 else x / 2 ^ u + x / 2 ^ u % 2 := by
  have floor : ⌊(x : ℚ) / 2 ^ u⌋ = x / 2 ^ u := by
    have := Rat.floor_intCast_div_natCast x (2 ^ u)
    push_cast at this
    exact this
  have pos : (0 : ℚ) < 2 ^ u := by positivity
  have split : (x : ℚ) = 2 ^ u * (x / 2 ^ u : ℤ) + (x % 2 ^ u : ℤ) := by
    exact_mod_cast (Int.mul_ediv_add_emod x (2 ^ u)).symm
  have part : (x : ℚ) / 2 ^ u - (x / 2 ^ u : ℤ) = (x % 2 ^ u : ℤ) / 2 ^ u := by
    field_simp
    linarith
  have below : ((x % 2 ^ u : ℤ) : ℚ) / 2 ^ u < 1 / 2 ↔ 2 * (x % 2 ^ u) < 2 ^ u := by
    rw [div_lt_div_iff₀ pos two_pos, one_mul, mul_comm]
    exact_mod_cast Iff.rfl
  have above : 1 / 2 < ((x % 2 ^ u : ℤ) : ℚ) / 2 ^ u ↔ 2 ^ u < 2 * (x % 2 ^ u) := by
    rw [div_lt_div_iff₀ two_pos pos, one_mul, mul_comm]
    exact_mod_cast Iff.rfl
  simp only [nearestEven, floor, part, below, above]

theorem emod_two_pow_succ (x : ℤ) (v : ℕ) :
    x % 2 ^ (v + 1) = x % 2 ^ v + 2 ^ v * (x / 2 ^ v % 2) := by
  have whole : x / 2 ^ (v + 1) = x / 2 ^ v / 2 := by
    rw [pow_succ, Int.ediv_ediv_of_nonneg (by positivity)]
  rw [Int.emod_def, whole, Int.emod_def (x / 2 ^ v), Int.emod_def x, pow_succ]
  ring

theorem sticky_iff (x : ℤ) (v : ℕ) : (1 < v + 1 ∧ x % 2 ^ v ≠ 0) ↔ x % 2 ^ v ≠ 0 := by
  refine and_iff_right_of_imp fun some => ?_
  cases v with
  | zero => simp at some
  | succ v => omega

theorem roundingShift_eq (x : ℤ) (u : ℕ) : roundingShift x u = nearestEven (x / 2 ^ u) := by
  rw [nearestEven_div]
  cases u with
  | zero => simp [roundingShift]
  | succ v =>
    simp only [roundingShift, emod_two_pow_succ, Nat.add_sub_cancel, ← Bool.decide_and,
      ← Bool.decide_or, decide_eq_true_eq, sticky_iff]
    rcases Int.emod_two_eq (x / 2 ^ v) with half | half
    · rw [half, if_neg (by simp), if_pos (by omega)]
      omega
    · rw [half]
      split_ifs <;> omega

section Word

variable {w : ℕ} (x : BitVec w) {i : ℕ}

theorem toInt_emod (le : i ≤ w) : x.toInt % 2 ^ i = x.toNat % 2 ^ i := by
  rw [BitVec.toInt_eq_toNat_bmod]
  exact sint_modEq_of_le le _

theorem getLsbD_iff (lt : i < w) : x.getLsbD i = true ↔ x.toInt / 2 ^ i % 2 ≠ 0 := by
  have bit : (2 : ℤ) ^ i * (x.toInt / 2 ^ i % 2) = 2 ^ i * (x.toNat / 2 ^ i % 2) := by
    have next := toInt_emod x lt
    rw [emod_two_pow_succ, emod_two_pow_succ, toInt_emod x lt.le] at next
    exact add_left_cancel next
  rw [mul_left_cancel₀ (by positivity) bit, ← BitVec.testBit_toNat, Nat.testBit_eq_decide_div_mod_eq,
    decide_eq_true_eq]
  norm_cast
  omega

theorem sshiftRight_toInt (u : ℕ) : (x.sshiftRight u).toInt = x.toInt / 2 ^ u := by
  rw [BitVec.toInt_sshiftRight, Int.shiftRight_eq_div_pow]
  push_cast
  rfl

end Word

theorem toInt_roundingRightShift (x : BitVec 32) {u : ℕ} (lt : u < 32) :
    (roundingRightShift x u).toInt = roundingShift x.toInt u := by
  have fits : Representable 32 x.toInt := ⟨BitVec.le_toInt x, by have := BitVec.toInt_lt (x := x); omega⟩
  cases u with
  | zero => simp [roundingRightShift, roundingShift]
  | succ v =>
    have zeros : x &&& (BitVec.ofNat 32 (2 ^ v) - 1) ≠ 0 ↔ x.toInt % 2 ^ v ≠ 0 := by
      have small : 2 ^ v < 2 ^ 32 := Nat.pow_lt_pow_right (by decide) (by omega)
      have mask : (BitVec.ofNat 32 (2 ^ v) - 1).toNat = 2 ^ v - 1 := by
        have := Nat.two_pow_pos v
        rw [BitVec.toNat_sub_of_le, BitVec.toNat_ofNat, Nat.mod_eq_of_lt small]
        · rfl
        · rw [BitVec.le_def, BitVec.toNat_ofNat, Nat.mod_eq_of_lt small]
          exact this
      rw [toInt_emod x (by omega), Ne, ← BitVec.toNat_inj, BitVec.toNat_and, mask,
        Nat.and_two_pow_sub_one_eq_mod]
      norm_cast
    have ones : (x.sshiftRight (v + 1)).getLsbD 0 = true ↔ x.toInt / 2 ^ (v + 1) % 2 ≠ 0 := by
      rw [getLsbD_iff _ (by decide), sshiftRight_toInt, pow_zero, Int.ediv_one]
    rw [← (fits.roundingShift _).sint_eq (by decide), sint]
    simp only [roundingRightShift, roundingShift, Nat.add_one_ne_zero, if_false, BitVec.toInt_add,
      sshiftRight_toInt, Nat.add_sub_cancel, zeros, ones, getLsbD_iff x (Nat.lt_of_succ_lt lt),
      ← Bool.decide_and, ← Bool.decide_or, decide_eq_true_eq, ne_eq, not_false_eq_true, true_and,
      apply_ite BitVec.toInt]
    rfl

theorem clipped_of_wide {n : ℕ} (wide : 32 < n) :
    clipped n (2 ^ (n - 1) - 1) ≠ 2 ^ (n - 1) - 1 := by
  have large : (2 : ℤ) ^ 32 ≤ 2 ^ (n - 1) := pow_le_pow_right₀ (by decide) (by omega)
  have maxsat := representable_sint (w := 32) (by decide) (sint 32 (2 ^ ((n - 1) % 32)) - 1)
  unfold Representable at maxsat
  rw [clipped, if_pos (by omega), Representable.sint_eq (by omega) ⟨by omega, by omega⟩]
  omega

/-- Clipping to a width beyond that of Scala's `Int` goes wrong. -/
theorem rounds_iff {w n : ℕ} (pos : 1 ≤ n) (lt : n < w) :
    ((∀ (x : ℤ) (u : ℕ), Representable w x → u < w →
      clipped n (sint w (roundingShift x u)) = saturate n (nearestEven (x / 2 ^ u))) ↔ n ≤ 32) ∧
    ∀ (value : BitVec 32) (u : ℕ), u < 32 →
      clipped 8 (sint 32 (roundingShift value.toInt u)) =
        (Simulator.saturate (roundingRightShift value u)).toInt := by
  refine ⟨⟨?_, ?_⟩, ?_⟩
  · intro right
    by_contra wide
    have half : (0 : ℤ) < 2 ^ (n - 1) := by positivity
    have grows : (2 : ℤ) ^ (n - 1) ≤ 2 ^ (w - 1) := pow_le_pow_right₀ (by decide) (by omega)
    have narrow : Representable n (2 ^ (n - 1) - 1) := ⟨by omega, le_rfl⟩
    have fits : Representable w (2 ^ (n - 1) - 1) := ⟨by omega, by omega⟩
    have at_zero := right _ 0 fits (by omega)
    rw [← roundingShift_eq, roundingShift_zero, fits.sint_eq (by omega), narrow.saturate_eq] at at_zero
    exact clipped_of_wide (by omega) at_zero
  · intro le x u fits _
    rw [(fits.roundingShift u).sint_eq (by omega), clipped_eq pos le, roundingShift_eq]
  · intro value u lt
    rw [← toInt_roundingRightShift value lt, sint_toInt, clipped_eq (by decide) (by decide),
      Simulator.saturate, BitVec.toInt_ofInt]
    exact ((representable_saturate 8 _).sint_eq (by decide)).symm

theorem rounded_to_byte :
    Representable 32 77 ∧
      clipped 8 (sint 32 (roundingShift 77 1)) = saturate 8 (nearestEven ((77 : ℤ) / 2 ^ 1)) := by
  have fits : Representable 32 77 := by decide
  exact ⟨fits, (rounds_iff (by decide) (by decide)).1.mpr (by decide) 77 1 fits (by decide)⟩

/-- The value 5, not shifted and clipped to 33 bits, becomes 0. -/
theorem clipped_to_33_bits :
    Representable 64 5 ∧ clipped 33 (sint 64 (roundingShift 5 0)) = 0 ∧
      saturate 33 (nearestEven ((5 : ℤ) / 2 ^ 0)) = 5 := by
  rw [← roundingShift_eq]
  decide

end Gemmini.Mesh
