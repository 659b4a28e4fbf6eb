import Mathlib.Algebra.BigOperators.Intervals
import Mathlib.Algebra.BigOperators.ModEq
import Mathlib.Data.Int.ModEq
import Mathlib.Tactic

/-!
# Signed words

The value of a `w`-bit two's complement word.  Connecting a value to a word of another width
keeps it modulo the power of two, so chains of additions can be read as one sum that is wrapped
once at the end.
-/

namespace Gemmini

/-- The value that a `w`-bit signed word takes when it is connected to `x`. -/
def sint (w : ℕ) (x : ℤ) : ℤ := Int.bmod x (2 ^ w)

/-- `asTypeOf`: the low bits of an `m`-bit word, zero-extended if need be, read as `w` signed bits. -/
def asType (m w : ℕ) (x : ℤ) : ℤ := sint w (x % 2 ^ m)

theorem sint_modEq (w : ℕ) (x : ℤ) : sint w x ≡ x [ZMOD 2 ^ w] := by
  have h := Int.bmod_emod (x := x) (m := 2 ^ w)
  push_cast at h
  exact h

theorem sint_eq_iff {w : ℕ} {x y : ℤ} : sint w x = sint w y ↔ x ≡ y [ZMOD 2 ^ w] := by
  constructor
  · intro h
    exact (sint_modEq w x).symm.trans (h ▸ sint_modEq w y)
  · intro h
    unfold sint
    rw [← Int.emod_bmod x, ← Int.emod_bmod y]
    push_cast
    rw [h]

@[simp] theorem sint_sint (w : ℕ) (x : ℤ) : sint w (sint w x) = sint w x :=
  sint_eq_iff.mpr (sint_modEq w x)

theorem sint_of_range {w : ℕ} {x : ℤ} (low : -2 ^ w ≤ x) (high : x < 2 ^ w) :
    sint (w + 1) x = x := by
  have double : ((2 ^ (w + 1) : ℕ) : ℤ) = 2 * 2 ^ w := by
    push_cast
    ring
  apply Int.bmod_eq_of_le_mul_two <;> omega

theorem modEq_of_width_le {v w : ℕ} (h : v ≤ w) {x y : ℤ} (hxy : x ≡ y [ZMOD 2 ^ w]) :
    x ≡ y [ZMOD 2 ^ v] :=
  hxy.of_dvd (pow_dvd_pow 2 h)

theorem sint_modEq_of_le {v w : ℕ} (h : v ≤ w) (x : ℤ) : sint w x ≡ x [ZMOD 2 ^ v] :=
  modEq_of_width_le h (sint_modEq w x)

theorem sint_of_narrow {v w : ℕ} (h : v ≤ w) (x : ℤ) : sint w (sint v x) = sint v x := by
  have low := Int.le_bmod (x := x) (m := 2 ^ v) (by positivity)
  have high := Int.bmod_lt (x := x) (m := 2 ^ v) (by positivity)
  have grow : 2 ^ v ≤ 2 ^ w := Nat.pow_le_pow_right (by decide) h
  unfold sint
  apply Int.bmod_eq_of_le
  · omega
  · omega

theorem sint_toInt (w : ℕ) (x : BitVec w) : sint w x.toInt = x.toInt := by
  unfold sint
  rw [BitVec.toInt_eq_toNat_bmod, Int.bmod_bmod]

/-- The bits of a word that is at least `v` bits wide, seen modulo `2 ^ v`. -/
theorem asType_modEq {v m w : ℕ} (hm : v ≤ m) (hw : v ≤ w) (x : ℤ) :
    asType m w x ≡ x [ZMOD 2 ^ v] := by
  unfold asType
  refine (sint_modEq_of_le hw _).trans ?_
  exact (Int.emod_emod_of_dvd x (pow_dvd_pow 2 hm))

end Gemmini
