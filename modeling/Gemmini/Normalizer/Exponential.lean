import Gemmini.Lib.SInt
import Gemmini.Normalizer.Model
import Gemmini.Simulator.Model

/-!
# The integer exponential

The softmax of the functional model reduces its argument by a multiple of the logarithm of two, takes a
polynomial of what is left and shifts the result.  In `AccumulatorScale.iexp` this is commented out; its
body is the one of `igelu`.
-/

namespace Gemmini.Normalizer

open Simulator.State (applyIexp)

def Fits (x : ℤ) : Prop := -2 ^ 31 ≤ x ∧ x < 2 ^ 31

instance (x : ℤ) : Decidable (Fits x) := inferInstanceAs (Decidable (_ ∧ _))

theorem bmod_of_fits {x : ℤ} (fits : Fits x) : x.bmod (2 ^ 32) = x := by
  obtain ⟨low, high⟩ := fits
  apply Int.bmod_eq_of_le
  · simpa using low
  · simpa using high

section Words

variable {x y : BitVec 32}

theorem toInt_add_of_fits (fits : Fits (x.toInt + y.toInt)) : (x + y).toInt = x.toInt + y.toInt := by
  rw [BitVec.toInt_add, bmod_of_fits fits]

theorem toInt_mul_of_fits (fits : Fits (x.toInt * y.toInt)) : (x * y).toInt = x.toInt * y.toInt := by
  rw [BitVec.toInt_mul, bmod_of_fits fits]

theorem toInt_neg_of_fits (fits : Fits (-x.toInt)) : (-x).toInt = -x.toInt := by
  rw [BitVec.toInt_neg, bmod_of_fits fits]

end Words

/-! ### The functional model -/

variable (q : BitVec 32) (c : IExpConst 32)

/-- How often the logarithm of two goes into `-q`. -/
def shiftAmount : ℤ := -q.toInt * c.qln2Inv.toInt / 2 ^ 16

/-- What is left of `q`, with the constant of the polynomial. -/
def reduced : ℤ := q.toInt + shiftAmount q c * c.qln2.toInt + c.qb.toInt

def exponential : ℤ := (reduced q c * reduced q c + c.qc.toInt) / 2 ^ (shiftAmount q c).toNat

/-- No value of `apply_iexp` nor the negated bound of the hardware needs more than 32 bits, and shifts
are below 32. -/
structure NoOverflow : Prop where
  negated : Fits (-q.toInt)
  scaled : Fits (-q.toInt * c.qln2Inv.toInt)
  shift : 0 ≤ shiftAmount q c ∧ shiftAmount q c < 32
  multiple : Fits (shiftAmount q c * c.qln2.toInt)
  remainder : Fits (q.toInt + shiftAmount q c * c.qln2.toInt)
  argument : Fits (reduced q c)
  square : Fits (reduced q c * reduced q c)
  polynomial : Fits (reduced q c * reduced q c + c.qc.toInt)
  bound : Fits (-c.qb.toInt)

variable {q c}

theorem NoOverflow.toInt_applyIexp (ok : NoOverflow q c) :
    (applyIexp q c.qb c.qc c.qln2 c.qln2Inv).toInt = exponential q c := by
  obtain ⟨z, hz⟩ : ∃ z, z = (-q * c.qln2Inv).sshiftRight 16 := ⟨_, rfl⟩
  have amount : z.toInt = shiftAmount q c := by
    have negated := toInt_neg_of_fits ok.negated
    rw [hz, BitVec.toInt_sshiftRight, toInt_mul_of_fits (by rw [negated]; exact ok.scaled), negated,
      Int.shiftRight_eq_div_pow]
    rfl
  have multiple : (z * c.qln2).toInt = shiftAmount q c * c.qln2.toInt := by
    rw [toInt_mul_of_fits (by rw [amount]; exact ok.multiple), amount]
  have remainder : (q + z * c.qln2).toInt = q.toInt + shiftAmount q c * c.qln2.toInt := by
    rw [toInt_add_of_fits (by rw [multiple]; exact ok.remainder), multiple]
  have whole : (q + z * c.qln2 + c.qb).toInt = reduced q c := by
    rw [toInt_add_of_fits (by rw [remainder]; exact ok.argument), remainder]
    rfl
  have square : ((q + z * c.qln2 + c.qb) * (q + z * c.qln2 + c.qb)).toInt =
      reduced q c * reduced q c := by
    rw [toInt_mul_of_fits (by rw [whole]; exact ok.square), whole]
  have digits : z.toNat = (shiftAmount q c).toNat := by
    have low := ok.shift.1
    rw [← amount] at low ⊢
    rw [BitVec.toInt_eq_toNat_cond] at low ⊢
    split_ifs at low ⊢ with small
    · simp
    · have := z.isLt
      omega
  have shown : applyIexp q c.qb c.qc c.qln2 c.qln2Inv =
      ((q + z * c.qln2 + c.qb) * (q + z * c.qln2 + c.qb) + c.qc).sshiftRight z.toNat := by
    rw [hz]
    rfl
  rw [shown, BitVec.toInt_sshiftRight, toInt_add_of_fits (by rw [square]; exact ok.polynomial), square,
    digits, Int.shiftRight_eq_div_pow]
  simp [exponential]

/-! ### The hardware -/

variable (q c) in
/-- The product that is left of the polynomial of `igelu` where it does not clip, cut to 32 bits. -/
def product : ℤ := sint 32 (-q.toInt * ((c.qb.toInt - q.toInt) * (c.qb.toInt - q.toInt)))

theorem iexp_of_nonpos (nonpos : q.toInt ≤ 0) :
    iexp q c = if (-c.qb).slt (-q) then 0 else -q * ((c.qb - q) * (c.qb - q)) := by
  by_cases neg : q.slt 0 = true
  · simp only [iexp, if_pos neg]
    split_ifs
    · ring
    · ring
  · have zero : q = 0 := by
      have low : 0 ≤ q.toInt := by
        simpa [BitVec.slt_iff_toInt_lt] using neg
      apply BitVec.eq_of_toInt_eq
      simp
      omega
    subst zero
    simp [iexp]

theorem toInt_iexp (nonpos : q.toInt ≤ 0) (negated : Fits (-q.toInt)) (bound : Fits (-c.qb.toInt)) :
    (iexp q c).toInt = if q.toInt < c.qb.toInt then 0 else product q c := by
  rw [iexp_of_nonpos nonpos]
  have compare : (-c.qb).slt (-q) = true ↔ q.toInt < c.qb.toInt := by
    rw [BitVec.slt_iff_toInt_lt, toInt_neg_of_fits negated, toInt_neg_of_fits bound]
    omega
  simp only [compare]
  split_ifs with clips
  · rfl
  · have difference : Fits (c.qb.toInt - q.toInt) := by
      unfold Fits at bound negated ⊢
      omega
    have small : (c.qb - q).toInt = c.qb.toInt - q.toInt := by
      rw [BitVec.toInt_sub, bmod_of_fits difference]
    rw [BitVec.toInt_mul, BitVec.toInt_mul, toInt_neg_of_fits negated, small, product, sint,
      Int.mul_bmod_bmod]

/-! ### The two together -/

/-- The polynomial lies where the shift takes it to the value of the hardware: to zero for every
argument below `qb`, to the product of three factors for the others. -/
def Coincides (q : BitVec 32) (c : IExpConst 32) : Prop :=
  let polynomial := reduced q c * reduced q c + c.qc.toInt
  let scale := 2 ^ (shiftAmount q c).toNat
  if q.toInt < c.qb.toInt then 0 ≤ polynomial ∧ polynomial < scale
  else product q c * scale ≤ polynomial ∧ polynomial < (product q c + 1) * scale

instance (q : BitVec 32) (c : IExpConst 32) : Decidable (Coincides q c) := by
  unfold Coincides
  infer_instance

theorem exponential_eq_iff (x : ℤ) : exponential q c = x ↔
    x * 2 ^ (shiftAmount q c).toNat ≤ reduced q c * reduced q c + c.qc.toInt ∧
      reduced q c * reduced q c + c.qc.toInt < (x + 1) * 2 ^ (shiftAmount q c).toNat := by
  rw [exponential, le_antisymm_iff, ← Int.lt_add_one_iff, Int.ediv_lt_iff_lt_mul (by positivity),
    Int.le_ediv_iff_mul_le (by positivity), and_comm]

/-- On arguments that are not positive the hardware computes the exponential of the functional model
only where the polynomial lies between these bounds. -/
theorem iexp_eq_applyIexp_iff (nonpos : q.toInt ≤ 0) (ok : NoOverflow q c) :
    iexp q c = applyIexp q c.qb c.qc c.qln2 c.qln2Inv ↔ Coincides q c := by
  rw [← BitVec.toInt_inj, toInt_iexp nonpos ok.negated ok.bound, ok.toInt_applyIexp, eq_comm,
    exponential_eq_iff, Coincides]
  split_ifs
  · rw [zero_mul, zero_add, one_mul]
  · rfl

/-- The constants of a softmax whose scale is a thousandth. -/
def thousandths : IExpConst 32 := ⟨1353, 959600, 693, 94⟩

def lowBound : IExpConst 32 := ⟨-3, -12, 1, 1⟩

/-- The exponential of minus twenty-one is zero for both; above `qb` they can agree on another value. -/
theorem iexp_small_agrees :
    NoOverflow (-21000) thousandths ∧ iexp (-21000) thousandths = applyIexp (-21000) 1353 959600 693 94 ∧
      iexp (-1) lowBound = applyIexp (-1) (-3) (-12) 1 1 ∧ iexp (-1) lowBound = 4 := by
  have ok : NoOverflow (-21000) thousandths := by constructor <;> decide
  have above : NoOverflow (-1) lowBound := by constructor <;> decide
  exact ⟨ok, (iexp_eq_applyIexp_iff (by decide) ok).mpr (by decide),
    (iexp_eq_applyIexp_iff (by decide) above).mpr (by decide), by decide⟩

/-- For the exponential of minus one the hardware has zero. -/
theorem iexp_differs : NoOverflow (-1000) thousandths ∧ iexp (-1000) thousandths = 0 ∧
    applyIexp (-1000) 1353 959600 693 94 = 1026858 := by
  refine ⟨?_, by decide, by decide⟩
  constructor <;> decide

end Gemmini.Normalizer
