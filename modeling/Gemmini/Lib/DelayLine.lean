import Mathlib.Tactic

/-!
# Chains of registers

A chain of registers in which each captures the value of the one before it; a capture may keep (parts
of) the old value, as a clock-gated stage does.  The value that enters is seen `n` cycles later behind
`n` registers, up to whatever relation the captures respect.
-/

namespace Gemmini.Line

variable {α : Type*}

/-- One clock edge: register `k + 1` captures the value of register `k`, the first one the input. -/
def next (f : α → α → α) (l : ℕ → α) (x : α) : ℕ → α
  | 0 => f (l 0) x
  | k + 1 => f (l (k + 1)) (l k)

def shift (l : ℕ → α) (x : α) : ℕ → α := next (fun _ y => y) l x

/-- The signal behind `n` registers. -/
def tap (n : ℕ) (l : ℕ → α) (x : α) : α :=
  match n with
  | 0 => x
  | k + 1 => l k

section Runs

variable {f : α → α → α} {l : ℕ → ℕ → α} {x : ℕ → α} (steps : ∀ t, l (t + 1) = next f (l t) (x t))
include steps

/-- What enters at `t` is related to what the tap behind `n` registers shows at `t + n`. -/
theorem tap_related {A : α → α → Prop}
    (refl : ∀ y, A y y) (captured : ∀ y z old, A y z → A y (f old z)) (n t : ℕ) :
    A (x t) (tap n (l (t + n)) (x (t + n))) := by
  cases n with
  | zero => exact refl _
  | succ k =>
    show A (x t) (l (t + (k + 1)) k)
    induction k with
    | zero =>
      rw [steps t]
      exact captured _ _ _ (refl _)
    | succ k ih =>
      rw [show t + (k + 1 + 1) = t + (k + 1) + 1 by omega, steps]
      exact captured _ _ _ ih

/-- Until the first input arrives, the tap shows what the registers held at the start. -/
theorem tap_initial {Q : α → Prop}
    (initial : ∀ k, Q (l 0 k)) (captured : ∀ z old, Q z → Q (f old z)) {n t : ℕ}
    (early : t < n) : Q (tap n (l t) (x t)) := by
  have held : ∀ t k, t ≤ k → Q (l t k) := by
    intro t
    induction t with
    | zero => exact fun k _ => initial k
    | succ t ih =>
      intro k hk
      obtain ⟨j, rfl⟩ : ∃ j, k = j + 1 := ⟨k - 1, by omega⟩
      rw [steps]
      exact captured _ _ (ih j (by omega))
  obtain ⟨k, rfl⟩ : ∃ k, n = k + 1 := ⟨n - 1, by omega⟩
  exact held t k (by omega)

/-- From the cycle in which a marked value comes through, every value shown is a good one, if only good
ones enter. -/
theorem tap_since {Q V : α → Prop} {s : ℕ}
    (good : ∀ t, s ≤ t → Q (x t)) (marked : V (x s))
    (captured : ∀ old y, Q y → V y ∨ Q old → Q (f old y)) (passed : ∀ old y, V y → V (f old y))
    (n : ℕ) : V (tap n (l (s + n)) (x (s + n))) ∧ ∀ t, s + n ≤ t → Q (tap n (l t) (x t)) := by
  cases n with
  | zero => exact ⟨marked, good⟩
  | succ k =>
    -- the induction over cycles starts when the marked value reaches the register
    have since : ∀ k (y : ℕ → α), (∀ t, l (t + 1) k = f (l t k) (y t)) →
        V (y (s + k)) → (∀ t, s + k ≤ t → Q (y t)) →
        V (l (s + (k + 1)) k) ∧ ∀ t, s + (k + 1) ≤ t → Q (l t k) := by
      intro k y taken reached fine
      have first : l (s + (k + 1)) k = f (l (s + k) k) (y (s + k)) := taken (s + k)
      refine ⟨by rw [first]; exact passed _ _ reached, fun t late => ?_⟩
      induction t, late using Nat.le_induction with
      | base =>
        rw [first]
        exact captured _ _ (fine _ le_rfl) (.inl reached)
      | succ t late ih =>
        rw [taken]
        exact captured _ _ (fine t (by omega)) (.inr ih)
    show V (l (s + (k + 1)) k) ∧ ∀ t, s + (k + 1) ≤ t → Q (l t k)
    induction k with
    | zero => exact since 0 x (fun t => by rw [steps]; rfl) marked good
    | succ k ih => exact since (k + 1) (fun t => l t k) (fun t => by rw [steps]; rfl) ih.1 ih.2

omit steps

theorem tap_shift (steps : ∀ t, l (t + 1) = shift (l t) (x t)) (n t : ℕ) :
    tap n (l (t + n)) (x (t + n)) = x t :=
  (tap_related (A := Eq) steps (fun _ => rfl) (fun _ _ _ h => h) n t).symm

/-- A property of its initial contents and of its inputs holds at the tap of a shift register. -/
theorem tap_shift_cases {Q : α → Prop} (steps : ∀ t, l (t + 1) = shift (l t) (x t))
    (initial : ∀ k, Q (l 0 k)) {n t : ℕ} (input : n ≤ t → Q (x (t - n))) :
    Q (tap n (l t) (x t)) := by
  rcases Nat.lt_or_ge t n with early | late
  · exact tap_initial steps initial (fun _ _ h => h) early
  · have delayed := tap_shift steps n (t - n)
    rw [Nat.sub_add_cancel late] at delayed
    rw [delayed]
    exact input late

end Runs

end Gemmini.Line
