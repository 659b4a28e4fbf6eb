import Mathlib.Order.Basic

/-!
# Synchronous machines

Registers that start in one of the reset states and take one step for every clock cycle, under inputs
which the environment may restrict.  The induction over cycles is made here once.
-/

namespace Gemmini

/-- Registers `σ` driven by the inputs `ι` of one clock cycle. -/
structure Machine (σ ι : Type*) where
  /-- The states in which the registers may leave reset. -/
  init : σ → Prop
  /-- The inputs that the environment may present in a state. -/
  legal : σ → ι → Prop
  /-- The registers after the clock edge. -/
  step : σ → ι → σ

namespace Machine

variable {σ ι : Type*} {M : Machine σ ι}

inductive Reachable (M : Machine σ ι) : σ → Prop
  | init {s : σ} : M.init s → Reachable M s
  | step {s : σ} {i : ι} : Reachable M s → M.legal s i → Reachable M (M.step s i)

/-- A property of the reset states that every legal cycle of a run keeps holds in every run. -/
theorem Reachable.invariant {P : σ → Prop} (initial : ∀ s, M.init s → P s)
    (preserved : ∀ s i, M.Reachable s → P s → M.legal s i → P (M.step s i)) {s : σ}
    (reach : M.Reachable s) : P s := by
  induction reach with
  | init h => exact initial _ h
  | step reach h ih => exact preserved _ _ reach ih h

/-- The same machine in an environment that also meets a condition in every cycle. -/
def restrict (M : Machine σ ι) (C : σ → ι → Prop) : Machine σ ι where
  init := M.init
  legal s i := M.legal s i ∧ C s i
  step := M.step

theorem Reachable.of_restrict {C : σ → ι → Prop} {s : σ} (reach : (M.restrict C).Reachable s) :
    M.Reachable s := by
  induction reach with
  | init h => exact .init h
  | step _ h ih => exact ih.step h.1

def run (M : Machine σ ι) : σ → List ι → σ
  | s, [] => s
  | s, i :: is => M.run (M.step s i) is

@[simp] theorem restrict_run (C : σ → ι → Prop) (s : σ) (is : List ι) :
    (M.restrict C).run s is = M.run s is := by
  induction is generalizing s with
  | nil => rfl
  | cons i is ih => exact ih (M.step s i)

def LegalRun (M : Machine σ ι) : σ → List ι → Prop
  | _, [] => True
  | s, i :: is => M.legal s i ∧ M.LegalRun (M.step s i) is

instance decidableLegalRun [∀ s i, Decidable (M.legal s i)] :
    ∀ s is, Decidable (M.LegalRun s is)
  | _, [] => inferInstanceAs (Decidable True)
  | s, i :: is =>
    have := decidableLegalRun (M.step s i) is
    inferInstanceAs (Decidable (M.legal s i ∧ M.LegalRun (M.step s i) is))

instance {C : σ → ι → Prop} [∀ s i, Decidable (M.legal s i)] [∀ s i, Decidable (C s i)] (s : σ)
    (i : ι) : Decidable ((M.restrict C).legal s i) :=
  inferInstanceAs (Decidable (M.legal s i ∧ C s i))

theorem Reachable.run {s : σ} (reach : M.Reachable s) (is : List ι) (legal : M.LegalRun s is) :
    M.Reachable (M.run s is) := by
  induction is generalizing s with
  | nil => exact reach
  | cons i is ih => exact ih (reach.step legal.1) legal.2

/-- An endless run, cycle by cycle. -/
structure Trace (M : Machine σ ι) where
  state : ℕ → σ
  input : ℕ → ι
  init : M.init (state 0)
  legal : ∀ t, M.legal (state t) (input t)
  step : ∀ t, state (t + 1) = M.step (state t) (input t)

def Trace.ofInputs (M : Machine σ ι) (s : σ) (input : ℕ → ι) : ℕ → σ
  | 0 => s
  | t + 1 => M.step (ofInputs M s input t) (input t)

end Machine

end Gemmini
