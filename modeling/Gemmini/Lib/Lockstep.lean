import Gemmini.Lib.Odometer

/-!
# Counters in lockstep

Several counters run through the same rows, and one that is ahead of another waits for it.  Each is kept
as the row it is at, with a flag that tells a counter at its end from one that has not started.  As long
as no counter is more than a row ahead, these registers determine how far each one is.
-/

namespace Gemmini.Lockstep

/-- The row of a counter, and whether it has passed the first one. -/
structure Counter where
  counter : ℕ
  started : Bool
  deriving DecidableEq, Repr

namespace Counter

/-- The row after a row, the first one again after the last. -/
def wrap (total c : ℕ) : ℕ := if c + 1 < total then c + 1 else 0

/-- The registers of a counter that has passed `n` of `total` rows. -/
def after (total n : ℕ) : Counter := ⟨if n < total then n else 0, decide (0 < n)⟩

variable {total m n : ℕ}

@[simp] theorem after_counter_of_lt (h : n < total) : (after total n).counter = n := if_pos h

@[simp] theorem after_counter_self : (after total total).counter = 0 := if_neg (lt_irrefl _)

@[simp] theorem after_started : (after total n).started = decide (0 < n) := rfl

theorem after_succ (h : n < total) :
    after total (n + 1) = ⟨wrap total (after total n).counter, true⟩ := by
  rw [after_counter_of_lt h, wrap, after, decide_eq_true (Nat.succ_pos n)]

/-- A counter is seen to be a row ahead of another one by the registers of the two. -/
theorem ahead_iff (three : 3 ≤ total) (hm : m ≤ total) (hn : n ≤ total) (near : m ≤ n + 1)
    (near' : n ≤ m + 1) :
    ((after total m).started = true ∧
        (after total m).counter = wrap total (after total n).counter) ↔ m = n + 1 := by
  have row (k : ℕ) (hk : k ≤ total) : (after total k).counter = k ∧ k < total ∨
      (after total k).counter = 0 ∧ k = total := by
    rcases hk.lt_or_eq with lt | rfl
    · exact .inl ⟨after_counter_of_lt lt, lt⟩
    · exact .inr ⟨after_counter_self, rfl⟩
  rw [after_started, decide_eq_true_iff, wrap]
  constructor
  · rintro ⟨pos, eq⟩
    rcases row m hm with ⟨cm, m_lt⟩ | ⟨cm, m_eq⟩ <;> rcases row n hn with ⟨cn, n_lt⟩ | ⟨cn, n_eq⟩ <;>
      rw [cm, cn] at eq <;> split_ifs at eq <;> omega
  · rintro rfl
    have n_lt : n < total := hm
    rw [after_counter_of_lt n_lt]
    refine ⟨Nat.succ_pos n, ?_⟩
    split_ifs with inside
    · exact after_counter_of_lt inside
    · rw [show n + 1 = total by omega, after_counter_self]

end Counter

section Family

variable {ι : Type*} {n : ι → ℕ} {total : ℕ}

/-- No counter is more than one row ahead of another. -/
def Together (n : ι → ℕ) : Prop := ∀ i j, n i ≤ n j + 1

/-- Counters of which only those move that are not ahead of another stay together. -/
theorem Together.advance (together : Together n) {moves : ι → Bool}
    (waits : ∀ i, moves i = true → ∀ j, n i ≤ n j) :
    Together fun i => n i + (moves i).toNat := by
  intro i j
  have near := together i j
  show n i + (moves i).toNat ≤ n j + (moves j).toNat + 1
  cases hi : moves i with
  | false => exact (show n i ≤ n j + 1 from near).trans (by omega)
  | true =>
    have := waits i hi j
    simp only [Bool.toNat_true]
    omega

/-- The test for the last row of all counters: each is at its last row and moves, or has its row
register at zero, and one of them has started. -/
theorem Together.finished_iff [Nonempty ι] (together : Together n) (three : 3 ≤ total)
    (le : ∀ i, n i ≤ total) {moves : ι → Bool} (below : ∀ i, moves i = true → n i < total) :
    ((∀ i, ((Counter.after total (n i)).counter = total - 1 ∧ moves i = true) ∨
        (Counter.after total (n i)).counter = 0) ∧
      ∃ i, (Counter.after total (n i)).started = true) ↔
      ∀ i, n i + (moves i).toNat = total := by
  constructor
  · rintro ⟨rows, i, begun⟩ j
    rw [Counter.after_started, decide_eq_true_iff] at begun
    have near := together i j
    have bounds := And.intro (le i) (le j)
    -- a counter that has started keeps the others from being at the first row
    have far : total ≤ n i + 1 := by
      rcases rows i with ⟨last, -⟩ | zero
      · simp only [Counter.after] at last
        split_ifs at last <;> omega
      · simp only [Counter.after] at zero
        split_ifs at zero <;> omega
    rcases rows j with ⟨last, fires⟩ | zero
    · have := below j fires
      rw [Counter.after_counter_of_lt this] at last
      rw [fires, Bool.toNat_true]
      omega
    · simp only [Counter.after] at zero
      have done : n j = total := by split_ifs at zero <;> omega
      cases hj : moves j with
      | false => rw [done, Bool.toNat_false, Nat.add_zero]
      | true => exact absurd (below j hj) (by omega)
  · intro all
    refine ⟨fun i => ?_, ?_⟩
    · have := all i
      cases hi : moves i with
      | false =>
        rw [hi, Bool.toNat_false, Nat.add_zero] at this
        exact .inr (by rw [this, Counter.after_counter_self])
      | true =>
        rw [hi, Bool.toNat_true] at this
        exact .inl ⟨by rw [Counter.after_counter_of_lt (by omega)]; omega, rfl⟩
    · obtain ⟨i⟩ := ‹Nonempty ι›
      have := all i
      have le_one : (moves i).toNat ≤ 1 := Bool.toNat_le _
      exact ⟨i, by rw [Counter.after_started, decide_eq_true_iff]; omega⟩

end Family

end Gemmini.Lockstep
