import Mathlib.Tactic
import Mathlib.Data.BitVec
import Mathlib.Algebra.BigOperators.Intervals

/-!
# Counted loops

`for (i = 0; i < n; i++)` as a function of the state, with its invariant rule, and loops that
change one cell of a memory in each iteration.
-/

namespace Gemmini

variable {σ : Type*}

/-- `for (i = 0; i < n; i++)`. -/
def forRange : ℕ → (ℕ → σ → σ) → σ → σ
  | 0, _, s => s
  | n + 1, body, s => body n (forRange n body s)

@[simp] theorem forRange_zero (body : ℕ → σ → σ) (s : σ) : forRange 0 body s = s := rfl

theorem forRange_succ (n : ℕ) (body : ℕ → σ → σ) (s : σ) :
    forRange (n + 1) body s = body n (forRange n body s) := rfl

/-- An invariant that depends on the loop variable. -/
theorem forRange_inv {n : ℕ} {body : ℕ → σ → σ} {s : σ} (P : ℕ → σ → Prop) (start : P 0 s)
    (step : ∀ i < n, ∀ s, P i s → P (i + 1) (body i s)) : P n (forRange n body s) := by
  induction n with
  | zero => exact start
  | succ n ih =>
    exact step n (Nat.lt_succ_self n) _ (ih fun i hi => step i (by omega))

theorem forRange_sim {τ : Type*} {n : ℕ} {body : ℕ → σ → σ} {body' : ℕ → τ → τ} {s : σ} {s' : τ}
    (R : σ → τ → Prop) (start : R s s')
    (step : ∀ i < n, ∀ s s', R s s' → R (body i s) (body' i s')) :
    R (forRange n body s) (forRange n body' s') := by
  induction n with
  | zero => exact start
  | succ n ih =>
    exact step n (Nat.lt_succ_self n) _ _ (ih fun i hi => step i (by omega))

theorem forRange_congr {n : ℕ} {body body' : ℕ → σ → σ} (h : ∀ i < n, ∀ s, body i s = body' i s)
    (s : σ) : forRange n body s = forRange n body' s :=
  forRange_sim (R := Eq) rfl fun i hi s s' same => by rw [same, h i hi]

theorem forRange_append (n m : ℕ) (body : ℕ → σ → σ) (s : σ) :
    forRange (n + m) body s = forRange m (fun i => body (n + i)) (forRange n body s) := by
  induction m with
  | zero => rfl
  | succ m ih => rw [← add_assoc, forRange_succ, ih, forRange_succ]

theorem forRange_add {α : Type*} [AddCommMonoid α] (n : ℕ) (f : ℕ → α) (x : α) :
    forRange n (fun i s => s + f i) x = x + ∑ i ∈ Finset.range n, f i := by
  induction n with
  | zero => simp
  | succ n ih => rw [forRange_succ, ih, Finset.sum_range_succ, add_assoc]

/-! ### Places in a grid that is numbered by rows -/

theorem rows_le {d n x : ℕ} (h : x < n) : x * d + d ≤ n * d := by
  rw [← Nat.succ_mul]
  exact Nat.mul_le_mul_right d h

theorem index_lt {n m i k : ℕ} (hi : i < m) (hk : k < n) : i * n + k < m * n :=
  (Nat.add_lt_add_left hk _).trans_le (rows_le hi)

theorem index_inj {n i i' k k' : ℕ} (hk : k < n) (hk' : k' < n) (h : i * n + k = i' * n + k') :
    i = i' ∧ k = k' := by
  have first : i = i' := by
    have := congrArg (· / n) h
    simp only [Nat.mul_comm _ n, Nat.mul_add_div (show 0 < n by omega), Nat.div_eq_of_lt hk,
      Nat.div_eq_of_lt hk', Nat.add_zero] at this
    exact this
  subst first
  exact ⟨rfl, by omega⟩

theorem block_end_le {i j maxI maxJ : ℕ} (bs : ℕ) (hi : i < maxI) (hj : j < maxJ) :
    (i * maxJ + j) * bs + bs ≤ maxI * maxJ * bs :=
  rows_le (index_lt hi hj)

/-! ### Memories -/

section Memory

variable {κ α : Type*} [DecidableEq κ]

/-- Change the cell `k`. -/
def modify (k : κ) (f : α → α) (m : κ → α) : κ → α := fun k' => if k' = k then f (m k) else m k'

@[simp] theorem modify_same (k : κ) (f : α → α) (m : κ → α) : modify k f m k = f (m k) := if_pos rfl

theorem modify_of_ne {k k' : κ} (h : k' ≠ k) (f : α → α) (m : κ → α) : modify k f m k' = m k' :=
  if_neg h

/-- Change one cell for each point of a grid. -/
def modifyGrid (rows cols : ℕ) (loc : ℕ → ℕ → κ) (f : ℕ → ℕ → α → α) (m : κ → α) : κ → α :=
  forRange rows (fun r => forRange cols fun c => modify (loc r c) (f r c)) m

theorem modifyRow_of_ne {cols : ℕ} {loc : ℕ → κ} {k : κ} (h : ∀ c < cols, k ≠ loc c)
    (f : ℕ → α → α) (m : κ → α) : forRange cols (fun c => modify (loc c) (f c)) m k = m k :=
  forRange_inv (fun _ (m' : κ → α) => m' k = m k) rfl fun c hc m' same => by
    rw [modify_of_ne (h c hc), same]

theorem modifyGrid_of_ne {rows cols : ℕ} {loc : ℕ → ℕ → κ} {k : κ}
    (h : ∀ r < rows, ∀ c < cols, k ≠ loc r c) (f : ℕ → ℕ → α → α) (m : κ → α) :
    modifyGrid rows cols loc f m k = m k :=
  forRange_inv (fun _ (m' : κ → α) => m' k = m k) rfl fun r hr m' same => by
    rw [modifyRow_of_ne (h r hr), same]

theorem modifyRow_at {cols : ℕ} {loc : ℕ → κ} {c : ℕ} (hc : c < cols)
    (distinct : ∀ c' < cols, loc c' = loc c → c' = c) (f : ℕ → α → α) (m : κ → α) :
    forRange cols (fun c => modify (loc c) (f c)) m (loc c) = f c (m (loc c)) := by
  induction cols with
  | zero => omega
  | succ n ih =>
    rw [forRange_succ]
    rcases Nat.eq_or_lt_of_le (Nat.le_of_lt_succ hc) with rfl | earlier
    · rw [modify_same, modifyRow_of_ne fun c' hc' same => ?_]
      have := distinct c' (by omega) same.symm
      omega
    · rw [modify_of_ne fun same => ?_, ih earlier fun c' hc' => distinct c' (by omega)]
      have := distinct n (Nat.lt_succ_self n) same.symm
      omega

theorem modifyGrid_at {rows cols : ℕ} {loc : ℕ → ℕ → κ} {r c : ℕ} (hr : r < rows) (hc : c < cols)
    (distinct : ∀ r' < rows, ∀ c' < cols, loc r' c' = loc r c → r' = r ∧ c' = c)
    (f : ℕ → ℕ → α → α) (m : κ → α) :
    modifyGrid rows cols loc f m (loc r c) = f r c (m (loc r c)) := by
  unfold modifyGrid
  induction rows with
  | zero => omega
  | succ n ih =>
    rw [forRange_succ]
    rcases Nat.eq_or_lt_of_le (Nat.le_of_lt_succ hr) with rfl | earlier
    · rw [modifyRow_at hc fun c' hc' same => (distinct r hr c' hc' same).2]
      congr 1
      refine modifyGrid_of_ne (fun r' hr' c' hc' same => ?_) f m
      have := (distinct r' (by omega) c' hc' same.symm).1
      omega
    · rw [modifyRow_of_ne fun c' hc' same => ?_,
        ih earlier fun r' hr' c' hc' => distinct r' (by omega) c' hc']
      have := (distinct n (Nat.lt_succ_self n) c' hc' same.symm).1
      omega

end Memory

/-! ### Loops over a counter of a machine type -/

/-- The values of the counter of `for (x = start; x < bound; x = next(x))`, at most `fuel` of them. -/
def upTo (bound : ℤ) (next : ℤ → ℤ) : ℕ → ℤ → List ℤ
  | 0, _ => []
  | fuel + 1, x => if x < bound then x :: upTo bound next fuel (next x) else []

section UpTo

variable {bound : ℤ} {next : ℤ → ℤ} {fuel : ℕ} {x y : ℤ}

/-- The counter keeps an invariant of the body, and is below the bound. -/
theorem upTo_inv {P : ℤ → Prop} (start : P x) (step : ∀ y, P y → y < bound → P (next y))
    (mem : y ∈ upTo bound next fuel x) : P y ∧ y < bound := by
  induction fuel generalizing x with
  | zero => simp [upTo] at mem
  | succ fuel ih =>
    rw [upTo] at mem
    split_ifs at mem with below
    · rcases List.mem_cons.mp mem with rfl | later
      · exact ⟨start, below⟩
      · exact ih (step x start below) later
    · simp at mem

/-- A value that the counter gets to without passing the bound. -/
theorem iterate_mem_upTo {k : ℕ} (enough : k < fuel) (below : ∀ j ≤ k, next^[j] x < bound) :
    next^[k] x ∈ upTo bound next fuel x := by
  induction k generalizing fuel x with
  | zero =>
    obtain ⟨fuel, rfl⟩ := Nat.exists_eq_add_one_of_ne_zero enough.ne'
    rw [upTo, if_pos (show x < bound from below 0 le_rfl)]
    exact List.mem_cons_self
  | succ k ih =>
    obtain ⟨fuel, rfl⟩ := Nat.exists_eq_add_one_of_ne_zero (Nat.ne_zero_of_lt enough)
    rw [upTo, if_pos (show x < bound from below 0 (Nat.zero_le _)), Function.iterate_succ_apply]
    exact List.mem_cons_of_mem _ (ih (by omega) fun j hj => below (j + 1) (by omega))

theorem add_mem_upTo {step : ℤ} {k : ℕ} (enough : k < fuel)
    (steps : ∀ j < k, next (x + j * step) = x + (j + 1) * step) (nonneg : 0 ≤ step)
    (below : x + k * step < bound) : x + k * step ∈ upTo bound next fuel x := by
  have value : ∀ j ≤ k, next^[j] x = x + j * step := by
    intro j
    induction j with
    | zero => simp
    | succ j ih =>
      intro le
      rw [Function.iterate_succ_apply', ih (by omega), steps j (by omega)]
      push_cast
      rfl
  rw [← value k le_rfl]
  apply iterate_mem_upTo enough
  intro j le
  have earlier : (j : ℤ) * step ≤ k * step := mul_le_mul_of_nonneg_right (by omega) nonneg
  rw [value j le]
  omega

end UpTo

/-! ### Loops with a condition -/

/-- `while`: the body has no next state where the loop is left. -/
def whileSome (body : σ → Option σ) : ℕ → σ → Option σ
  | 0, _ => none
  | fuel + 1, s =>
    match body s with
    | none => some s
    | some s' => whileSome body fuel s'

/-- A loop with an invariant and a measure ends, and ends where its body has no next state. -/
theorem whileSome_ends {body : σ → Option σ} {P : σ → Prop} (measure : σ → ℕ)
    (step : ∀ s s', P s → body s = some s' → P s' ∧ measure s' < measure s) {s : σ} (start : P s) :
    ∃ t, (∀ fuel > measure s, whileSome body fuel s = some t) ∧ P t ∧ body t = none := by
  induction size : measure s using Nat.strong_induction_on generalizing s with
  | _ n ih =>
    subst size
    cases next : body s with
    | none =>
      refine ⟨s, fun fuel enough => ?_, start, next⟩
      obtain ⟨fuel, rfl⟩ := Nat.exists_eq_add_one_of_ne_zero (Nat.ne_zero_of_lt enough)
      rw [whileSome, next]
    | some s' =>
      obtain ⟨kept, smaller⟩ := step s s' start next
      obtain ⟨t, ends, good, final⟩ := ih (measure s') smaller kept rfl
      refine ⟨t, fun fuel enough => ?_, good, final⟩
      obtain ⟨fuel, rfl⟩ := Nat.exists_eq_add_one_of_ne_zero (Nat.ne_zero_of_lt enough)
      rw [whileSome, next]
      exact ends fuel (by omega)

end Gemmini
