import Gemmini.Lib.Machine
import Mathlib.Data.Nat.Sqrt
import Mathlib.Data.Nat.Log
import Mathlib.Tactic

/-!
# Integer square roots

The normalizer finds a root digit by digit, two bits of the input in a cycle; the software by
Newton's iteration, from a power of two above the root.
-/

namespace Gemmini.IntSqrt

/-! ### The unit of the normalizer -/

/-- The registers of `IntSqrt`. -/
structure State where
  x : ℕ
  a : ℕ
  q : ℕ
  counter : ℕ
  busy : Bool
  resultValid : Bool

/-- The `input` port, and the ready of `output`. -/
structure Input where
  valid : Bool
  bits : ℕ
  outputReady : Bool

section Unit

variable (width : ℕ)

/-- `N` -/
def rootWidth : ℕ := (width + 1) / 2

namespace State

variable (s : State)

/-- The two bits of `x` that the cycle takes in. -/
def top : ℕ := s.x / 2 ^ (width - 2) % 4

def t : ℕ := (4 * s.a + s.top width + 2 ^ (width + 2) - (4 * s.q + 1)) % 2 ^ width

def sign : Bool := (s.t width).testBit (width - 1)

def digit : State where
  counter := (s.counter + 2 ^ Nat.clog 2 (rootWidth width) - 1) % 2 ^ Nat.clog 2 (rootWidth width)
  x := s.x % 2 ^ (width - 2) * 4
  a := if s.sign width then s.a % 2 ^ (width - 2) * 4 + s.top width else s.t width
  q := s.q % 2 ^ (rootWidth width - 1) * 2 + if s.sign width then 0 else 1
  busy := true
  resultValid := s.counter = 0

def next (i : Input) : State :=
  if s.busy then
    if !s.resultValid then s.digit width
    else if i.outputReady then { s with busy := false, resultValid := false }
    else s
  else if i.valid then
    { s with x := i.bits, a := 0, q := 0, busy := true, counter := rootWidth width - 1 }
  else s

end State

def machine : Machine State Input where
  init s := s.busy = false ∧ s.resultValid = false
  legal _ i := i.bits < 2 ^ width
  step s i := s.next width i

theorem idle_of_not_busy {s : State} (reach : (machine width).Reachable s)
    (idle : s.busy = false) : s.resultValid = false := by
  revert idle
  refine reach.invariant (M := machine width) (P := fun s => s.busy = false → s.resultValid = false)
    (fun s h _ => h.2) fun s i _ ih _ => ?_
  simp only [machine, State.next]
  split_ifs with busy valid ready take
  · simp [State.digit]
  · simp
  · simp [busy]
  · simp
  · exact ih

end Unit

theorem top_bit {width u v : ℕ} (pos : 1 ≤ width) (small : v ≤ 2 ^ (width - 1))
    (near : u < v + 2 ^ (width - 1)) :
    ((u + 2 ^ (width + 2) - v) % 2 ^ width).testBit (width - 1) = decide (u < v) ∧
      (v ≤ u → (u + 2 ^ (width + 2) - v) % 2 ^ width = u - v) := by
  have double : 2 ^ width = 2 * 2 ^ (width - 1) := by rw [← pow_succ', Nat.sub_add_cancel pos]
  have wide : 2 ^ (width + 2) = 4 * 2 ^ width := by rw [pow_add, mul_comm]; rfl
  rcases Nat.lt_or_ge u v with neg | nonneg
  · have borrow : u + 4 * 2 ^ width - v = 2 ^ width - (v - u) + 2 ^ width * 3 := by omega
    have one : (2 ^ width - (v - u)) / 2 ^ (width - 1) = 1 :=
      Nat.div_eq_of_lt_le (by omega) (by omega)
    refine ⟨?_, fun nonneg => absurd neg nonneg.not_gt⟩
    rw [wide, borrow, Nat.add_mul_mod_self_left, Nat.mod_eq_of_lt (by omega), decide_eq_true neg,
      Nat.testBit_eq_decide_div_mod_eq, decide_eq_true_eq, one]
  · have diff : (u + 2 ^ (width + 2) - v) % 2 ^ width = u - v := by
      rw [wide, Nat.sub_add_comm nonneg, Nat.add_mul_mod_self_right, Nat.mod_eq_of_lt (by omega)]
    refine ⟨?_, fun _ => diff⟩
    rw [diff, Nat.testBit_lt_two_pow (by omega), decide_eq_false (by omega)]

theorem root_succ {m d q a : ℕ} (lt : d < 4) (root : q = m.sqrt) (rest : a + q * q = m) :
    (4 * m + d).sqrt = 2 * q + if 4 * a + d < 4 * q + 1 then 0 else 1 := by
  have high : a ≤ 2 * q := by
    have := Nat.sqrt_le_add m
    rw [← root] at this
    omega
  refine (Nat.eq_sqrt.mpr ?_).symm
  split_ifs <;> constructor <;> nlinarith

/-- What the registers hold when `k` digits are found and `j` are left. -/
structure Digits (n j k : ℕ) (s : State) : Prop where
  busy : s.busy = true
  valid : s.resultValid = decide (j = 0)
  counter : 0 < j → s.counter = j - 1
  x : s.x = n % 4 ^ j * 4 ^ k
  q : s.q = (n / 4 ^ j).sqrt
  a : s.a + s.q * s.q = n / 4 ^ j

theorem Digits.next {n j k width : ℕ} {s : State} (h : Digits n (j + 1) k s)
    (lt : n < 4 ^ (j + 1 + k)) (two : 2 ≤ j + 1 + k) (even : width = 2 * (j + 1 + k)) (i : Input) :
    Digits n j (k + 1) (s.next width i) := by
  have N : rootWidth width = j + 1 + k := by unfold rootWidth; omega
  have pow : ∀ v, 2 ^ (2 * v) = 4 ^ v := fun v => pow_mul 2 2 v
  have low : 2 ^ (width - 2) = 4 ^ j * 4 ^ k := by
    rw [show width - 2 = 2 * (j + k) by omega, pow, pow_add]
  have top : s.top width = n / 4 ^ j % 4 := by
    rw [State.top, low, h.x, Nat.mul_div_mul_right _ _ (by positivity), pow_succ,
      Nat.mod_mul_right_div_self, Nat.mod_mod]
  have whole : n / 4 ^ (j + 1) = n / 4 ^ j / 4 := by rw [pow_succ, Nat.div_div_eq_div_mul]
  have root := root_succ (Nat.mod_lt (n / 4 ^ j) (by decide : 0 < 4)) h.q h.a
  rw [whole, Nat.div_add_mod, ← top] at root
  have small : s.q < 2 ^ k := by
    rw [h.q, Nat.sqrt_lt', ← pow_mul, mul_comm k, pow]
    exact Nat.div_lt_of_lt_mul (by rwa [← pow_add])
  have room : 4 * s.q + 3 ≤ 2 ^ (width - 1) := by
    have := Nat.pow_le_pow_right (show 0 < 2 by decide) (show k + 2 ≤ width - 1 by omega)
    rw [pow_add] at this
    omega
  have high : s.a ≤ 2 * s.q := by
    have := Nat.sqrt_le_add (n / 4 ^ (j + 1))
    rw [← h.q, ← h.a] at this
    omega
  obtain ⟨sign, diff⟩ := top_bit (show 1 ≤ width by omega) (show 4 * s.q + 1 ≤ _ by omega)
    (show 4 * s.a + s.top width < _ by omega)
  change s.sign width = _ at sign
  change _ → s.t width = _ at diff
  have root_eq : (s.digit width).q = (n / 4 ^ j).sqrt := by
    have fits : 2 ^ k ≤ 2 ^ (j + k) := Nat.pow_le_pow_right (by decide) (by omega)
    simp only [State.digit, N, root, sign, decide_eq_true_eq]
    rw [show j + 1 + k - 1 = j + k by omega, Nat.mod_eq_of_lt (by omega), mul_comm]
  have step : s.next width i = s.digit width := by simp [State.next, h.busy, h.valid]
  rw [step]
  constructor
  · rfl
  · simp [State.digit, h.counter]
  · intro pos
    simp only [State.digit, h.counter (Nat.succ_pos j), N]
    have := Nat.le_pow_clog (b := 2) (by decide) (j + 1 + k)
    rw [Nat.add_sub_cancel, Nat.sub_add_comm pos, Nat.add_mod_right, Nat.mod_eq_of_lt (by omega)]
  · simp only [State.digit]
    rw [h.x, low, Nat.mul_mod_mul_right, pow_succ, Nat.mod_mul_right_mod, mul_assoc, pow_succ]
  · exact root_eq
  · rw [root_eq, root]
    simp only [State.digit, sign, decide_eq_true_eq]
    have split := Nat.div_add_mod (n / 4 ^ j) 4
    rw [← whole, ← h.a, ← top] at split
    split_ifs with neg
    · have fits : 2 ^ k ≤ 2 ^ (width - 2) := Nat.pow_le_pow_right (by decide) (by omega)
      rw [Nat.mod_eq_of_lt (by omega), ← split]
      ring
    · have square : (2 * s.q + 1) * (2 * s.q + 1) = 4 * (s.q * s.q) + (4 * s.q + 1) := by ring
      rw [diff (by omega), square, ← split]
      omega

theorem Digits.stays {n k width : ℕ} {s : State} (h : Digits n 0 k s) {i : Input}
    (stall : i.outputReady = false) : s.next width i = s := by
  simp [State.next, h.busy, h.valid, stall]

theorem Digits.freed {n k width : ℕ} {s : State} (h : Digits n 0 k s) {i : Input}
    (ready : i.outputReady = true) : (s.next width i).busy = false := by
  simp [State.next, h.busy, h.valid, ready]

theorem Digits.start {n N : ℕ} {s : State} (lt : n < 4 ^ N) (pos : 0 < N) (idle : s.busy = false)
    (rest : s.resultValid = false) {i : Input} (valid : i.valid = true) (bits : i.bits = n) :
    Digits n N 0 (s.next (2 * N) i) := by
  have half : rootWidth (2 * N) = N := by unfold rootWidth; omega
  have none : n / 4 ^ N = 0 := Nat.div_eq_of_lt lt
  rw [State.next, idle, if_neg Bool.false_ne_true, if_pos valid, half]
  constructor
  · rfl
  · rw [rest, decide_eq_false pos.ne']
  · exact fun _ => rfl
  · rw [Nat.mod_eq_of_lt lt, pow_zero, mul_one, bits]
  · rw [none, Nat.sqrt_zero]
  · exact none.symm

/-- The run from a request on: `N` cycles without a result, then the root until it is taken. -/
structure Answers (n N : ℕ) (state : ℕ → State) (input : ℕ → Input) : Prop where
  works : ∀ t < N, (state (t + 1)).busy = true ∧ (state (t + 1)).resultValid = false
  holds : ∀ stall, (∀ r < stall, (input (N + 1 + r)).outputReady = false) →
    (state (N + 1 + stall)).resultValid = true ∧ (state (N + 1 + stall)).q = n.sqrt
  frees : ∀ stall, (∀ r < stall, (input (N + 1 + r)).outputReady = false) →
    (input (N + 1 + stall)).outputReady = true → (state (N + 1 + stall + 1)).busy = false

theorem answers {n N : ℕ} {state : ℕ → State} {input : ℕ → Input}
    (step : ∀ t, state (t + 1) = (state t).next (2 * N) (input t)) (two : 2 ≤ N) (lt : n < 4 ^ N)
    (idle : (state 0).busy = false) (rest : (state 0).resultValid = false)
    (valid : (input 0).valid = true) (bits : (input 0).bits = n) : Answers n N state input := by
  -- one digit for each cycle, and none after the last until the result is taken
  have found (j k : ℕ) (sum : j + k = N) : Digits n j k (state (k + 1)) := by
    rw [step]
    induction k generalizing j with
    | zero =>
      obtain rfl : j = N := by omega
      exact .start lt (by omega) idle rest valid bits
    | succ k ih =>
      obtain rfl : j + 1 + k = N := by omega
      rw [step]
      exact (ih (j + 1) rfl).next lt two rfl _
  have kept (stall : ℕ) (stalls : ∀ r < stall, (input (N + 1 + r)).outputReady = false) :
      Digits n 0 N (state (N + 1 + stall)) := by
    induction stall with
    | zero => exact found 0 N (zero_add N)
    | succ stall ih =>
      have before := ih fun r hr => stalls r (by omega)
      rw [← Nat.add_assoc, step, before.stays (stalls stall (by omega))]
      exact before
  constructor
  · intro t ht
    have h := found (N - t) t (by omega)
    exact ⟨h.busy, by rw [h.valid, decide_eq_false (by omega)]⟩
  · intro stall stalls
    have h := kept stall stalls
    exact ⟨h.valid, by rw [h.q, pow_zero, Nat.div_one]⟩
  · intro stall stalls ready
    rw [step]
    exact (kept stall stalls).freed ready

/-! ### The software -/

/-- A value of the C type `int32_t`; an overflow has no result. -/
def fits (x : ℤ) : Option ℤ := if -2 ^ 31 ≤ x ∧ x < 2 ^ 31 then some x else none

def countBits : ℕ → ℤ → ℕ → Option ℕ
  | 0, _, _ => none
  | fuel + 1, x, bits => if x > 0 then countBits fuel (x.tdiv 2) (bits + 1) else some bits

/-- The loop of the iteration, from `x_prev`; a division by 0 has no result. -/
def iterate (n : ℤ) : ℕ → ℤ → Option ℤ
  | 0, _ => none
  | fuel + 1, xPrev => do
    guard (xPrev ≠ 0)
    let sum ← fits (xPrev + n.tdiv xPrev)
    let xNext := sum.tdiv 2
    if xNext ≥ xPrev then some xPrev else iterate n fuel xNext

/-- `int_sqrt`; without enough fuel for its loops there is no result. -/
def intSqrt (fuel : ℕ) (n : ℤ) : Option ℤ :=
  if n = 0 then some 0
  else do
    let bits ← countBits fuel n 0
    let xPrev ← fits (2 ^ ((bits + 1) / 2))
    iterate n fuel xPrev

theorem fits_natCast {x : ℕ} (lt : x < 2 ^ 31) : fits x = some (x : ℤ) :=
  if_pos ⟨by omega, by omega⟩

theorem countBits_ends {m fuel : ℕ} (enough : m < fuel) {x : ℕ} (lt : x < 2 ^ m) (bits : ℕ) :
    ∃ k ≤ m, countBits fuel x bits = some (bits + k) ∧ x < 2 ^ k := by
  induction m generalizing fuel x bits with
  | zero =>
    obtain ⟨fuel, rfl⟩ := Nat.exists_eq_add_one_of_ne_zero (Nat.ne_zero_of_lt enough)
    obtain rfl : x = 0 := by omega
    exact ⟨0, le_rfl, by simp [countBits], by simp⟩
  | succ m ih =>
    obtain ⟨fuel, rfl⟩ := Nat.exists_eq_add_one_of_ne_zero (Nat.ne_zero_of_lt enough)
    rcases Nat.eq_zero_or_pos x with rfl | pos
    · exact ⟨0, Nat.zero_le _, by simp [countBits], by simp⟩
    · obtain ⟨k, le, counts, below⟩ := ih (Nat.lt_of_succ_lt_succ enough)
        (show x / 2 < 2 ^ m by rw [pow_succ] at lt; omega) (bits + 1)
      refine ⟨k + 1, by omega, ?_, by rw [pow_succ]; omega⟩
      rw [countBits, if_pos (by omega), show (x : ℤ).tdiv 2 = (x / 2 : ℕ) from rfl, counts]
      congr 1
      omega

/-- One iterate is above the root, whatever the one before. -/
theorem iterate_above (n : ℕ) {x : ℕ} (pos : 0 < x) :
    n < ((x + n / x) / 2 + 1) * ((x + n / x) / 2 + 1) := by
  have quotient := Nat.lt_mul_div_succ n pos
  have half : x + n / x ≤ 2 * ((x + n / x) / 2) + 1 := by omega
  generalize (x + n / x) / 2 = y at *
  generalize n / x = d at *
  nlinarith [sq_nonneg ((x : ℤ) - (d + 1))]

theorem iterate_ends {n : ℕ} {x fuel : ℕ} (pos : 0 < x) (enough : x < fuel) (small : x ≤ 2 ^ 16)
    (above : n < (x + 1) * (x + 1)) (some_n : 0 < n) : iterate n fuel x = some (n.sqrt : ℤ) := by
  induction fuel generalizing x with
  | zero => omega
  | succ fuel ih =>
    have quotient : n / x ≤ x + 2 := by
      apply Nat.div_le_of_le_mul
      nlinarith
    have sum := fits_natCast (show x + n / x < 2 ^ 31 by omega)
    have step : iterate n (fuel + 1) x =
        if (x + n / x) / 2 ≥ x then some (x : ℤ) else iterate n fuel ((x + n / x) / 2 : ℕ) := by
      have nonzero : (x : ℤ) ≠ 0 := by omega
      rw [iterate, show (x : ℤ) + (n : ℤ).tdiv x = (x + n / x : ℕ) from rfl, sum, guard,
        if_pos nonzero, Option.pure_def, Option.bind_eq_bind, Option.bind_some,
        Option.bind_eq_bind, Option.bind_some,
        show ((x + n / x : ℕ) : ℤ).tdiv 2 = ((x + n / x) / 2 : ℕ) from rfl]
      simp only [ge_iff_le, Nat.cast_le]
    rw [step]
    have next := iterate_above n pos
    split_ifs with ends
    · have below : x * x ≤ n := by
        have : x ≤ n / x := by omega
        exact (Nat.mul_le_mul_right x this).trans (Nat.div_mul_le_self n x)
      rw [Nat.eq_sqrt.mpr ⟨below, above⟩]
    · have two : 2 ≤ x := by
        by_contra one
        obtain rfl : x = 1 := by omega
        rw [Nat.div_one] at ends
        omega
      have half : 0 < (x + n / x) / 2 := Nat.div_pos (two.trans le_self_add) (by decide)
      exact ih half (by omega) (by omega) next

theorem intSqrt_ends {n fuel : ℕ} (lt : n < 2 ^ 31) (enough : 2 ^ 16 < fuel) :
    intSqrt fuel n = some (n.sqrt : ℤ) := by
  rcases Nat.eq_zero_or_pos n with rfl | pos
  · rfl
  obtain ⟨bits, le, counts, below⟩ := countBits_ends (show 31 < fuel by omega) lt 0
  have small : 2 ^ ((bits + 1) / 2) ≤ 2 ^ 16 := Nat.pow_le_pow_right (by decide) (by omega)
  have start := fits_natCast (show 2 ^ ((bits + 1) / 2) < 2 ^ 31 by omega)
  have above : n < (2 ^ ((bits + 1) / 2) + 1) * (2 ^ ((bits + 1) / 2) + 1) := by
    refine below.trans_le (le_trans ?_ (Nat.mul_le_mul (Nat.le_succ _) (Nat.le_succ _)))
    rw [← pow_add]
    exact Nat.pow_le_pow_right (by decide) (by omega)
  rw [intSqrt, if_neg (by omega), counts, Option.bind_eq_bind, Option.bind_some, zero_add,
    show (2 : ℤ) ^ ((bits + 1) / 2) = (2 ^ ((bits + 1) / 2) : ℕ) by push_cast; rfl, start,
    Option.bind_eq_bind, Option.bind_some]
  exact iterate_ends (by positivity) (by omega) small above pos

theorem both_find_the_root :
    (∀ width, Even width → 4 ≤ width → ∀ s, (machine width).Reachable s → s.busy = false →
      ∀ input : ℕ → Input, (input 0).valid = true → (input 0).bits < 2 ^ width →
        Answers (input 0).bits (rootWidth width) (Machine.Trace.ofInputs (machine width) s input)
          input) ∧
    ∀ n : ℕ, n < 2 ^ 31 → ∃ enough, ∀ fuel ≥ enough, intSqrt fuel n = some (n.sqrt : ℤ) := by
  constructor
  · intro width even wide s reach idle input valid bits
    obtain ⟨N, rfl⟩ := even.two_dvd
    rw [show rootWidth (2 * N) = N by unfold rootWidth; omega]
    apply answers (fun _ => rfl) (by omega) _ idle (idle_of_not_busy _ reach idle) valid rfl
    rwa [show 4 ^ N = 2 ^ (2 * N) from (pow_mul 2 2 N).symm]
  · intro n lt
    exact ⟨2 ^ 16 + 1, fun fuel enough => intSqrt_ends lt enough⟩

/-- Both find 3 for 10, the unit at eight bits and from reset. -/
theorem root_of_ten :
    Answers 10 (rootWidth 8) (Machine.Trace.ofInputs (machine 8) ⟨0, 0, 0, 0, false, false⟩
      fun _ => ⟨true, 10, true⟩) (fun _ => ⟨true, 10, true⟩) ∧
    ∃ enough, ∀ fuel ≥ enough, intSqrt fuel 10 = some 3 := by
  constructor
  · apply both_find_the_root.1 8 ⟨4, rfl⟩ (by decide) _ (.init ⟨rfl, rfl⟩) rfl (fun _ => ⟨true, 10, true⟩) rfl
    decide
  · have root : Nat.sqrt 10 = 3 := by decide +kernel
    have software := both_find_the_root.2 10 (by decide)
    rwa [root] at software

end Gemmini.IntSqrt
