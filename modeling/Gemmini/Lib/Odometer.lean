import Mathlib.Tactic

/-!
# Nested counters

Counters of a fixed width that step up to a bound and start again, which makes the outer one step.  With
a bound of zero a counter runs through its whole range.  A pair of counters passes over the cells of a
rectangle in blocks of the two step sizes, over each block once.
-/

namespace Gemmini.Odometer

/-- `floorAdd` on `w`-bit values: step by `n`, and start again at zero at the bound `m`. -/
@[irreducible] def floorAdd (w u n m : ℕ) : ℕ := if u + n > (m + 2 ^ w - 1) % 2 ^ w then 0 else (u + n) % 2 ^ w

/-- How far a counter with bound `m` runs. -/
def limit (w m : ℕ) : ℕ := if m = 0 then 2 ^ w else m

theorem limit_pos (w m : ℕ) : 0 < limit w m := by
  unfold limit
  split
  · exact Nat.two_pow_pos w
  · omega

theorem floorAdd_eq_of_le {w u n m : ℕ} (hm : m ≤ 2 ^ w) :
    floorAdd w u n m = if limit w m ≤ u + n then 0 else u + n := by
  have pos := Nat.two_pow_pos w
  have last : (m + 2 ^ w - 1) % 2 ^ w = limit w m - 1 := by
    unfold limit
    split
    · rename_i h
      rw [h, Nat.zero_add, Nat.mod_eq_of_lt (by omega)]
    · rw [show m + 2 ^ w - 1 = m - 1 + 2 ^ w by omega, Nat.add_mod_right,
        Nat.mod_eq_of_lt (by omega)]
  have := limit_pos w m
  rw [floorAdd, last]
  by_cases h : limit w m ≤ u + n
  · rw [if_pos (by omega), if_pos h]
  · rw [if_neg (by omega), if_neg h, Nat.mod_eq_of_lt (by omega)]

theorem floorAdd_eq {w u n m : ℕ} (hm : m < 2 ^ w) :
    floorAdd w u n m = if limit w m ≤ u + n then 0 else u + n :=
  floorAdd_eq_of_le hm.le

theorem floorAdd_of_pos {w u n m : ℕ} (pos : 0 < m) (hm : m < 2 ^ w) :
    floorAdd w u n m = if u + n < m then u + n else 0 := by
  rw [floorAdd_eq hm, limit, if_neg pos.ne']
  split_ifs <;> omega

theorem floorAdd_lt {w u n m : ℕ} (hm : m < 2 ^ w) : floorAdd w u n m < limit w m := by
  rw [floorAdd_eq hm]
  split
  · exact limit_pos w m
  · omega

/-- `wrappingAdd` with a bound of `w` bits. -/
def wrappingAdd (w u n maxPlusOne : Nat) (en : Bool) : Nat :=
  let max := (maxPlusOne + 2 ^ w - 1) % 2 ^ w
  if !en then u
  else if max = 0 then 0
  else if u ≥ max - n + 1 ∧ n ≠ 0 then n - (max - u) - 1
  else u + n

theorem wrappingAdd_one {w u m : Nat} (pos : 0 < m) (width : m ≤ 2 ^ w) (below : u < m) :
    wrappingAdd w u 1 m true = if u + 1 < m then u + 1 else 0 := by
  have max_eq : (m + 2 ^ w - 1) % 2 ^ w = m - 1 := by
    rw [show m + 2 ^ w - 1 = m - 1 + 2 ^ w by omega, Nat.add_mod_right,
      Nat.mod_eq_of_lt (by omega)]
  simp only [wrappingAdd, max_eq, Bool.not_true, Bool.false_eq_true, if_false]
  split_ifs <;> omega

/-- A pair of counters, the inner one `x` and the outer one `y`, with their steps. -/
structure Pair where
  x : ℕ
  y : ℕ
  dx : ℕ
  dy : ℕ

namespace Pair

/-- The cell lies in a block that the counters have passed over. -/
def Passed (p : Pair) (cx cy : ℕ) : Prop :=
  cy / p.dy < p.y / p.dy ∨ (cy / p.dy = p.y / p.dy ∧ cx / p.dx < p.x / p.dx)

/-- The cell lies in the block at the counters. -/
def At (p : Pair) (cx cy : ℕ) : Prop := cx / p.dx = p.x / p.dx ∧ cy / p.dy = p.y / p.dy

/-- The counters are on the corner of a block inside the bounds. -/
structure Within (p : Pair) (mx my : ℕ) : Prop where
  dx_pos : 0 < p.dx
  dy_pos : 0 < p.dy
  x_lt : p.x < mx
  y_lt : p.y < my
  x_dvd : p.dx ∣ p.x
  y_dvd : p.dy ∣ p.y

def next (w : ℕ) (p : Pair) (mx my : ℕ) : Pair :=
  let x' := floorAdd w p.x p.dx mx
  { p with x := x', y := if x' = 0 then floorAdd w p.y p.dy my else p.y }

def wraps (w : ℕ) (p : Pair) (mx my : ℕ) : Bool :=
  (p.next w mx my).x == 0 && (p.next w mx my).y == 0

variable {w mx my : ℕ} {p : Pair}

theorem next_y_lt (hy : my < 2 ^ w) (h : p.y < limit w my) : (p.next w mx my).y < limit w my := by
  simp only [Pair.next]
  split
  · exact floorAdd_lt hy
  · exact h

theorem div_le_of_wrap {x d m c : ℕ} (pos : 0 < d) (dvd : d ∣ x) (wrap : m ≤ x + d) (hc : c < m) :
    c / d ≤ x / d := by
  obtain ⟨q, rfl⟩ := dvd
  rw [Nat.mul_div_cancel_left q pos, ← Nat.lt_succ_iff, Nat.div_lt_iff_lt_mul pos,
    Nat.succ_mul, Nat.mul_comm]
  omega

theorem div_add_self {x d : ℕ} (pos : 0 < d) : (x + d) / d = x / d + 1 := Nat.add_div_right x pos

theorem Within.start {dx dy : ℕ} (hx : 0 < dx) (hy : 0 < dy) (mx my : ℕ) :
    (⟨0, 0, dx, dy⟩ : Pair).Within (limit w mx) (limit w my) :=
  ⟨hx, hy, limit_pos w mx, limit_pos w my, dvd_zero _, dvd_zero _⟩

/-- As long as the pair does not start again, one step passes over the block at the counters. -/
theorem Within.next (h : p.Within (limit w mx) (limit w my)) (hx : mx < 2 ^ w) (hy : my < 2 ^ w)
    (goes : p.wraps w mx my = false) :
    (p.next w mx my).Within (limit w mx) (limit w my) ∧
      ∀ cx < limit w mx, ∀ cy, (p.next w mx my).Passed cx cy ↔ p.Passed cx cy ∨ p.At cx cy := by
  obtain ⟨dx_pos, dy_pos, x_lt, y_lt, x_dvd, y_dvd⟩ := h
  simp only [wraps, Pair.next, floorAdd_eq hx, floorAdd_eq hy, Bool.and_eq_false_iff,
    beq_eq_false_iff_ne] at goes ⊢
  by_cases wrap : limit w mx ≤ p.x + p.dx
  · -- the inner counter starts again, the outer one moves on
    simp only [wrap, if_true, ne_eq, not_true, false_or] at goes ⊢
    have outer : ¬limit w my ≤ p.y + p.dy := fun h => goes (if_pos h)
    simp only [outer, if_false]
    refine ⟨⟨dx_pos, dy_pos, limit_pos w mx, Nat.lt_of_not_le outer, dvd_zero _, y_dvd.add (dvd_refl _)⟩, ?_⟩
    intro cx hcx cy
    have := div_le_of_wrap dx_pos x_dvd wrap hcx
    simp only [Passed, At, div_add_self dy_pos, Nat.zero_div, Nat.not_lt_zero, and_false, or_false]
    omega
  · have pos : p.x + p.dx ≠ 0 := by omega
    simp only [wrap, if_false, pos]
    refine ⟨⟨dx_pos, dy_pos, Nat.lt_of_not_le wrap, y_lt, x_dvd.add (dvd_refl _), y_dvd⟩, ?_⟩
    intro cx _ cy
    simp only [Passed, At, div_add_self dx_pos]
    omega

/-- When the pair starts again it has passed over everything but the block at the counters. -/
theorem Within.last (h : p.Within (limit w mx) (limit w my)) (hx : mx < 2 ^ w) (hy : my < 2 ^ w)
    (ends : p.wraps w mx my = true) {cx cy : ℕ} (hcx : cx < limit w mx) (hcy : cy < limit w my) :
    p.Passed cx cy ∨ p.At cx cy := by
  obtain ⟨dx_pos, dy_pos, x_lt, y_lt, x_dvd, y_dvd⟩ := h
  simp only [wraps, Pair.next, floorAdd_eq hx, floorAdd_eq hy, Bool.and_eq_true,
    beq_iff_eq] at ends
  obtain ⟨inner, outer⟩ := ends
  have wrap : limit w mx ≤ p.x + p.dx := by
    by_contra h
    rw [if_neg h] at inner
    omega
  rw [if_pos inner] at outer
  have wrap' : limit w my ≤ p.y + p.dy := by
    by_contra h
    rw [if_neg h] at outer
    omega
  have := div_le_of_wrap dx_pos x_dvd wrap hcx
  have := div_le_of_wrap dy_pos y_dvd wrap' hcy
  simp only [Passed, At]
  omega

theorem not_passed_of_at {cx cy : ℕ} (h : p.At cx cy) : ¬p.Passed cx cy := by
  simp only [Passed, At] at h ⊢
  omega

end Pair

end Gemmini.Odometer
