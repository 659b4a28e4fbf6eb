import Gemmini.Lib.Odometer
import Gemmini.Lib.Walker
import Mathlib.Data.Multiset.Bind

/-!
# Walks that are nested loops

Counters that start again at a bound make a walk over positions a nest of loops, whose commands are read
off from the inside out.  A loop that goes by several values at a time covers all values below its bound
in groups, the last of which may be smaller.
-/

namespace Gemmini.Walker

variable {R X E : Type} {S : Spec R X E} {r : R}

/-- From position `x` on the walk has the commands `es`, and is then at the position `o` or at its end. -/
inductive Stretch (S : Spec R X E) (r : R) : X → List E → Option X → Prop
  | single (x : X) : Stretch S r x (S.emit r x).toList (S.step r x)
  | append {x y : X} {es es' : List E} {o : Option X} : Stretch S r x es (some y) →
      Stretch S r y es' o → Stretch S r x (es ++ es') o

theorem Stretch.of_step {x : X} {e : E} {o : Option X} (emit : S.emit r x = some e)
    (step : S.step r x = o) : Stretch S r x [e] o := by
  have one := Stretch.single (S := S) (r := r) x
  rwa [emit, step] at one

theorem Stretch.followed {x : X} {es es' : List E} {o : Option X} (h : Stretch S r x es o)
    (rest : (o = none ∧ es' = []) ∨ ∃ y, o = some y ∧ Emits S r y es') : Emits S r x (es ++ es') := by
  induction h generalizing es' with
  | single x =>
    rcases rest with ⟨ends, rfl⟩ | ⟨y, goes, later⟩
    · rw [List.append_nil]
      exact .last ends
    · exact .more goes later
  | append _ _ first second =>
    rw [List.append_assoc]
    exact first (.inr ⟨_, rfl, second rest⟩)

/-- A stretch to the end of the walk has all commands from its position on. -/
theorem Stretch.emits {x : X} {es : List E} (h : Stretch S r x es none) : Emits S r x es := by
  have all := h.followed (.inl ⟨rfl, rfl⟩)
  rwa [List.append_nil] at all

/-! ### Counters that go by groups -/

/-- The values `0`, `d`, `2 * d` and so on below `m`. -/
def steps (d m : ℕ) : List ℕ := (List.range ((m + d - 1) / d)).map (d * ·)

/-- The group of at most `d` values below `m` from `v` on. -/
def group (d m v : ℕ) : List ℕ := List.range' v (min d (m - v))

theorem lt_count_iff {d m q : ℕ} (pos : 0 < d) : q < (m + d - 1) / d ↔ d * q < m := by
  rw [← Nat.succ_le_iff, Nat.le_div_iff_mul_le pos, Nat.succ_mul, Nat.mul_comm q]
  omega

theorem mem_steps {d m v : ℕ} (pos : 0 < d) : v ∈ steps d m ↔ d ∣ v ∧ v < m := by
  simp only [steps, List.mem_map, List.mem_range, lt_count_iff pos]
  constructor
  · rintro ⟨q, lt, rfl⟩
    exact ⟨dvd_mul_right d q, lt⟩
  · rintro ⟨⟨q, rfl⟩, lt⟩
    exact ⟨q, lt, rfl⟩

theorem steps_one (m : ℕ) : steps 1 m = List.range m := by
  simp [steps]

theorem steps_flatMap_group {d : ℕ} (pos : 0 < d) (m : ℕ) :
    (steps d m).flatMap (group d m) = List.range m := by
  have upTo : ∀ q, (List.range q).flatMap (fun a => group d m (d * a)) = List.range (min (d * q) m) := by
    intro q
    induction q with
    | zero => simp
    | succ q ih =>
      rw [List.range_succ, List.flatMap_append, ih, List.flatMap_singleton, group]
      rcases Nat.le_total m (d * q) with done | more
      · have stays : min (d * (q + 1)) m = m := Nat.min_eq_right (by rw [Nat.mul_succ]; omega)
        simp [Nat.sub_eq_zero_of_le done, Nat.min_eq_right done, stays]
      · have grows : min (d * (q + 1)) m = d * q + min d (m - d * q) := by
          rw [Nat.mul_succ]
          omega
        have joined := List.range'_append_1 (s := 0) (m := d * q) (n := min d (m - d * q))
        rw [Nat.zero_add, ← List.range_eq_range', ← List.range_eq_range'] at joined
        rw [Nat.min_eq_left more, grows, joined]
  rw [steps, List.flatMap_map, upTo, Nat.min_eq_right]
  have beyond := mt (lt_count_iff (m := m) pos).mpr (lt_irrefl ((m + d - 1) / d))
  exact Nat.le_of_not_lt beyond

/-- A loop: the body is the stretch from the position of one value of the counter to that of the next, and
leaves the loop after the last. -/
theorem Stretch.loop {P : ℕ → X} {L : ℕ → List E} {d m : ℕ} {o : Option X} (pos : 0 < d) (some_m : 0 < m)
    (body : ∀ v, d ∣ v → v < m →
      Stretch S r (P v) (L v) (if v + d < m then some (P (v + d)) else o)) :
    Stretch S r (P 0) ((steps d m).flatMap L) o := by
  have tail : ∀ k q, q + k + 1 = (m + d - 1) / d →
      Stretch S r (P (d * q)) ((List.range' q (k + 1)).flatMap fun a => L (d * a)) o := by
    intro k
    induction k with
    | zero =>
      intro q last
      have here : d * q < m := (lt_count_iff pos).mp (by omega)
      have ends : ¬d * q + d < m := by
        rw [← Nat.mul_succ, ← lt_count_iff pos]
        omega
      have whole := body (d * q) (dvd_mul_right d q) here
      rw [if_neg ends] at whole
      simpa using whole
    | succ k ih =>
      intro q more
      have here : d * q < m := (lt_count_iff pos).mp (by omega)
      have goes : d * q + d < m := by
        rw [← Nat.mul_succ, ← lt_count_iff pos]
        omega
      have first := body (d * q) (dvd_mul_right d q) here
      rw [if_pos goes, ← Nat.mul_succ] at first
      rw [List.range'_succ, List.flatMap_cons]
      exact first.append (ih (q + 1) (by omega))
  have count : 0 < (m + d - 1) / d := (lt_count_iff pos).mpr (by simpa using some_m)
  have whole := tail ((m + d - 1) / d - 1) 0 (by omega)
  rw [Nat.sub_add_cancel count, ← List.range_eq_range', Nat.mul_zero] at whole
  rwa [steps, List.flatMap_map]

/-! ### Pairs of counters -/

section Nest

open Odometer (Pair floorAdd_eq limit)

/-- Two nested counters, the inner one `x` and the outer one `y`, with steps and bounds. -/
structure Nest (R E : Type) where
  width : ℕ
  dx : R → ℕ
  dy : R → ℕ
  mx : R → ℕ
  my : R → ℕ
  cmd : R → ℕ → ℕ → E
  dead : R → Bool

namespace Nest

variable (N : Nest R E)

def pair (r : R) (x y : ℕ) : Pair := ⟨x, y, N.dx r, N.dy r⟩

def next (r : R) (x y : ℕ) : Pair := (N.pair r x y).next N.width (N.mx r) (N.my r)
def wraps (r : R) (x y : ℕ) : Bool := (N.pair r x y).wraps N.width (N.mx r) (N.my r)

def spec : Spec R (ℕ × ℕ) E where
  start _ := (0, 0)
  step r x := if N.wraps r x.1 x.2 then none else some ((N.next r x.1 x.2).x, (N.next r x.1 x.2).y)
  emit r x := some (N.cmd r x.1 x.2)
  dead := N.dead

/-- Steps and bounds are positive, and the bounds fit the counters. -/
structure Proper (r : R) : Prop where
  dx_pos : 0 < N.dx r
  dy_pos : 0 < N.dy r
  mx_pos : 0 < N.mx r
  my_pos : 0 < N.my r
  mx_lt : N.mx r < 2 ^ N.width
  my_lt : N.my r < 2 ^ N.width

def commands (r : R) : List E :=
  if N.dead r then []
  else (steps (N.dy r) (N.my r)).flatMap fun y => (steps (N.dx r) (N.mx r)).flatMap fun x => [N.cmd r x y]

variable {N}

theorem Proper.step (h : N.Proper r) (x y : ℕ) :
    N.spec.step r (x, y) =
      if x + N.dx r < N.mx r then some (x + N.dx r, y)
      else if y + N.dy r < N.my r then some (0, y + N.dy r) else none := by
  obtain ⟨dx_pos, dy_pos, mx_pos, my_pos, mx_lt, my_lt⟩ := h
  have inner : limit N.width (N.mx r) = N.mx r := if_neg mx_pos.ne'
  have outer : limit N.width (N.my r) = N.my r := if_neg my_pos.ne'
  simp only [spec, wraps, next, pair, Pair.wraps, Pair.next, floorAdd_eq mx_lt, floorAdd_eq my_lt, inner,
    outer]
  by_cases more : x + N.dx r < N.mx r
  · simp [more, Nat.not_le.mpr more, dx_pos.ne']
  · by_cases line : y + N.dy r < N.my r
    · simp [more, Nat.le_of_not_lt more, line, Nat.not_le.mpr line, dy_pos.ne']
    · simp [more, Nat.le_of_not_lt more, line, Nat.le_of_not_lt line]

/-- A pair of counters is two nested loops. -/
theorem Proper.total (h : N.Proper r) : Total N.spec r (N.commands r) := by
  have dead : N.spec.dead r = N.dead r := rfl
  unfold Total commands
  cases gone : N.dead r with
  | true => simp [dead, gone]
  | false =>
    simp only [dead, gone, Bool.false_eq_true, if_false]
    apply Stretch.emits
    apply Stretch.loop (P := fun y => ((0, y) : ℕ × ℕ)) h.dy_pos h.my_pos
    intro y _ _
    apply Stretch.loop (P := fun x => ((x, y) : ℕ × ℕ)) h.dx_pos h.mx_pos
    intro x _ _
    exact .of_step rfl (h.step x y)

end Nest

end Nest

/-- Two loops can be taken in either order, up to the order of what they yield. -/
theorem flatMap_comm_perm {α β γ : Type*} (l : List α) (l' : List β) (f : α → β → List γ) :
    (l.flatMap fun a => l'.flatMap fun b => f a b).Perm (l'.flatMap fun b => l.flatMap fun a => f a b) := by
  have swap := Multiset.bind_bind (l : Multiset α) (l' : Multiset β) (f := fun a b => (f a b : Multiset γ))
  simpa only [Multiset.coe_bind, Multiset.coe_eq_coe] using swap

theorem rows_flatMap_groups {β : Type*} {d : ℕ} (pos : 0 < d) (m : ℕ) (rows : List ℕ) (f : ℕ → ℕ → β) :
    (rows.flatMap fun a => (steps d m).flatMap fun v => (group d m v).map (f a)) =
      rows.flatMap fun a => (List.range m).map (f a) := by
  congr 1
  funext a
  rw [← List.map_flatMap, steps_flatMap_group pos]

end Gemmini.Walker
