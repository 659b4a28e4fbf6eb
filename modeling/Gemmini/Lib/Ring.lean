import Mathlib.Tactic

/-!
# Ring buffers

A queue kept in `n` registers from a read position on.  Its contents as a list, and what writing
behind the last element, dropping the first and overwriting a free register do to them.
-/

namespace Gemmini.Ring

variable {α : Type*} {n : ℕ} {regs : ℕ → α} {first len : ℕ}

/-- The `len` elements from position `first` on. -/
def contents (n : ℕ) (regs : ℕ → α) (first len : ℕ) : List α :=
  (List.range len).map fun i => regs ((first + i) % n)

@[simp] theorem contents_zero : contents n regs first 0 = [] := rfl

@[simp] theorem length_contents : (contents n regs first len).length = len := by
  simp [contents]

theorem contents_succ (bound : first < n) :
    contents n regs first (len + 1) =
      regs first :: contents n regs ((first + 1) % n) len := by
  simp only [contents, List.range_succ_eq_map, List.map_cons, List.map_map, Nat.add_zero,
    Nat.mod_eq_of_lt bound, List.cons.injEq, true_and]
  refine List.map_congr_left fun i _ => ?_
  simp only [Function.comp_apply, Nat.mod_add_mod]
  congr 2
  omega

theorem position_ne {i j : ℕ} (less : i < j) (round : j < i + n) :
    (first + i) % n ≠ (first + j) % n := by
  intro same
  have divides := (Nat.modEq_iff_dvd' (by omega : first + i ≤ first + j)).mp same
  have := Nat.le_of_dvd (by omega) divides
  omega

theorem contents_update {i : ℕ} (x : α) (outside : len ≤ i) (round : i < n) :
    contents n (Function.update regs ((first + i) % n) x) first len =
      contents n regs first len := by
  refine List.map_congr_left fun j hj => ?_
  rw [List.mem_range] at hj
  exact Function.update_of_ne (position_ne (by omega) (by omega)) _ _

theorem contents_push (x : α) (room : len < n) :
    contents n (Function.update regs ((first + len) % n) x) first (len + 1) =
      contents n regs first len ++ [x] := by
  have old : contents n (Function.update regs ((first + len) % n) x) first len =
      contents n regs first len := contents_update x le_rfl room
  rw [contents, List.range_succ, List.map_append]
  simp only [List.map_cons, List.map_nil, Function.update_self]
  rw [← old]
  rfl

/-- Dropping the first element; its register may be overwritten as long as there is room. -/
theorem contents_pop (x : α) (bound : first < n) (room : len < n) :
    contents n (Function.update regs first x) ((first + 1) % n) len =
      contents n regs ((first + 1) % n) len := by
  have behind : ((first + 1) % n + (n - 1)) % n = first := by
    rw [Nat.mod_add_mod, show first + 1 + (n - 1) = first + n by omega, Nat.add_mod_right,
      Nat.mod_eq_of_lt bound]
  have free : contents n (Function.update regs (((first + 1) % n + (n - 1)) % n) x)
      ((first + 1) % n) len = contents n regs ((first + 1) % n) len :=
    contents_update x (by omega) (by omega)
  rwa [behind] at free

theorem contents_drop (k : ℕ) :
    contents n regs ((first + k) % n) (len - k) = (contents n regs first len).drop k := by
  apply List.ext_getElem
  · simp
  · intro i _ _
    simp only [contents, List.getElem_map, List.getElem_range, List.getElem_drop, Nat.mod_add_mod,
      Nat.add_assoc]

end Gemmini.Ring
