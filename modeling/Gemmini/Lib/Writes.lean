import Mathlib.Logic.Function.Basic
import Mathlib.Tactic

/-!
# Writes to a memory

A write changes one cell, in any way.  Writes to different cells commute, so a write can be made before
older ones that are still due, as long as none of them is to its cell.
-/

namespace Gemmini

structure Write (κ α : Type*) where
  key : κ
  update : α → α

namespace Write

variable {κ α : Type*} [DecidableEq κ]

def store (w : Write κ α) (m : κ → α) : κ → α := Function.update m w.key (w.update (m w.key))

def storeAll (ws : List (Write κ α)) (m : κ → α) : κ → α := ws.foldl (fun m w => w.store m) m

@[simp] theorem storeAll_nil (m : κ → α) : storeAll [] m = m := rfl

theorem storeAll_append (us vs : List (Write κ α)) (m : κ → α) :
    storeAll (us ++ vs) m = storeAll vs (storeAll us m) := List.foldl_append

theorem store_comm {w v : Write κ α} (ne : w.key ≠ v.key) (m : κ → α) :
    w.store (v.store m) = v.store (w.store m) := by
  unfold store
  rw [Function.update_of_ne ne, Function.update_of_ne ne.symm, Function.update_comm ne]

/-- A write can be made before older ones to other cells. -/
theorem storeAll_pull {us : List (Write κ α)} {w : Write κ α} (ne : ∀ u ∈ us, u.key ≠ w.key)
    (vs : List (Write κ α)) (m : κ → α) : storeAll (us ++ w :: vs) m = storeAll (us ++ vs) (w.store m) := by
  induction us generalizing m with
  | nil => rfl
  | cons u us ih =>
    have first := ne u List.mem_cons_self
    have rest := ih (fun v mem => ne v (List.mem_cons_of_mem u mem)) (u.store m)
    calc storeAll (u :: us ++ w :: vs) m = storeAll (us ++ w :: vs) (u.store m) := rfl
      _ = storeAll (us ++ vs) (w.store (u.store m)) := rest
      _ = storeAll (us ++ vs) (u.store (w.store m)) := by rw [store_comm first.symm]

end Write

end Gemmini
