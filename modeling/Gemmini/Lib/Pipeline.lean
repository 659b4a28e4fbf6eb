import Mathlib.Tactic

/-!
# Pipelines that stall

A ready-valid pipeline, `Pipeline.scala`, as the list of its stages from the input to the output.  A
stage stalls if it is valid and the one ahead stalls, and the last one if its value is not taken.
Whatever the two sides do, what has entered is what has left followed by what is held, in order.
-/

namespace Gemmini.Pipeline

variable {α : Type*}

/-- `stalling.head`. -/
def stalls : List (Option α) → Bool → Bool
  | [], outReady => !outReady
  | s :: rest, outReady => s.isSome && stalls rest outReady

/-- `io.out.bits` where `io.out.valid` holds. -/
def out : List (Option α) → Option α
  | [] => none
  | [s] => s
  | _ :: rest => out rest

/-- The stages after the clock edge, where `x` comes from behind. -/
def next (x : Option α) : List (Option α) → Bool → List (Option α)
  | [], _ => []
  | s :: rest, outReady =>
    (if stalls (s :: rest) outReady then s else x) :: next s rest outReady

/-- The values held, the oldest one first. -/
def held (stages : List (Option α)) : List α := (stages.filterMap id).reverse

def busy (stages : List (Option α)) : Bool := stages.any Option.isSome

/-- The value accepted in this cycle. -/
def enqFire (x : Option α) (stages : List (Option α)) (outReady : Bool) : Option α :=
  if stalls stages outReady then none else x

def deqFire (stages : List (Option α)) (outReady : Bool) : Option α :=
  if outReady then out stages else none

@[simp] theorem length_next (x : Option α) (stages : List (Option α)) (outReady : Bool) :
    (next x stages outReady).length = stages.length := by
  induction stages generalizing x with
  | nil => rfl
  | cons s rest ih => simp [next, ih]

theorem held_cons (s : Option α) (rest : List (Option α)) :
    held (s :: rest) = held rest ++ s.toList := by
  cases s <;> simp [held]

theorem busy_iff_held (stages : List (Option α)) : busy stages = true ↔ held stages ≠ [] := by
  induction stages with
  | nil => simp [busy, held]
  | cons s rest ih =>
    have step : busy (s :: rest) = (s.isSome || busy rest) := rfl
    rw [step, held_cons, Bool.or_eq_true, ih]
    cases s <;> simp

/-- Nothing is lost, duplicated or reordered. -/
theorem conserved (x : Option α) {stages : List (Option α)} (stage : stages ≠ [])
    (outReady : Bool) :
    held stages ++ (enqFire x stages outReady).toList =
      (deqFire stages outReady).toList ++ held (next x stages outReady) := by
  induction stages generalizing x with
  | nil => exact absurd rfl stage
  | cons s rest ih =>
    cases rest with
    | nil =>
      cases s <;> cases outReady <;>
        simp [held, enqFire, deqFire, next, stalls, out, Option.toList]
      all_goals cases x <;> rfl
    | cons r rest =>
      -- the stage ahead takes the value of this one unless it stalls
      have ahead := ih s (List.cons_ne_nil r rest)
      have leaves : deqFire (s :: r :: rest) outReady = deqFire (r :: rest) outReady := rfl
      rw [leaves, held_cons s, next, held_cons _ (next s _ _)]
      cases full : stalls (r :: rest) outReady with
      | true =>
        rw [enqFire, full, if_pos rfl, Option.toList_none, List.append_nil] at ahead
        have this : stalls (s :: r :: rest) outReady = s.isSome := by
          rw [stalls, full, Bool.and_true]
        rw [ahead, enqFire, this]
        cases s <;> simp
      | false =>
        rw [enqFire, full, if_neg Bool.false_ne_true] at ahead
        have free : stalls (s :: r :: rest) outReady = false := by
          rw [stalls, full, Bool.and_false]
        rw [enqFire, free, if_neg Bool.false_ne_true, if_neg Bool.false_ne_true, ahead,
          List.append_assoc]

theorem deqFire_of_empty {stages : List (Option α)} (empty : held stages = []) (outReady : Bool) :
    deqFire stages outReady = none := by
  cases stages with
  | nil => cases outReady <;> rfl
  | cons s rest =>
    have flow := conserved none (List.cons_ne_nil s rest) outReady
    rw [empty] at flow
    have none := (List.append_eq_nil_iff.mp (flow.symm.trans (by simp [enqFire]))).1
    simpa using none

end Gemmini.Pipeline
