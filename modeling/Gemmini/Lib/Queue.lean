import Mathlib.Tactic

/-!
# Queues

A `pipe` queue accepts a value while it is full if one leaves in the same cycle; a `flow` queue offers a
value in the cycle in which it enters.  Whatever the two sides do, what has entered is what has left
followed by what is held, in order.
-/

namespace Gemmini

structure QueueShape where
  entries : ℕ
  pipe : Bool
  flow : Bool
  entries_pos : 0 < entries

namespace QueueShape

variable {α : Type*} (p : QueueShape) (held : List α) (enq : Option α) (deqReady : Bool)

def enqReady : Bool := held.length < p.entries || (p.pipe && deqReady)

/-- `deq.valid` with `deq.bits`. -/
def deq : Option α :=
  match held with
  | x :: _ => some x
  | [] => if p.flow then enq else none

/-- The value accepted in this cycle. -/
def enqFire : Option α := if p.enqReady held deqReady then enq else none

def deqFire : Option α := if deqReady then p.deq held enq else none

/-- The contents after the clock edge. -/
def next : List α :=
  (held ++ (p.enqFire held enq deqReady).toList).drop (p.deqFire held enq deqReady).toList.length

/-- Nothing is lost, duplicated or reordered. -/
theorem conserved :
    held ++ (p.enqFire held enq deqReady).toList =
      (p.deqFire held enq deqReady).toList ++ p.next held enq deqReady := by
  have pos := p.entries_pos
  unfold next deqFire
  cases deqReady with
  | false => simp
  | true =>
    cases held with
    | cons x held => simp [deq]
    | nil =>
      cases hflow : p.flow <;> cases enq <;> simp [deq, enqFire, enqReady, hflow, pos]

end QueueShape

end Gemmini
