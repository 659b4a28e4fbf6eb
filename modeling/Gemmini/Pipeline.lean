import Gemmini.Lib.Pipeline

/-!
# Pipelines with stage functions

`Pipeline.scala` register by register, with `comb.head` before the first stage and one further function
of `comb` after each.  Seen through the functions that are still ahead of each value, the registers are
the pipeline of plain values of the library.
-/

namespace Gemmini.Pipeline

variable {α : Type*}

/-- An entry of `valids` and of `stages`, and the function that is applied to it on its way out. -/
structure Stage (α : Type*) where
  comb : α → α
  valid : Bool
  bits : α

structure Input (α : Type*) where
  inValid : Bool
  inBits : α
  outReady : Bool

/-- `stalling` of the first stage; without one, `io.in.ready` is `io.out.ready`. -/
def stalling : List (Stage α) → Bool → Bool
  | [], outReady => !outReady
  | s :: rest, outReady => s.valid && stalling rest outReady

def inFire (stages : List (Stage α)) (i : Input α) : Bool :=
  i.inValid && !stalling stages i.outReady

/-- The stages after the clock edge: `behind` is the first valid bit, and `x` the first value if
`enable` holds. -/
def advance (outReady : Bool) : Bool → Bool → α → List (Stage α) → List (Stage α)
  | _, _, _, [] => []
  | behind, enable, x, s :: rest =>
    -- the connection from behind comes last
    { s with
      valid := if behind then true else if !stalling rest outReady then false else s.valid
      bits := if enable then x else s.bits } ::
      advance outReady s.valid (!stalling rest outReady) (s.comb s.bits) rest

/-- `io.out` where there are stages. -/
def lastOut : List (Stage α) → Option α
  | [] => none
  | [s] => if s.valid then some (s.comb s.bits) else none
  | _ :: rest => lastOut rest

section Module

variable (head : α → α) (stages : List (Stage α)) (i : Input α)

/-- The clock edge of the pipeline whose first function is `head`. -/
def edge : List (Stage α) :=
  advance i.outReady (inFire stages i) (inFire stages i) (head i.inBits) stages

/-- `io.out`: without a stage, the input through the only function. -/
def output : Option α :=
  match stages with
  | [] => if i.inValid then some (head i.inBits) else none
  | _ :: _ => lastOut stages

/-- `io.busy`. -/
def isBusy : Bool := i.inValid || stages.any Stage.valid

def acceptedNow : List α := if inFire stages i then [i.inBits] else []

def deliveredNow : List α := if i.outReady then (output head stages i).toList else []

end Module

def accepted (head : α → α) : List (Stage α) → List (Input α) → List α
  | _, [] => []
  | stages, i :: inputs => acceptedNow stages i ++ accepted head (edge head stages i) inputs

def delivered (head : α → α) : List (Stage α) → List (Input α) → List α
  | _, [] => []
  | stages, i :: inputs => deliveredNow head stages i ++ delivered head (edge head stages i) inputs

/-! ### The registers as a pipeline of results -/

/-- What comes out for a value that enters the first of the stages: their functions, in order. -/
def finish (stages : List (Stage α)) (x : α) : α := stages.foldl (fun y s => s.comb y) x

/-- Each stage with what its value will be on the output. -/
def view : List (Stage α) → List (Option α)
  | [] => []
  | s :: rest => (if s.valid then some (finish (s :: rest) s.bits) else none) :: view rest

variable {head : α → α} {stages : List (Stage α)}

theorem stalls_view (outReady : Bool) :
    stalls (view stages) outReady = stalling stages outReady := by
  induction stages with
  | nil => rfl
  | cons s rest ih =>
    rw [view, stalls, stalling, ih]
    cases s.valid <;> rfl

theorem out_view : out (view stages) = lastOut stages := by
  induction stages with
  | nil => rfl
  | cons s rest ih =>
    cases rest with
    | nil => rfl
    | cons r rest => exact ih

theorem busy_view : busy (view stages) = stages.any Stage.valid := by
  unfold busy
  induction stages with
  | nil => rfl
  | cons s rest ih =>
    rw [view, List.any_cons, List.any_cons, ih]
    cases s.valid <;> rfl

theorem finish_advance (stages : List (Stage α)) (outReady behind enable : Bool) (x y : α) :
    finish (advance outReady behind enable x stages) y = finish stages y := by
  induction stages generalizing behind enable x y with
  | nil => rfl
  | cons s rest ih => exact ih _ _ _ (s.comb y)

theorem view_advance (stages : List (Stage α)) (behind enable outReady : Bool) (x : α)
    (free : enable = true → stalling stages outReady = false)
    (moves : behind = true → stalling stages outReady = false → enable = true) :
    view (advance outReady behind enable x stages) =
      next (if behind then some (finish stages x) else none) (view stages) outReady := by
  induction stages generalizing behind enable x with
  | nil => rfl
  | cons s rest ih =>
    obtain ⟨comb, valid, bits⟩ := s
    rw [stalling] at free moves
    -- the values ahead move by the same rule
    have ahead := ih valid (!stalling rest outReady) (comb bits) (by simp) (by simp)
    have here (y : α) := finish_advance rest outReady valid (!stalling rest outReady) (comb bits)
      (comb y)
    rw [advance, view, view, next, ahead, stalls, stalls_view]
    simp only [finish, List.foldl_cons] at here ⊢
    rw [here]
    generalize stalling rest outReady = stalled at *
    cases valid <;> cases stalled <;> cases behind <;> cases enable <;> simp_all

/-- What the input makes of itself on the output, if it is accepted. -/
def entering (head : α → α) (stages : List (Stage α)) (i : Input α) : Option α :=
  if inFire stages i then some (finish stages (head i.inBits)) else none

theorem view_edge (i : Input α) :
    view (edge head stages i) = next (entering head stages i) (view stages) i.outReady :=
  view_advance stages _ _ i.outReady _ (by simp [inFire]) fun fire _ => fire

theorem finish_edge (i : Input α) : finish (edge head stages i) = finish stages :=
  funext (finish_advance stages _ _ _ _)

/-- What was inside and what enters is what leaves and what is inside after the edge. -/
theorem edge_conserves (i : Input α) :
    held (view stages) ++ (acceptedNow stages i).map (finish stages ∘ head) =
      deliveredNow head stages i ++ held (view (edge head stages i)) := by
  cases stages with
  | nil =>
    obtain ⟨valid, bits, ready⟩ := i
    cases valid <;> cases ready <;> rfl
  | cons s rest =>
    have nonempty : view (s :: rest) ≠ [] := List.cons_ne_nil _ _
    have flow := conserved (entering head (s :: rest) i) nonempty i.outReady
    rw [enqFire, deqFire, stalls_view, out_view, ← view_edge] at flow
    rw [acceptedNow, deliveredNow, output]
    convert flow using 2
    · unfold entering inFire
      cases stalling (s :: rest) i.outReady <;> cases i.inValid <;> rfl
    · cases i.outReady <;> rfl

theorem run_conserves (inputs : List (Input α)) :
    held (view stages) ++ (accepted head stages inputs).map (finish stages ∘ head) =
      delivered head stages inputs ++ held (view (inputs.foldl (edge head) stages)) := by
  induction inputs generalizing stages with
  | nil => simp [accepted, delivered]
  | cons i inputs ih =>
    have rest := @ih (edge head stages i)
    rw [finish_edge] at rest
    rw [accepted, delivered, List.map_append, ← List.append_assoc, edge_conserves,
      List.append_assoc, rest, List.append_assoc, List.foldl_cons]

/-! ### Draining -/

theorem stalls_ready (v : List (Option α)) : stalls v true = false := by
  induction v with
  | nil => rfl
  | cons s rest ih => rw [stalls, ih, Bool.and_false]

theorem next_ready (x : Option α) (v : List (Option α)) :
    next x v true = (x :: v).take v.length := by
  induction v generalizing x with
  | nil => rfl
  | cons s rest ih =>
    rw [next, stalls_ready, ih]
    rfl

theorem entering_ready {i : Input α} (ready : i.outReady = true) :
    entering head stages i = if i.inValid then some (finish stages (head i.inBits)) else none := by
  rw [entering, inFire, ready, ← stalls_view, stalls_ready, Bool.not_false, Bool.and_true]

theorem view_run_ready {inputs : List (Input α)} (ready : ∀ i ∈ inputs, i.outReady = true) :
    view (inputs.foldl (edge head) stages) =
      ((inputs.map (entering head stages)).reverse ++ view stages).take (view stages).length ∧
    (accepted head stages inputs).map (finish stages ∘ head) =
      inputs.filterMap (entering head stages) := by
  induction inputs generalizing stages with
  | nil => simp [accepted]
  | cons i inputs ih =>
    rw [List.forall_mem_cons] at ready
    have moved : view (edge head stages i) =
        (entering head stages i :: view stages).take (view stages).length := by
      rw [view_edge, ready.1, next_ready]
    have same : ∀ j ∈ inputs, entering head (edge head stages i) j = entering head stages j :=
      fun j hj => by
        rw [entering_ready (ready.2 j hj), entering_ready (ready.2 j hj), finish_edge]
    obtain ⟨inside, entered⟩ := @ih (edge head stages i) ready.2
    rw [List.map_congr_left same, moved] at inside
    rw [finish_edge, List.filterMap_congr same] at entered
    constructor
    · rw [List.foldl_cons, inside]
      simp [List.take_append, List.take_take]
    · rw [accepted, List.map_append, entered, acceptedNow, List.filterMap_cons, entering]
      cases inFire stages i <;> rfl

/-- Each value inside leaves if the output is ready for as many cycles as there are stages. -/
theorem drains {inputs : List (Input α)} (long : inputs.length = (view stages).length)
    (ready : ∀ i ∈ inputs, i.outReady = true) :
    delivered head stages inputs = held (view stages) := by
  obtain ⟨inside, entered⟩ := @view_run_ready _ head stages _ ready
  have flow := @run_conserves _ head stages inputs
  have newer : held (inputs.map (entering head stages)).reverse =
      inputs.filterMap (entering head stages) := by
    simp [held, List.filterMap_map]
  rw [inside, entered, List.take_left' (by simpa using long), newer] at flow
  exact (List.append_cancel_right flow).symm

theorem length_view (stages : List (Stage α)) : (view stages).length = stages.length := by
  induction stages with
  | nil => rfl
  | cons s rest ih => rw [view, List.length_cons, List.length_cons, ih]

/-- Out of reset, with any functions and any pattern of the two sides: what was accepted, through all
functions, is what was delivered followed by what is inside, all of which leaves once the output is
ready for long enough; and `busy` is high exactly if something is inside or offered. -/
theorem delivers_each_result {stages : List (Stage α)} (reset : ∀ s ∈ stages, s.valid = false)
    (head : α → α) (inputs : List (Input α)) :
    let after := inputs.foldl (edge head) stages
    (accepted head stages inputs).map (finish stages ∘ head) =
        delivered head stages inputs ++ held (view after) ∧
      (∀ more : List (Input α), more.length = after.length → (∀ i ∈ more, i.outReady = true) →
        delivered head after more = held (view after)) ∧
      ∀ i, isBusy after i = true ↔ i.inValid = true ∨ held (view after) ≠ [] := by
  intro after
  have empty : held (view stages) = [] := by
    by_contra some
    have valid := (busy_iff_held _).mpr some
    rw [busy_view, List.any_eq_true] at valid
    obtain ⟨s, hs, valid⟩ := valid
    rw [reset s hs] at valid
    cases valid
  have flow := @run_conserves _ head stages inputs
  refine ⟨by rwa [empty] at flow, fun more long ready => drains ?_ ready, fun i => ?_⟩
  · rw [long, length_view]
  · rw [isBusy, Bool.or_eq_true, ← busy_iff_held, busy_view]

def addThenDouble : List (Stage ℕ) := [⟨(· + 1), false, 0⟩, ⟨(2 * ·), false, 0⟩]

/-- The gap between the two values closes while the output is not ready. -/
def twoValues : List (Input ℕ) := [⟨true, 3, true⟩, ⟨false, 0, true⟩, ⟨true, 5, false⟩]

theorem twoValues_results :
    [8, 12] = delivered id addThenDouble twoValues ++
      held (view (twoValues.foldl (edge id) addThenDouble)) :=
  (delivers_each_result
    (show ∀ s ∈ addThenDouble, s.valid = false by simp [addThenDouble]) id twoValues).1

end Gemmini.Pipeline
