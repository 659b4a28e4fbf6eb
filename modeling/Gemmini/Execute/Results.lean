import Gemmini.AccumulatorMem
import Gemmini.Execute.Recorded

/-!
# The result rows of a stream of matmuls

A row that leaves the mesh is presented to its accumulator bank in that very cycle, whether the bank is
ready or not.  A dual-ported bank refuses an accumulating write to a row for which it has a write in its
pipeline.
-/

namespace Gemmini.Execute

open ReservationStation (Cmd operand)
open AccumulatorMem (writeFire underWay)
open Mesh (Support)

structure Matmul (p : ArrayConfig) where
  regs : Regs
  pair : Pair p
  noD : Bool

section Stream

variable (p : ArrayConfig) (f : Support) (h : Bool)

/-- The accumulator addresses of the rows of a compute, in the order in which they leave the mesh. -/
def accWrites (r : Regs) (preload compute : Cmd) (noD : Bool) : List (Option LocalAddr) :=
  let c := LocalAddr.ofWord p.geometry preload.rs2
  let total := totalRows p f h r compute noD
  (fires p 0 total).map fun x =>
    let w := wAddress p f r c total x.counter
    if p.exWriteToAcc && w.isAccAddr && !c.isGarbage p.geometry &&
        writeThisRow f r (rowsDefault p preload.rs2) total x.counter then some w
    else none

def Matmul.blocks (m : Matmul p) : List (List (Option LocalAddr)) :=
  (unroll p m.regs m.pair).map fun x => accWrites p f h m.regs x.1 x.2 m.noD

def stream (ms : List (Matmul p)) : List (Option LocalAddr) :=
  (ms.flatMap (Matmul.blocks p f h)).flatten

end Stream

/-! ### The banks -/

def presented (g : Geometry) (bank : ℕ) (x : Option LocalAddr) : Option (ℕ × Bool) :=
  (x.filter fun a => a.accBank g = bank).map fun a => (a.accRow g, a.accumulate)

/-- The accumulator banks while rows leave the mesh, in order and with any pauses; nothing else writes
to them. -/
structure Run (g : Geometry) (accLatency : ℕ) (rows : List (Option LocalAddr)) (lanes : ℕ)
    (Byte Scale Elem : Type) where
  leaves : ℕ → ℕ
  bank : ℕ → ℕ → AccumulatorMem.State ℕ lanes Byte Scale Elem
  input : ℕ → ℕ → AccumulatorMem.Input ℕ lanes Byte Scale Elem
  leaves_mono : StrictMono leaves
  reset : ∀ b k, (bank b 0).pipelinedWrites k = none
  step : ∀ b t, bank b (t + 1) = AccumulatorMem.step accLatency (bank b t) (input b t)
  write : ∀ b n, ((input b (leaves n)).write.map fun w => (w.addr, w.acc)) =
    presented g b rows[n]?.join
  quiet : ∀ b t, t ∉ Set.range leaves → (input b t).write = none

variable {g : Geometry} {accLatency lanes : ℕ} {rows : List (Option LocalAddr)}
  {Byte Scale Elem : Type}

def SameRow (g : Geometry) (a b : LocalAddr) : Prop :=
  a.accBank g = b.accBank g ∧ a.accRow g = b.accRow g

instance (a b : LocalAddr) : Decidable (SameRow g a b) := by
  unfold SameRow
  infer_instance

/-- No row accumulates onto a row that one of the last `accLatency` rows was written to. -/
def Spaced (g : Geometry) (accLatency : ℕ) (rows : List (Option LocalAddr)) : Prop :=
  ∀ i j, i < j → j ≤ i + accLatency → ∀ a b, rows[i]? = some (some a) → rows[j]? = some (some b) →
    b.accumulate = true → ¬SameRow g a b

namespace Run

variable (run : Run g accLatency rows lanes Byte Scale Elem)

/-- The bank takes the `n`-th row, which has this address, in the cycle in which it is presented. -/
def Accepted (n : ℕ) (a : LocalAddr) : Prop :=
  (writeFire accLatency (run.bank (a.accBank g) (run.leaves n))
    (run.input (a.accBank g) (run.leaves n))).isSome

theorem pipelinedWrites_steps (b : ℕ) :
    ∀ t, (run.bank b (t + 1)).pipelinedWrites = Line.shift (run.bank b t).pipelinedWrites
      (writeFire accLatency (run.bank b t) (run.input b t)) := by
  intro t
  rw [run.step]
  rfl

theorem pipelinedWrites_accepted (b t k : ℕ) :
    (run.bank b (t + (k + 1))).pipelinedWrites k =
      writeFire accLatency (run.bank b t) (run.input b t) :=
  Line.tap_shift (l := fun t => (run.bank b t).pipelinedWrites) (run.pipelinedWrites_steps b)
    (k + 1) t

theorem pipelinedWrites_early {b t k : ℕ} (early : t < k + 1) :
    (run.bank b t).pipelinedWrites k = none :=
  Line.tap_initial (l := fun t => (run.bank b t).pipelinedWrites) (Q := (· = none))
    (run.pipelinedWrites_steps b) (run.reset b) (fun _ _ none => none) early

theorem write_of_row {n : ℕ} {a : LocalAddr} (row : rows[n]? = some (some a)) :
    ∃ w, (run.input (a.accBank g) (run.leaves n)).write = some w ∧ w.addr = a.accRow g ∧
      w.acc = a.accumulate := by
  have write := run.write (a.accBank g) n
  rw [row] at write
  simp only [presented, Option.join_some, Option.filter_some, decide_true, if_true,
    Option.map_some, Option.map_eq_some_iff, Prod.mk.injEq] at write
  exact write

theorem row_of_write {b t : ℕ} {w : AccumulatorMem.WriteReq ℕ lanes Byte}
    (write : (run.input b t).write = some w) :
    ∃ n a, run.leaves n = t ∧ rows[n]? = some (some a) ∧ a.accBank g = b ∧ a.accRow g = w.addr := by
  obtain ⟨n, rfl⟩ : t ∈ Set.range run.leaves := by
    by_contra no
    rw [run.quiet b t no] at write
    cases write
  have shown := run.write b n
  rw [write, Option.map_some, eq_comm, presented, Option.map_eq_some_iff] at shown
  obtain ⟨a, kept, same⟩ := shown
  rw [Option.filter_eq_some_iff] at kept
  exact ⟨n, a, rfl, Option.join_eq_some_iff.mp kept.1, of_decide_eq_true kept.2,
    congrArg Prod.fst same⟩

theorem leaves_apart {m n : ℕ} (le : m ≤ n) : run.leaves m + (n - m) ≤ run.leaves n := by
  have apart := run.leaves_mono.add_le_nat (n - m) m
  rw [Nat.sub_add_cancel le] at apart
  omega

theorem accepted_of_spaced (spaced : Spaced g accLatency rows) {n : ℕ} {a : LocalAddr}
    (row : rows[n]? = some (some a)) : run.Accepted n a := by
  obtain ⟨w, write, addr, acc⟩ := run.write_of_row row
  rw [Accepted, writeFire, write, Option.filter_some]
  by_contra refused
  -- the bank refuses: the row accumulates onto a row with a write in the pipeline
  have refused : w.acc = true ∧ underWay accLatency (run.bank (a.accBank g) (run.leaves n)) w.addr := by
    simpa using refused
  obtain ⟨k, near, v, inPipe, same⟩ := of_decide_eq_true refused.2
  have late : k + 1 ≤ run.leaves n := by
    by_contra early
    rw [run.pipelinedWrites_early (by omega)] at inPipe
    cases inPipe
  rw [← Nat.sub_add_cancel late, run.pipelinedWrites_accepted] at inPipe
  -- and that write was a row of the mesh too, at most `accLatency` rows ago
  obtain ⟨m, a', left, row', bank', addr'⟩ := run.row_of_write (Option.filter_eq_some_iff.mp inPipe).1
  have before : m < n := run.leaves_mono.lt_iff_lt.mp (by omega)
  have apart := run.leaves_apart before.le
  exact spaced m n before (by omega) a' a row' row (acc ▸ refused.1)
    ⟨bank', by rw [addr', same, addr]⟩

/-- If a row accumulates onto a row that was written at most `accLatency` cycles ago, then one of
the two is lost. -/
theorem refused_of_close {i j : ℕ} {a b : LocalAddr} (before : i < j)
    (close : run.leaves j ≤ run.leaves i + accLatency) (first : rows[i]? = some (some a))
    (second : rows[j]? = some (some b)) (acc : b.accumulate = true) (same : SameRow g a b)
    (taken : run.Accepted i a) : ¬run.Accepted j b := by
  intro taken'
  obtain ⟨v, write, addr, _⟩ := run.write_of_row first
  obtain ⟨w, write', addr', acc'⟩ := run.write_of_row second
  obtain ⟨k, gap⟩ := Nat.exists_eq_add_of_lt (run.leaves_mono before)
  have kept : writeFire accLatency (run.bank (a.accBank g) (run.leaves i))
      (run.input (a.accBank g) (run.leaves i)) = some v := by
    obtain ⟨u, fire⟩ := Option.isSome_iff_exists.mp taken
    have offered := (Option.filter_eq_some_iff.mp fire).1
    rw [fire, ← offered, write]
  have inPipe := run.pipelinedWrites_accepted (a.accBank g) (run.leaves i) k
  rw [kept, same.1, show run.leaves i + (k + 1) = run.leaves j by omega] at inPipe
  have blocked : underWay accLatency (run.bank (b.accBank g) (run.leaves j)) w.addr = true :=
    decide_eq_true ⟨k, by omega, v, inPipe, by rw [addr, addr', same.2]⟩
  rw [Accepted, writeFire, write', Option.filter_some, acc', acc, blocked] at taken'
  exact absurd taken' Bool.false_ne_true

end Run

/-! ### Rows without pauses -/

section Dense

variable (g accLatency lanes rows) (Byte Scale Elem) [Inhabited Byte] [Inhabited Scale]
  [Inhabited Elem]

def denseInput (b t : ℕ) : AccumulatorMem.Input ℕ lanes Byte Scale Elem where
  read := none
  write := (presented g b rows[t]?.join).map fun x => ⟨x.1, default, x.2, fun _ => true⟩
  respReady := true
  adderSum := default
  idleTag := ⟨default, default, default, default, default, 0, false⟩
  undefined := default

def emptyBank : AccumulatorMem.State ℕ lanes Byte Scale Elem where
  pipelinedWrites := fun _ => none
  mem := default
  rdata := default
  readTag := ⟨default, default, default, default, default, 0, false⟩
  readFired := false
  q := []

def denseBank (b : ℕ) : ℕ → AccumulatorMem.State ℕ lanes Byte Scale Elem
  | 0 => emptyBank lanes Byte Scale Elem
  | t + 1 => AccumulatorMem.step accLatency (denseBank b t)
      (denseInput g lanes rows Byte Scale Elem b t)

def dense : Run g accLatency rows lanes Byte Scale Elem where
  leaves := id
  bank := denseBank g accLatency lanes rows Byte Scale Elem
  input := denseInput g lanes rows Byte Scale Elem
  leaves_mono := strictMono_id
  reset := fun _ _ => rfl
  step := fun _ _ => rfl
  write := fun b n => (Option.map_map ..).trans (congrFun Option.map_id (presented g b rows[n]?.join))
  quiet := fun _ t no => absurd ⟨t, rfl⟩ no

end Dense

/-- For every stream of matmuls: in all runs every row with an accumulator destination is accepted
when it is presented, exactly if the stream keeps rows apart that accumulate onto each other. -/
theorem results_accepted_iff [Inhabited Byte] [Inhabited Scale] [Inhabited Elem] (p : ArrayConfig)
    (f : Support) (h : Bool) (ms : List (Matmul p)) (accLatency : ℕ) :
    (∀ run : Run p.geometry accLatency (stream p f h ms) lanes Byte Scale Elem,
        ∀ n a, (stream p f h ms)[n]? = some (some a) → run.Accepted n a) ↔
      Spaced p.geometry accLatency (stream p f h ms) := by
  constructor
  · intro all i j before near a b first second acc same
    have close : (dense p.geometry accLatency lanes (stream p f h ms) Byte Scale Elem).leaves j ≤
        (dense p.geometry accLatency lanes (stream p f h ms) Byte Scale Elem).leaves i + accLatency :=
      near
    exact Run.refused_of_close _ before close first second acc same (all _ i a first)
      (all _ j b second)
  · intro spaced run n a row
    exact run.accepted_of_spaced spaced row

theorem smallCompute_isCompute : smallCompute.functIsCompute = true := by decide

theorem accumulateAt_sizes (row : Fin 8) :
    ∀ x ∈ [operand 2 4 8, operand 4 4 (2 ^ 31 + 2 ^ 30 + row), smallCompute.rs1, smallCompute.rs2],
      slice x 48 (log2Up (fourArray.dim + 1)) ≤ fourArray.dim ∧
        slice x 32 (log2Up (fourArray.dim + 1)) ≤ fourArray.dim := by
  rw [List.forall_mem_cons, List.forall_mem_cons, List.forall_mem_cons, List.forall_mem_singleton]
  revert row
  decide

/-- A matmul that accumulates onto accumulator rows `row` to `row + 3`, with a stride of one. -/
def accumulateAt (row : Fin 8) : Matmul fourArray where
  regs := noRegs.configure .both (configWs false)
  pair :=
    { preload := ⟨.preload, operand 2 4 8, operand 4 4 (2 ^ 31 + 2 ^ 30 + row)⟩
      compute := smallCompute
      isPreload := rfl
      isCompute := smallCompute_isCompute
      sizes := accumulateAt_sizes row }
  noD := true

/-- The second matmul begins with the row with which the first one ends. -/
theorem overlapping_row_refused :
    (accumulateAt 0).regs.cAddrStride = 1 ∧ (accumulateAt 3).regs.cAddrStride = 1 ∧
    ∃ run : Run fourArray.geometry 2 (stream fourArray .both false [accumulateAt 0, accumulateAt 3])
        1 Unit Unit Unit,
      ∃ a, (stream fourArray .both false [accumulateAt 0, accumulateAt 3])[4]? = some (some a) ∧
        ¬run.Accepted 4 a := by
  refine ⟨by decide, by decide, dense _ _ _ _ _ _ _,
    ⟨true, true, false, 0, false, 3⟩, by decide, ?_⟩
  rw [Run.Accepted]
  decide

end Gemmini.Execute
