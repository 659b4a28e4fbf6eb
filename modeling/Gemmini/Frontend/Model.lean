import Gemmini.Lib.Queue
import Gemmini.LoopConv.Progress
import Gemmini.LoopMatmul.Progress
import Gemmini.ReservationStation.Ordering

/-!
# From the unrollers to the reservation station

`Controller.scala`: commands pass the convolution unroller, the matrix multiplication unroller and a
queue.  Each unroller marks its own commands, and counts for each kind those that it has handed out and
that the reservation station has not reported as completed.
-/

namespace Gemmini.Frontend

open ReservationStation (Queue)
open LoopMatmul (wire)
open ReservationStation (Cmd Funct allocFire issueFire CompletesIssued)

/-! ### Commands -/

inductive Fsm
  | conv
  | matmul
  deriving DecidableEq, Repr

/-- A command behind the convolution unroller: for the matrix multiplication unroller, the reservation
station, or neither (`FLUSH_CMD`, `COUNTER_OP`, `CLKGATE_EN`). -/
inductive Body
  | loop (x : LoopMatmul.Cmd)
  | station (x : Cmd)
  | aside
  deriving DecidableEq, Repr

/-- `GemminiCmd` with the bits `from_conv_fsm` and `from_matmul_fsm`. -/
structure GemminiCmd where
  body : Body
  fromFsm : Fsm → Bool

inductive RawCmd
  | conv (x : LoopConv.Cmd)
  | other (x : Body)
  deriving DecidableEq, Repr

/-- A word whose field `cmd_type` is `k`. -/
def typed (k : ℕ) (w : BitVec 64) : BitVec 64 := BitVec.ofNat 64 (w.toNat / 4 * 4 + k)

def loadFunct (state : ℕ) : Funct :=
  if state = 0 then .load else if state = 1 then .load2 else .load3

def computeFunct (flip : Bool) : Funct :=
  if flip then .computeAndFlip else .computeAndStay

section Encode

variable (rs1 rs2 : BitVec 64)

/-- A command of the matrix multiplication unroller, as the reservation station sees it, with any
operands of the right `cmd_type`. -/
def ofMatmul : LoopMatmul.OutCmd → Cmd
  | .load state _ _ => ⟨loadFunct state, rs1, rs2⟩
  | .preload _ _ => ⟨.preload, rs1, rs2⟩
  | .compute flip _ _ => ⟨computeFunct flip, rs1, rs2⟩
  | .store _ _ => ⟨.store, rs1, rs2⟩
  | .storeSpad _ _ => ⟨.storeSpad, rs1, rs2⟩
  | .configNorm _ => ⟨.config, typed 3 rs1, rs2⟩

def ofConv : LoopConv.OutCmd → Cmd
  | .configLd _ _ _ _ => ⟨.config, typed 1 rs1, rs2⟩
  | .load state _ _ => ⟨loadFunct state, rs1, rs2⟩
  | .configEx _ _ => ⟨.config, typed 0 rs1, rs2⟩
  | .preload _ _ => ⟨.preload, rs1, rs2⟩
  | .compute flip _ _ => ⟨computeFunct flip, rs1, rs2⟩
  | .configPool _ _ _ _ _ _ _ _ _ _ _ => ⟨.config, typed 2 rs1, rs2⟩
  | .configSt _ _ => ⟨.config, typed 2 rs1, rs2⟩
  | .store _ _ => ⟨.store, rs1, rs2⟩
  | .storePool _ _ _ => ⟨.store, rs1, rs2⟩

end Encode

def matmulKind : LoopMatmul.Unroller → Queue
  | .ldA => .ld
  | .ldB => .ld
  | .ldD => .ld
  | .ex => .ex
  | .stC => .st
  | .stCSpad => .st

def convKind : LoopConv.Unroller → Queue
  | .ldBias => .ld
  | .ldInput => .ld
  | .ldWeights => .ld
  | .ex => .ex
  | .st => .st

/-! ### Registers -/

/-- The parameters; `max_lds`, `max_exs` and `max_sts` are the sizes of the tables. -/
structure Params where
  loops : LoopConv.Params
  station : ReservationStation.Config

/-- The two unrollers with their history, the queues, the reservation station with the origin of each
command, and the utilisation counters.  Commands handed out and completed are counted along. -/
structure State (P : Params) where
  conv : LoopConv.Tracked
  cmds : List GemminiCmd
  matmul : LoopMatmul.Tracked
  unrolled : List GemminiCmd
  station : ReservationStation.State P.station
  fromFsm : Fsm → (q : Queue) → Fin (P.station.entries q) → Bool
  utilization : Fsm → Queue → ℕ
  handed : Fsm → Queue → ℕ
  completed : Fsm → Queue → ℕ

/-- The head of the first command queue, the operands of the unrolled commands, whether a command that
is not for the reservation station is taken, and what the controllers do. -/
structure Input (P : Params) where
  raw : Option RawCmd
  convRs : BitVec 64 × BitVec 64
  matmulRs : BitVec 64 × BitVec 64
  asideReady : Bool
  issueReady : Queue → Bool
  completed : Option ((q : Queue) × Fin (P.station.entries q))
  dontCare : (q : Queue) → Fin (P.station.entries q) → ReservationStation.OpT

/-- `Queue(io.in)` and `Queue(loop_cmd)`: two entries. -/
def cmdQueue : QueueShape := ⟨2, false, false, by decide⟩

section Wires

variable {P : Params} (s : State P) (inp : Input P)

/-- `rob_overloaded`. -/
def State.overloaded (f : Fsm) (q : Queue) : Bool := s.utilization f q ≥ P.station.entries q

/-! The convolution unroller. -/

def State.convInput : LoopConv.Input where
  cmd := inp.raw.map fun
    | .conv x => .loop x
    | .other _ => .other 0
  outReady := cmdQueue.enqReady s.cmds false
  ldOverloaded := s.overloaded .conv .ld
  exOverloaded := s.overloaded .conv .ex
  stOverloaded := s.overloaded .conv .st

/-- `io.cmd.fire` of a unit of the convolution unroller. -/
def State.convFires (u : LoopConv.Unroller) : Bool :=
  s.conv.regs.cmdValid (s.convInput inp) u && s.conv.regs.outReady (s.convInput inp) u

/-- `unrolled_cmd` of the convolution unroller: the first valid input of the arbiter. -/
def State.convUnrolled : Option Cmd :=
  ([.st, .ex, .ldBias, .ldWeights, .ldInput].find? (s.conv.regs.cmdValid (s.convInput inp))).bind
    fun u => (Pipeline.out (s.conv.regs.units u).pipe).map (ofConv inp.convRs.1 inp.convRs.2)

/-- `io.out` of the convolution unroller. -/
def State.convOut : Option GemminiCmd :=
  if s.conv.regs.loopConfigured then
    (s.convUnrolled inp).map fun c => ⟨.station c, fun f => f == .conv⟩
  else
    match inp.raw with
    | some (.other x) => some ⟨x, fun _ => false⟩
    | _ => none

/-! The matrix multiplication unroller. -/

/-- `loop_configured` of the matrix multiplication unroller. -/
def State.loopConfigured : Bool :=
  (s.matmul.regs.slots.loops false).configured || (s.matmul.regs.slots.loops true).configured

def State.matmulInput : LoopMatmul.Input where
  cmd := s.cmds.head?.bind fun c =>
    match c.body with
    | .loop x => some x
    | _ => none
  outReady := cmdQueue.enqReady s.unrolled false
  ldOverloaded := s.overloaded .matmul .ld
  exOverloaded := s.overloaded .matmul .ex
  stOverloaded := s.overloaded .matmul .st

/-- `io.cmd.fire` of a unit of the matrix multiplication unroller. -/
def State.matmulFires (u : LoopMatmul.Unroller) : Bool :=
  s.matmul.regs.hands P.loops.toParams s.matmulInput u

/-- `unrolled_cmd` of the matrix multiplication unroller. -/
def State.matmulUnrolled : Option Cmd :=
  (s.matmul.regs.chosen P.loops.toParams s.matmulInput).map fun u =>
    ofMatmul inp.matmulRs.1 inp.matmulRs.2 ((s.matmul.regs.event u).cmd P.loops.toParams)

/-- The command at the head of the queue, if it is not one for the unroller. -/
def State.passing : Option GemminiCmd :=
  s.cmds.head?.filter fun c =>
    match c.body with
    | .loop _ => false
    | _ => true

/-- `io.out` of the matrix multiplication unroller. -/
def State.matmulOut : Option GemminiCmd :=
  if s.loopConfigured then
    (s.matmulUnrolled inp).map fun c => ⟨.station c, fun f => f == .matmul⟩
  else s.passing

/-- `cmd.ready` of the matrix multiplication unroller. -/
def State.cmdReady : Bool :=
  if s.passing.isSome then !s.loopConfigured && s.matmulInput.outReady
  else !(s.matmul.regs.slots.loops s.matmul.regs.slots.being).configured

/-! The reservation station. -/

def State.stationInput : ReservationStation.Input P.station where
  alloc := s.unrolled.head?.bind fun c =>
    match c.body with
    | .station x => some x
    | _ => none
  issueReady := inp.issueReady
  completed := inp.completed
  dontCare := inp.dontCare

/-- `unrolled_cmd.ready`. -/
def State.unrolledReady : Bool :=
  match s.unrolled.head?.map GemminiCmd.body with
  | some (.station _) => (allocFire s.station (s.stationInput inp)).isSome
  | some .aside => inp.asideReady
  | _ => false

/-- `conv_ld_issue_completed` and its like. -/
def State.issueCompleted (f : Fsm) (q : Queue) : Bool :=
  (issueFire s.station (s.stationInput inp) q).any fun i =>
    (s.station.entries q i).bits.completeOnIssue && s.fromFsm f q i

/-- `conv_ld_completed` and its like. -/
def State.returned (f : Fsm) (q : Queue) : Bool :=
  inp.completed.any fun slot => slot.1 == q && s.fromFsm f slot.1 slot.2

/-- `io.conv_ld_completed` and its like. -/
def State.completedNow (f : Fsm) (q : Queue) : ℕ :=
  (s.issueCompleted inp f q).toNat + (s.returned inp f q).toNat

def State.nextFromFsm (f : Fsm) (q : Queue) (i : Fin (P.station.entries q)) : Bool :=
  match allocFire s.station (s.stationInput inp) with
  | none => s.fromFsm f q i
  | some ⟨p, j, _⟩ =>
    if (⟨p, j⟩ : ReservationStation.Slot P.station) = ⟨q, i⟩ then s.unrolled.head?.any (·.fromFsm f)
    else s.fromFsm f q i

/-! The utilisation counters. -/

def State.fires (f : Fsm) (q : Queue) : Bool :=
  match f with
  | .conv => decide (∃ u, convKind u = q ∧ s.convFires inp u = true)
  | .matmul => decide (∃ u, matmulKind u = q ∧ s.matmulFires u = true)

/-- `ld_utilization` and its like, on `log2Up(max + 1)` bits. -/
def State.nextUtilization (f : Fsm) (q : Queue) : ℕ :=
  wire (log2Up (P.station.entries q + 1))
    (s.utilization f q + (s.fires inp f q).toNat - s.completedNow inp f q)

def State.handedNow (f : Fsm) : Option Cmd :=
  match f with
  | .conv =>
    if s.conv.regs.loopConfigured && (s.convInput inp).outReady then s.convUnrolled inp else none
  | .matmul => if s.loopConfigured && s.matmulInput.outReady then s.matmulUnrolled inp else none

def State.next : State P where
  conv := s.conv.next P.loops (s.convInput inp)
  cmds := cmdQueue.next s.cmds (s.convOut inp) s.cmdReady
  matmul := s.matmul.next P.loops.toParams s.matmulInput
  unrolled := cmdQueue.next s.unrolled (s.matmulOut inp) (s.unrolledReady inp)
  station := ReservationStation.step s.station (s.stationInput inp)
  fromFsm := s.nextFromFsm inp
  utilization := s.nextUtilization inp
  handed f q := s.handed f q + ((s.handedNow inp f).any fun c => c.q == q).toNat
  completed f q := s.completed f q + s.completedNow inp f q

end Wires

/-- The front end under any commands and any controllers that complete what they were given, once. -/
def machine (P : Params) : Machine (State P) (Input P) where
  init s := (LoopConv.machine P.loops).init s.conv ∧ s.cmds = [] ∧
    (LoopMatmul.machine P.loops.toParams).init s.matmul ∧ s.unrolled = [] ∧ s.station.Init ∧
    s.utilization = (fun _ _ => 0) ∧ s.handed = (fun _ _ => 0) ∧ s.completed = fun _ _ => 0
  legal s inp := CompletesIssued s.station (s.stationInput inp)
  step := State.next

instance (P : Params) (s : State P) (inp : Input P) : Decidable ((machine P).legal s inp) :=
  inferInstanceAs (Decidable (∀ q i, inp.completed = some ⟨q, i⟩ → _ ∧ _))

end Gemmini.Frontend
