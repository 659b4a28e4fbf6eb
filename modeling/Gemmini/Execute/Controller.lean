import Gemmini.Execute.Model
import Gemmini.Lib.Lockstep
import Gemmini.Mesh.WithDelays

/-!
# The execute controller, cycle by cycle

`ExecuteController.scala` without the im2col unit, and the handshakes of `MeshWithDelays.scala`: the
pending request, the three operand buffers and the tags in progress.

Banks answer in order and as late as they like, and when results leave the array is up to the
environment.  The row numbers and the lists at the end of the state are not in the hardware: they record
which row is which.
-/

namespace Gemmini.Execute

open ReservationStation (Cmd UDValid)
open Odometer (wrappingAdd)
open Mesh (Dataflow Support Req)
open Lockstep (Counter)

structure Params where
  array : ArrayConfig
  dataflow : Support
  hardcodeDToGarbageAddr : Bool
  spadReadDelay : ℕ
  exQueueLength : ℕ

namespace Params

variable (P : Params)

def shiftBits : ℕ := log2Up (8 * P.array.accBytes)

def rawHazardsAreImpossible : Bool := !P.array.exReadFromAcc && !P.array.exWriteToSpad

end Params

/-! ### Operands -/

inductive Lane
  | a
  | b
  | d
  deriving DecidableEq, Repr

namespace Lane

instance : Fintype Lane := ⟨{.a, .b, .d}, fun l => by cases l <;> simp⟩

instance : Nonempty Lane := ⟨.a⟩

def priority : Lane → ℕ
  | a => 0
  | b => 1
  | d => 2

def others : Lane → List Lane
  | a => [b, d]
  | b => [a, d]
  | d => [a, b]

theorem mem_others {l o : Lane} : o ∈ l.others ↔ o ≠ l := by cases l <;> cases o <;> decide

theorem exists_iff {p : Lane → Prop} : (∃ l, p l) ↔ (p a ∨ p b) ∨ p d := by
  constructor
  · rintro ⟨_ | _ | _, h⟩ <;> simp [h]
  · rintro ((h | h) | h) <;> exact ⟨_, h⟩

theorem forall_iff {p : Lane → Prop} : (∀ l, p l) ↔ (p a ∧ p b) ∧ p d :=
  ⟨fun all => ⟨⟨all a, all b⟩, all d⟩, fun ⟨⟨ha, hb⟩, hd⟩ l => by cases l <;> assumption⟩

end Lane

structure Lanes (α : Type) where
  a : α
  b : α
  d : α
  deriving DecidableEq, Repr

namespace Lanes

variable {α : Type}

def get (x : Lanes α) : Lane → α
  | .a => x.a
  | .b => x.b
  | .d => x.d

def of (f : Lane → α) : Lanes α := ⟨f .a, f .b, f .d⟩

@[simp] theorem get_of (f : Lane → α) (l : Lane) : (of f).get l = f l := by cases l <;> rfl

theorem ext_get {x y : Lanes α} (h : ∀ l, x.get l = y.get l) : x = y := by
  obtain ⟨a, b, d⟩ := x
  obtain ⟨a', b', d'⟩ := y
  exact congr (congr (congrArg mk (h .a)) (h .b)) (h .d)

end Lanes

/-! ### Commands and configuration -/

/-- `GemminiCmd`. -/
structure Issued where
  cmd : Cmd
  robId : UDValid ℕ
  deriving DecidableEq, Repr

/-- The registers that `CONFIG_EX` sets, with the shift of the results. -/
structure Config extends Regs where
  inShift : ℕ

def Config.configure (P : Params) (r : Config) (c : Cmd) : Config where
  toRegs := r.toRegs.configure P.dataflow c
  inShift := if IsConfigEx c ∧ bit c.rs1 7 = false then slice c.rs2 0 P.shiftBits else r.inShift

/-- A preload, a compute, or a compute with the preload behind it is fed. -/
inductive Performing
  | singlePreload
  | singleMul
  | mulPre
  deriving DecidableEq, Repr

/-- `control_state`. -/
inductive Control
  | waitingForCmd
  | compute
  | flush
  | flushing
  deriving DecidableEq, Repr

def doConfig (c : Issued) : Bool := c.cmd.funct = .config

def doComputes (c : Issued) : Bool := c.cmd.funct = .computeAndFlip || c.cmd.funct = .computeAndStay

def doPreloads (c : Issued) : Bool := c.cmd.funct = .preload

/-- A decoded operand: whether it is fed, the address of its first row, whether that is garbage, and its
size. -/
structure Operand where
  inputting : Bool
  addr : LocalAddr
  isGarbage : Bool
  rows : ℕ
  cols : ℕ

/-- `a_garbage`, `b_garbage`, `d_garbage`. -/
def Operand.garbage (o : Operand) : Bool := o.isGarbage || !o.inputting

/-- What is decoded for a step from the heads of the command queue.  `owner` is the number of the
command that an operand is named by, of the first command if it is not fed. -/
structure Step where
  performing : Performing
  config : Config
  owner : Lanes ℕ
  lanes : Lanes Operand
  cAddr : LocalAddr
  cRows : ℕ
  cCols : ℕ
  robId : UDValid ℕ
  prop : Bool

/-- What a step feeds: the operands that are fed and not garbage.  The others are decoded from heads
that need not be there. -/
structure Plan where
  performing : Performing
  config : Config
  owner : Lanes ℕ
  operands : Lanes (Option Operand)

def Step.plan (st : Step) : Plan where
  performing := st.performing
  config := st.config
  owner := st.owner
  operands := .of fun l => if (st.lanes.get l).garbage then none else some (st.lanes.get l)

section Decode

variable (P : Params) (r : Config) (heads : ℕ → Issued)

def aCols (p : ArrayConfig) (r : Regs) (x : BitVec 64) : ℕ :=
  if r.aTranspose then rowsDefault p x else colsDefault p x

def bCols (p : ArrayConfig) (df : Support) (r : Regs) (x : BitVec 64) : ℕ :=
  if currentDataflow df r = .os && r.bdTranspose then rowsDefault p x else colsDefault p x

def dCols (p : ArrayConfig) (df : Support) (r : Regs) (x : BitVec 64) : ℕ :=
  if currentDataflow df r = .ws && r.bdTranspose then rowsDefault p x else colsDefault p x

def preloadCmdPlace : ℕ := if doPreloads (heads 0) then 0 else 1

def aAddressPlace : ℕ :=
  if preloadCmdPlace heads = 0 then 1
  else if aShouldBeFedIntoTransposer P.dataflow r.toRegs then 2 else 0

def bAddressPlace : ℕ :=
  if preloadCmdPlace heads = 0 then 1
  else if bShouldBeFedIntoTransposer P.dataflow r.toRegs then 2 else 0

/-- The head of the queue that names an operand, and the word in which it does. -/
def placeOf : Lane → ℕ
  | .a => aAddressPlace P r heads
  | .b => bAddressPlace P r heads
  | .d => preloadCmdPlace heads

def wordOf (l : Lane) : BitVec 64 :=
  match l with
  | .b => (heads (placeOf P r heads l)).cmd.rs2
  | _ => (heads (placeOf P r heads l)).cmd.rs1

/-- The operands that enter as they are read; those of a single preload or compute that do not are
zeroed. -/
def passes (k : Performing) : Lane → Bool
  | .a => match k with
    | .singlePreload => aShouldBeFedIntoTransposer P.dataflow r.toRegs
    | .singleMul => !aShouldBeFedIntoTransposer P.dataflow r.toRegs
    | .mulPre => true
  | .b => match k with
    | .singlePreload => bShouldBeFedIntoTransposer P.dataflow r.toRegs
    | .singleMul => !bShouldBeFedIntoTransposer P.dataflow r.toRegs
    | .mulPre => true
  | .d => true

/-- `start_inputting_a`, `start_inputting_b`, `start_inputting_d`. -/
def startInputting (k : Performing) (l : Lane) : Bool :=
  match l, k with
  | .d, .singleMul => false
  | _, _ => passes P r k l

def operandOf (k : Performing) (l : Lane) (x : BitVec 64) : Operand where
  inputting := startInputting P r k l
  addr := LocalAddr.ofWord P.array.geometry x
  isGarbage := match l with
    | .a => aGarbage P.array x
    | .b => bGarbage P.array P.dataflow P.hardcodeDToGarbageAddr x
    | .d => dGarbage P.array P.dataflow P.hardcodeDToGarbageAddr x
  rows := match l with
    | .a => aRows P.array r.toRegs x
    | .b => bRows P.array P.dataflow r.toRegs x
    | .d => dRows P.array P.dataflow r.toRegs x
  cols := match l with
    | .a => aCols P.array r.toRegs x
    | .b => bCols P.array P.dataflow r.toRegs x
    | .d => dCols P.array P.dataflow r.toRegs x

/-- The step that feeds the operands named by the heads, the first of which has the given number. -/
def decode (retired : ℕ) (inPropFlush : Bool) (k : Performing) : Step :=
  let preload := heads (preloadCmdPlace heads)
  let c := LocalAddr.ofWord P.array.geometry preload.cmd.rs2
  { performing := k
    config := r
    owner := .of fun l => retired + if startInputting P r k l then placeOf P r heads l else 0
    lanes := .of fun l => operandOf P r k l (wordOf P r heads l)
    cAddr := c
    cRows := rowsDefault P.array preload.cmd.rs2
    cCols := colsDefault P.array preload.cmd.rs2
    robId := {
      valid := k ≠ .singleMul && !c.isGarbage P.array.geometry
      bits := preload.robId.bits }
    prop := if k = .singlePreload then inPropFlush else (heads 0).cmd.funct = .computeAndFlip }

/-- `total_rows`: the rows that each operand is stepped through. -/
def Plan.totalRows (pl : Plan) : ℕ :=
  let r := pl.config.toRegs
  if currentDataflow P.dataflow r = .ws && pl.operands.d.isNone &&
      !aShouldBeFedIntoTransposer P.dataflow r && !bShouldBeFedIntoTransposer P.dataflow r &&
      !dShouldBeFedIntoTransposer P.dataflow r then
    let rowsA := (pl.operands.a.map (·.rows)).getD 1
    let rowsB := (pl.operands.b.map (·.rows)).getD 1
    max (max rowsA rowsB) 4 % 2 ^ log2Up (P.array.dim + 1)
  else P.array.dim

def Step.totalRows (st : Step) : ℕ := st.plan.totalRows P

end Decode

/-! ### Reads, the control queue and the array -/

structure Bank where
  isAcc : Bool
  index : ℕ
  deriving DecidableEq, Repr

def spBank (g : Geometry) (a : LocalAddr) : ℕ :=
  a.data % 2 ^ g.spAddrBits / 2 ^ log2Up g.spBankEntries

/-- A read that a bank has accepted for a row of a command, and what it returns. -/
structure Read (E : Type) where
  bank : Bank
  addr : LocalAddr
  lane : Lane
  owner : ℕ
  number : ℕ
  data : ℕ → E

/-- `ComputeCntlSignals`, with the numbers of the step and of the rows. -/
structure Entry where
  step : Step
  serial : ℕ
  bank : Lanes Bank
  fire : Lanes Bool
  unpaddedCols : Lanes ℕ
  first : Bool
  number : Lanes ℕ

def Entry.needs (e : Entry) (l : Lane) : Bool :=
  e.fire.get l && !(e.step.lanes.get l).garbage && e.unpaddedCols.get l > 0

/-- `mesh_tag`. -/
structure Tag where
  robId : UDValid ℕ
  addr : LocalAddr
  rows : ℕ
  cols : ℕ

/-- A row in an operand buffer of the array, and whether it was passed on or zeroed. -/
structure Fed (E : Type) where
  step : Step
  serial : ℕ
  number : ℕ
  passed : Bool
  data : ℕ → E

/-- Three rows that entered the array together, and the request they entered under. -/
structure Entered (E : Type) where
  req : Req Tag
  rows : Lanes (Option (Fed E))

structure Out where
  totalRows : ℕ
  last : Bool
  deriving DecidableEq, Repr

structure Input (E : Type) where
  cmd : Option Issued
  bankReady : Bank → Bool
  /-- What the read that a bank takes in this cycle will return. -/
  readData : Bank → ℕ → E
  respValid : Bank → Bool
  /-- What is on the port of a bank that presents none. -/
  idleData : Bank → ℕ → E
  room : Bool
  /-- What an empty control queue leaves on the request port. -/
  idleReq : Req Tag
  out : Option Out

/-- The registers of the controller, the handshakes of the array, and the reads in the banks. -/
structure State (E : Type) where
  cmds : List Issued
  control : Control
  perform : Performing
  fire : Lanes Counter
  aAddrOffset : ℕ
  config : Config
  inPropFlush : Bool
  pending : UDValid ℕ × UDValid ℕ
  outputCounter : ℕ
  /-- `mesh_cntl_signals_q`. -/
  cntl : List Entry
  reqValid : Bool
  req : Req Tag
  fireCounter : ℕ
  buf : Lanes (Option (Fed E))
  tags : List Tag
  /-- The reads whose responses have not been consumed. -/
  reads : List (Read E)
  /-- The commands received and the number of them that have left the queue. -/
  received : List Issued
  retired : ℕ
  /-- The steps begun, the number of them whose tag has left the array, the rows fired, the reads
  accepted and the rows that entered the array. -/
  steps : List Plan
  completed : ℕ
  fired : Lanes ℕ
  asked : List (Read E)
  entered : List (Entered E)

namespace State

variable {E : Type} (P : Params) (s : State E) (inp : Input E)

/-! #### The command queue -/

def head (i : ℕ) : Issued := s.cmds.getD i ⟨⟨.config, 0, 0⟩, ⟨false, 0⟩⟩

def headValid (i : ℕ) : Bool := i < s.cmds.length

/-- `is_same_address` of a tag and an operand word. -/
def sameAddress (t : LocalAddr) (x : BitVec 64) : Bool :=
  let y := LocalAddr.ofWord P.array.geometry x
  t.isAccAddr == y.isAccAddr && t.data == y.data

def rawHazard (preload compute : Issued) : Bool :=
  s.tags.any fun t => !t.addr.isGarbage P.array.geometry &&
    (sameAddress P t.addr preload.cmd.rs1 || sameAddress P t.addr compute.cmd.rs1 ||
      sameAddress P t.addr compute.cmd.rs2) && !P.rawHazardsAreImpossible

def rawHazardPre : Bool := s.rawHazard P (s.head 0) (s.head 1)

def rawHazardMulpre : Bool := s.rawHazard P (s.head 1) (s.head 2)

def thirdInstructionNeeded : Bool :=
  aAddressPlace P s.config s.head > 1 || bAddressPlace P s.config s.head > 1 ||
    preloadCmdPlace s.head > 1 || !P.rawHazardsAreImpossible

def matmulInProgress : Bool := s.tags.any fun t => t.robId.valid

/-- What is done in `waiting_for_cmd`. -/
inductive Action
  | config
  | issue (k : Performing)
  | flush
  | stay
  deriving DecidableEq, Repr

def action : Action :=
  let os := currentDataflow P.dataflow s.config.toRegs = .os
  if s.headValid 0 then
    if doConfig (s.head 0) && !s.matmulInProgress && !(s.pending.1.valid || s.pending.2.valid) then
      .config
    else if doPreloads (s.head 0) && s.headValid 1 &&
        (P.rawHazardsAreImpossible || !s.rawHazardPre P) then
      .issue .singlePreload
    else if doComputes (s.head 0) && s.headValid 1 && doPreloads (s.head 1) &&
        (!s.thirdInstructionNeeded P || (s.headValid 2 && !s.rawHazardMulpre P)) then
      .issue .mulPre
    else if doComputes (s.head 0) then .issue .singleMul
    else if s.matmulInProgress && (os || doConfig (s.head 0)) then .flush
    else .stay
  else if s.matmulInProgress && os then .flush
  else .stay

/-- `performing_single_preload`, `performing_single_mul`, `performing_mul_pre`. -/
def performing : Option Performing :=
  match s.control with
  | .waitingForCmd => match s.action P with
    | .issue k => some k
    | _ => none
  | .compute => some s.perform
  | _ => none

def current : Option Step :=
  (s.performing P).map (decode P s.config s.head s.retired s.inPropFlush)

/-! #### The rows of a step -/

section Rows

variable (st : Step) (l : Lane)

/-- The row of an operand that its counter is at; the rows of D are taken from the last. -/
def rowOf : ℕ :=
  match l with
  | .d => P.array.dim - 1 - s.fire.d.counter
  | _ => (s.fire.get l).counter

/-- `a_address`, `b_address`, `d_address`. -/
def address : LocalAddr :=
  (st.lanes.get l).addr.add P.array.geometry (match l with
    | .a => s.aAddrOffset
    | _ => s.rowOf P l)

/-- `a_row_is_not_all_zeros`, `b_row_is_not_all_zeros`, `d_row_is_not_all_zeros`. -/
def rowIsNotAllZeros : Bool := s.rowOf P l < (st.lanes.get l).rows

/-- `same_bank`: the accumulator counts as a single bank. -/
def sameBank (o : Lane) : Bool :=
  let x := st.lanes.get l
  let y := st.lanes.get o
  !(x.isGarbage || y.isGarbage || !x.inputting || !y.inputting) &&
    ((x.addr.isAccAddr && y.addr.isAccAddr) ||
      (!x.addr.isAccAddr && !y.addr.isAccAddr &&
        spBank P.array.geometry (s.address P st l) == spBank P.array.geometry (s.address P st o)))

def nextRow (total c : ℕ) : ℕ :=
  wrappingAdd (log2Up (P.array.dim + 1)) c 1 total true % 2 ^ log2Up P.array.dim

def oneAhead (o : Lane) : Bool :=
  (s.fire.get l).started && (s.fire.get l).counter == nextRow P (st.totalRows P) (s.fire.get o).counter

def mustWaitFor (o : Lane) : Bool :=
  (s.sameBank P st l o && decide (o.priority < l.priority) && s.fire.get l == s.fire.get o) ||
    s.oneAhead P st l o

/-- `a_valid`, `b_valid`, `d_valid`. -/
def valid : Bool := !l.others.any (s.mustWaitFor P st l)

/-- `a_read_from_acc`, `b_read_from_acc`, `d_read_from_acc`. -/
def readFromAcc : Bool := P.array.exReadFromAcc && (st.lanes.get l).addr.isAccAddr

def bank : Bank :=
  let a := s.address P st l
  if readFromAcc P st l then ⟨true, a.accBank P.array.geometry⟩
  else ⟨false, spBank P.array.geometry a⟩

def bankExists (b : Bank) : Bool :=
  b.index < if b.isAcc then P.array.geometry.accBanks else P.array.geometry.spBanks

/-- `read_a`, `read_b`, `read_d` at the bank of the row. -/
def wants : Bool :=
  s.valid P st l && bankExists P (s.bank P st l) && (st.lanes.get l).inputting &&
    !(st.lanes.get l).isGarbage && s.rowIsNotAllZeros P st l

/-- `a_ready`, `b_ready`, `d_ready`. -/
def ready : Bool := !(s.wants P st l && !inp.bankReady (s.bank P st l))

/-- `a_fire`, `b_fire`, `d_fire`. -/
def fires : Bool := s.valid P st l && s.ready P inp st l

def granted : Bool :=
  s.wants P st l && match l with
    | .b => true
    | .d => !(s.wants P st .b && s.bank P st .b == s.bank P st .d)
    | .a => !(s.wants P st .b && s.bank P st .b == s.bank P st .a) &&
        !(s.wants P st .d && s.bank P st .d == s.bank P st .a)

end Rows

/-! #### The handshakes of the array -/

/-- `input_next_row_into_spatial_array`. -/
def inputNextRow : Bool :=
  s.reqValid &&
    ((s.buf.a.isSome && s.buf.b.isSome && s.buf.d.isSome) || s.req.flush > 0)

/-- `total_fires - 1.U`. -/
def lastRow : ℕ :=
  (s.req.totalRows + 2 ^ log2Up (P.array.dim + 1) - 1) % 2 ^ log2Up (P.array.dim + 1)

def lastFire : Bool := s.fireCounter == s.lastRow P && s.inputNextRow

def reqReady : Bool := (!s.reqValid || s.lastFire P) && inp.room

/-- `io.a.ready`, `io.b.ready`, `io.d.ready` of the array. -/
def laneReady (l : Lane) : Bool :=
  (s.buf.get l).isNone || s.inputNextRow || s.reqReady P inp

/-! #### The head of the control queue -/

def oldest (b : Bank) : Option (Read E) := s.reads.find? fun x => x.bank = b

/-- `readValid`, `accReadValid`. -/
def responds (b : Bank) : Bool := inp.respValid b && (s.oldest b).isSome

/-- `readData`, `accReadData`. -/
def port (b : Bank) : ℕ → E :=
  match inp.respValid b, s.oldest b with
  | true, some x => x.data
  | _, _ => inp.idleData b

section Head

variable [Zero E] (e : Entry) (l : Lane)

/-- `dataA_valid`, `dataB_valid`, `dataD_valid`. -/
def dataValid : Bool :=
  (e.step.lanes.get l).garbage || e.unpaddedCols.get l == 0 || s.responds inp (e.bank.get l)

/-- `dataA_unpadded`, `dataB_unpadded`, `dataD_unpadded`. -/
def unpadded : ℕ → E :=
  if l ≠ .a ∧ (e.step.lanes.get l).isGarbage = true then fun _ => 0 else s.port inp (e.bank.get l)

/-- The row presented to the array: padded with zeros, and all zeros if the operand is not fed now. -/
def presented : Fed E where
  step := e.step
  serial := e.serial
  number := e.number.get l
  passed := passes P s.config e.step.performing l
  data i := if passes P s.config e.step.performing l ∧ i < e.unpaddedCols.get l then
    s.unpadded inp e l i else 0

/-- `mesh.io.a.fire`, `mesh.io.b.fire`, `mesh.io.d.fire`. -/
def meshFire : Bool := e.fire.get l && s.dataValid inp e l && s.laneReady P inp l

def deqReady : Bool :=
  decide (∀ l, e.fire.get l = true → s.meshFire P inp e l = true ∨ s.laneReady P inp l = false) &&
    (!e.first || s.reqReady P inp)

end Head

section Cycle

variable [Zero E]

/-- `mesh_cntl_signals_q.io.deq.fire`. -/
def deqFire : Bool :=
  match s.cntl with
  | [] => false
  | e :: _ => s.deqReady P inp e

/-- `cntl_ready`: a full queue takes an entry in the cycle in which one leaves. -/
def cntlReady : Bool := s.cntl.length < P.spadReadDelay + 1 || s.deqFire P inp

def arrives (l : Lane) : Option (Fed E) :=
  match s.cntl with
  | [] => none
  | e :: _ => if s.meshFire P inp e l then some (s.presented P inp e l) else none

def garbageAddr : LocalAddr where
  isAccAddr := true
  accumulate := true
  readFullAccRow := true
  normCmd := 0
  garbageBit := true
  data := 2 ^ P.array.geometry.maxAddrBits - 1

/-- `mesh.io.req` for an entry. -/
def requestOf (e : Entry) : Req Tag where
  control := {
    dataflow := currentDataflow P.dataflow e.step.config.toRegs
    propagate := if s.control = .flush then s.inPropFlush else e.step.prop
    shift := e.step.config.inShift }
  aTranspose := e.step.config.aTranspose
  bdTranspose := e.step.config.bdTranspose
  totalRows := e.step.totalRows P
  tag := {
    robId := e.step.robId
    addr := if e.step.performing = .singleMul then garbageAddr P else e.step.cAddr
    rows := e.step.cRows
    cols := e.step.cCols }
  flush := 0

/-- `mesh.io.req` of a flush. -/
def flushRequest : Req Tag :=
  { inp.idleReq with
    control := { inp.idleReq.control with propagate := s.inPropFlush }
    totalRows := P.array.dim
    flush := 1 }

/-- `mesh.io.req.fire`. -/
def reqFire : Option (Req Tag) :=
  if s.reqReady P inp then
    match s.cntl with
    | e :: _ => if s.deqFire P inp && (e.fire.a || e.fire.b || e.fire.d) then some (s.requestOf P e)
      else none
    | [] => if s.control = .flush then some (s.flushRequest P inp) else none
  else none

def entry (st : Step) : Entry where
  step := st
  serial := if s.control = .waitingForCmd then s.steps.length else s.steps.length - 1
  bank := .of (s.bank P st)
  fire := .of (s.fires P inp st)
  unpaddedCols := .of fun l => if s.rowIsNotAllZeros P st l then (st.lanes.get l).cols else 0
  first := !s.fire.a.started && !s.fire.b.started && !s.fire.d.started
  number := s.fired

def enq : Option Entry :=
  if s.cntlReady P inp then (s.current P).map (s.entry P inp) else none

/-- The bank takes the read of this row.  Only a read of the scratchpad waits for the control queue. -/
def readFires (st : Step) (l : Lane) : Bool :=
  s.granted P st l && inp.bankReady (s.bank P st l) &&
    ((s.bank P st l).isAcc || (P.array.exReadFromSpad && s.cntlReady P inp))

def newReads : List (Read E) :=
  match s.current P with
  | none => []
  | some st => [Lane.b, .d, .a].filterMap fun l =>
      if s.readFires P inp st l then
        some ⟨s.bank P st l, s.address P st l, l, st.owner.get l, s.fired.get l,
          inp.readData (s.bank P st l)⟩
      else none

def consumed : List Bank :=
  match s.cntl with
  | [] => []
  | e :: _ =>
    if s.deqFire P inp then
      (([Lane.a, .b, .d].filter fun l => s.meshFire P inp e l && e.needs l).map e.bank.get).dedup
    else []

/-! #### The clock edge -/

def isFiring (st : Step) : Bool :=
  st.lanes.a.inputting || st.lanes.b.inputting || st.lanes.d.inputting

/-- `total_rows - 1.U`. -/
def lastOf (total : ℕ) : ℕ :=
  (total + 2 ^ log2Up (P.array.dim + 1) - 1) % 2 ^ log2Up (P.array.dim + 1)

def aboutToFireAllRows (st : Step) : Bool :=
  decide (∀ l, ((s.fire.get l).counter = lastOf P (st.totalRows P) ∧ s.fires P inp st l = true) ∨
    (s.fire.get l).counter = 0) &&
    (s.fire.a.started || s.fire.b.started || s.fire.d.started) && s.cntlReady P inp

def finishes : Bool :=
  match s.control, s.current P with
  | .compute, some st => s.aboutToFireAllRows P inp st
  | _, _ => false

def nextFire (l : Lane) : Counter :=
  match s.current P with
  | none => ⟨0, (s.fire.get l).started⟩
  | some st =>
    let moved : Counter :=
      if !isFiring st then ⟨0, (s.fire.get l).started⟩
      else if s.fires P inp st l && s.cntlReady P inp then
        ⟨nextRow P (st.totalRows P) (s.fire.get l).counter, true⟩
      else s.fire.get l
    ⟨moved.counter, moved.started && !s.aboutToFireAllRows P inp st⟩

def nextOffset : ℕ :=
  match s.current P with
  | none => 0
  | some st =>
    if !isFiring st then 0
    else if s.fires P inp st .a && s.cntlReady P inp then
      if s.fire.a.counter = lastOf P (st.totalRows P) then 0
      else (s.aAddrOffset + s.config.aAddrStride) % 2 ^ (16 + log2Up P.array.dim)
    else s.aAddrOffset

/-- `cmd.pop`. -/
def pops : ℕ :=
  match s.control with
  | .waitingForCmd => if s.action P = .config then 1 else 0
  | .compute => if s.finishes P inp then if s.perform = .mulPre then 2 else 1 else 0
  | _ => 0

def nextControl : Control :=
  match s.control with
  | .waitingForCmd => match s.action P with
    | .issue _ => .compute
    | .flush => .flush
    | _ => .waitingForCmd
  | .compute => if s.finishes P inp then .waitingForCmd else .compute
  | .flush => if (s.reqFire P inp).isSome then .flushing else .flush
  | .flushing => if s.reqReady P inp then .waitingForCmd else .flushing

def isGarbageWord (x : BitVec 64) : Bool :=
  (LocalAddr.ofWord P.array.geometry x).isGarbage P.array.geometry

def nextInPropFlush : Bool :=
  let held := currentDataflow P.dataflow s.config.toRegs ≠ .ws && s.inPropFlush
  if s.finishes P inp ∧ currentDataflow P.dataflow s.config.toRegs = .os then
    match s.perform with
    | .singlePreload => !isGarbageWord P (s.head 0).cmd.rs2
    | .mulPre => !isGarbageWord P (s.head 1).cmd.rs2
    | .singleMul => held
  else held

/-- `mesh_completed_rob_id_fire`. -/
def meshCompleted : Bool :=
  match inp.out, s.tags with
  | some o, t :: _ => t.robId.valid && o.last
  | _, _ => false

/-- `pending_completed_rob_ids`: set by a finished step, reported when no result completes. -/
def nextPending : UDValid ℕ × UDValid ℕ :=
  let garbage (i : ℕ) : UDValid ℕ :=
    { (s.head i).robId with
      valid := (s.head i).robId.valid && isGarbageWord P (s.head (preloadCmdPlace s.head)).cmd.rs2 }
  let set : UDValid ℕ × UDValid ℕ :=
    if s.finishes P inp then
      match s.perform with
      | .singlePreload => (garbage 0, s.pending.2)
      | .mulPre => ((s.head 0).robId, garbage 1)
      | .singleMul => ((s.head 0).robId, s.pending.2)
    else s.pending
  if s.meshCompleted inp then set
  else if s.pending.1.valid then ({ set.1 with valid := false }, set.2)
  else if s.pending.2.valid then (set.1, { set.2 with valid := false })
  else set

def nextOutputCounter : ℕ :=
  match inp.out, s.tags with
  | some o, t :: _ =>
    if t.robId.valid then
      wrappingAdd (log2Up (P.array.dim + 1)) s.outputCounter 1 o.totalRows true %
        2 ^ log2Up P.array.dim
    else s.outputCounter
  | _, _ => s.outputCounter

def write : Option LocalRow :=
  match inp.out, s.tags with
  | some o, t :: _ =>
    if t.robId.valid && !t.addr.isGarbage P.array.geometry &&
        writeThisRow P.dataflow s.config.toRegs t.rows o.totalRows s.outputCounter then
      writeRow P.array (wAddress P.array P.dataflow s.config.toRegs t.addr o.totalRows s.outputCounter)
    else none
  | _, _ => none

def keptTags : List Tag :=
  match inp.out, s.tags with
  | some o, _ :: rest => if o.last then rest else s.tags
  | _, _ => s.tags

/-- `fire_counter` of the array. -/
def nextFireCounter : ℕ :=
  if s.inputNextRow then
    (if s.lastRow P = 0 then 0
      else if s.fireCounter ≥ s.lastRow P then s.fireCounter - s.lastRow P
      else s.fireCounter + 1) % 2 ^ log2Up P.array.dim
  else s.fireCounter

def newCmd : List Issued := if s.cmds.length < P.exQueueLength then inp.cmd.toList else []

def next : State E where
  cmds := s.cmds.drop (s.pops P inp) ++ s.newCmd P inp
  control := s.nextControl P inp
  perform := match s.control, s.action P with
    | .waitingForCmd, .issue k => k
    | _, _ => s.perform
  fire := .of (s.nextFire P inp)
  aAddrOffset := s.nextOffset P inp
  config := if s.control = .waitingForCmd ∧ s.action P = .config then
      s.config.configure P (s.head 0).cmd
    else s.config
  inPropFlush := s.nextInPropFlush P inp
  pending := s.nextPending P inp
  outputCounter := s.nextOutputCounter P inp
  cntl := (if s.deqFire P inp then s.cntl.tail else s.cntl) ++ (s.enq P inp).toList
  reqValid := match s.reqFire P inp with
    | some _ => true
    | none => if s.lastFire P then s.req.flush > 1 else s.reqValid
  req := match s.reqFire P inp with
    | some r => r
    | none => if s.lastFire P then { s.req with flush := (s.req.flush + 3) % 4 } else s.req
  fireCounter := s.nextFireCounter P
  buf := .of fun l => match s.arrives P inp l with
    | some x => some x
    | none => if s.inputNextRow then none else s.buf.get l
  tags := s.keptTags inp ++ (((s.reqFire P inp).filter fun r => r.flush = 0).map (·.tag)).toList
  reads := (s.consumed P inp).foldl (fun rs b => rs.eraseP fun x => x.bank = b) s.reads ++
    s.newReads P inp
  received := s.received ++ s.newCmd P inp
  retired := s.retired + s.pops P inp
  steps := match s.control, s.current P with
    | .waitingForCmd, some st => s.steps ++ [st.plan]
    | _, _ => s.steps
  completed := s.completed + (s.tags.length - (s.keptTags inp).length)
  fired := .of fun l => s.fired.get l + ((s.enq P inp).any fun e => e.fire.get l).toNat
  asked := s.asked ++ s.newReads P inp
  entered := if s.inputNextRow && s.req.flush = 0 then s.entered ++ [⟨s.req, s.buf⟩] else s.entered

variable {P s inp}

theorem reqValid_next_of_fire {r : Req Tag} (fire : s.reqFire P inp = some r) :
    (s.next P inp).reqValid = true := by
  simp only [next, fire]

theorem req_next_of_fire {r : Req Tag} (fire : s.reqFire P inp = some r) : (s.next P inp).req = r := by
  simp only [next, fire]

theorem reqValid_next_of_none (none' : s.reqFire P inp = none) :
    (s.next P inp).reqValid = if s.lastFire P then decide (s.req.flush > 1) else s.reqValid := by
  simp only [next, none']

theorem req_next_of_none (none' : s.reqFire P inp = none) : (s.next P inp).req =
    if s.lastFire P then { s.req with flush := (s.req.flush + 3) % 4 } else s.req := by
  simp only [next, none']

end Cycle

/-- Out of reset: nothing is in flight and no command is there.  The fire counters are cleared in every
cycle without a step. -/
structure Init (s : State E) : Prop where
  cmds : s.cmds = []
  control : s.control = .waitingForCmd
  fire : ∀ l, s.fire.get l = ⟨0, false⟩
  aAddrOffset : s.aAddrOffset = 0
  aAddrStride : s.config.aAddrStride < 2 ^ 16
  pending : s.pending.1.valid = false ∧ s.pending.2.valid = false
  outputCounter : s.outputCounter = 0
  cntl : s.cntl = []
  reqValid : s.reqValid = false
  fireCounter : s.fireCounter = 0
  buf : ∀ l, s.buf.get l = none
  tags : s.tags = []
  reads : s.reads = []
  received : s.received = []
  retired : s.retired = 0
  steps : s.steps = []
  completed : s.completed = 0
  fired : ∀ l, s.fired.get l = 0
  asked : s.asked = []
  entered : s.entered = []

end State

/-- The controller and the array in any environment, with given configuration registers. -/
def controller (E : Type) [Zero E] (P : Params) (r : Config) : Machine (State E) (Input E) where
  init s := s.Init ∧ s.config = r
  legal _ _ := True
  step s inp := s.next P inp

instance [Zero E] (P : Params) (r : Config) (s : State E) (inp : Input E) :
    Decidable ((controller E P r).legal s inp) :=
  inferInstanceAs (Decidable True)

/-! ### Small runs -/

def State.reset (E : Type) (P : Params) (r : Config) : State E where
  cmds := []
  control := .waitingForCmd
  perform := .singlePreload
  fire := .of fun _ => ⟨0, false⟩
  aAddrOffset := 0
  config := r
  inPropFlush := false
  pending := (⟨false, 0⟩, ⟨false, 0⟩)
  outputCounter := 0
  cntl := []
  reqValid := false
  req := ⟨⟨.os, false, 0⟩, false, false, 0, ⟨⟨false, 0⟩, garbageAddr P, 0, 0⟩, 0⟩
  fireCounter := 0
  buf := .of fun _ => none
  tags := []
  reads := []
  received := []
  retired := 0
  steps := []
  completed := 0
  fired := .of fun _ => 0
  asked := []
  entered := []

theorem State.reset_init {E : Type} {P : Params} {r : Config} (stride : r.aAddrStride < 2 ^ 16) :
    (State.reset E P r).Init where
  cmds := rfl
  control := rfl
  fire l := by cases l <;> rfl
  aAddrOffset := rfl
  aAddrStride := stride
  pending := ⟨rfl, rfl⟩
  outputCounter := rfl
  cntl := rfl
  reqValid := rfl
  fireCounter := rfl
  buf l := by cases l <;> rfl
  tags := rfl
  reads := rfl
  received := rfl
  retired := rfl
  steps := rfl
  completed := rfl
  fired l := by cases l <;> rfl
  asked := rfl
  entered := rfl

theorem reachable_of_reset {E : Type} [Zero E] {P : Params} {r : Config}
    {C : State E → Input E → Prop} (stride : r.aAddrStride < 2 ^ 16) (is : List (Input E))
    (legal : ((controller E P r).restrict C).LegalRun (State.reset E P r) is) :
    ((controller E P r).restrict C).Reachable ((controller E P r).run (State.reset E P r) is) := by
  have start : ((controller E P r).restrict C).Reachable (State.reset E P r) :=
    .init ⟨State.reset_init stride, rfl⟩
  rw [← Machine.restrict_run C]
  exact start.run is legal

def fourExecute : Params := ⟨fourArray, .both, false, 4, 8⟩

def wsConfig : Config := ⟨⟨.ws, false, false, 1, 1, false⟩, 0⟩

/-- A cycle in which the banks take every read and present the responses that `resp` allows. -/
def cycle (cmd : Option Issued) (resp : Bank → Bool) : Input ℕ where
  cmd := cmd
  bankReady _ := true
  readData _ _ := 1
  respValid := resp
  idleData _ _ := 0
  room := true
  idleReq := (State.reset ℕ fourExecute wsConfig).req
  out := none

def command (funct : ReservationStation.Funct) (rs1 rs2 : BitVec 64) : Issued :=
  ⟨⟨funct, rs1, rs2⟩, ⟨true, 0⟩⟩

def block (addr : ℕ) : BitVec 64 := BitVec.ofNat 64 (4 * 2 ^ 48 + 4 * 2 ^ 32 + addr)

def noBlock : BitVec 64 := block (2 ^ 32 - 1)

end Gemmini.Execute
