import Gemmini.Lib.Slots
import Gemmini.LoopMatmul.Units

/-!
# The matrix multiplication unroller

`LoopMatmul.scala`, the combined loop: loops are configured into two slots and unrolled by the units,
whose commands go out through one arbiter.  The utilisation counters are inputs: each class of command
may be held back in any cycle.
-/

namespace Gemmini.LoopMatmul

open Odometer (floorAdd)

/-- The configuration registers of a slot, `LoopMatmulState`. -/
structure Cfg where
  maxK : ℕ
  maxJ : ℕ
  maxI : ℕ
  padK : ℕ
  padJ : ℕ
  padI : ℕ
  aDramAddr : ℕ
  bDramAddr : ℕ
  dDramAddr : ℕ
  cDramAddr : ℕ
  aDramStride : ℕ
  bDramStride : ℕ
  dDramStride : ℕ
  cDramStride : ℕ
  cSpadAddr : ℕ
  incAccAddr : Bool
  spadOnly : Bool
  aTranspose : Bool
  bTranspose : Bool
  act : ℕ
  lowD : Bool
  fullC : Bool
  exAccumulate : Bool
  aExSpadId : ℕ
  bExSpadId : ℕ
  aAddrStart : ℕ
  bAddrEnd : ℕ
  resaddAddrStart : ℕ
  deriving DecidableEq, Repr

structure Cfg.Fits (c : Cfg) : Prop where
  maxI : c.maxI < 2 ^ 16
  maxJ : c.maxJ < 2 ^ 16
  maxK : c.maxK < 2 ^ 16

inductive Funct
  | configBounds
  | configAddrsAB
  | configAddrsDC
  | configStridesAB
  | configStridesDC
  | configSpadAB
  | configSpadC
  | loopWs
  deriving DecidableEq, Repr

structure Cmd where
  funct : Funct
  rs1 : BitVec 64
  rs2 : BitVec 64
  deriving DecidableEq, Repr

inductive Stage
  | lda
  | ldb
  | ldd
  | ex
  | st
  deriving DecidableEq, Repr

instance : Fintype Stage := ⟨{.lda, .ldb, .ldd, .ex, .st}, fun s => by cases s <;> simp⟩

inductive Unroller
  | ldA
  | ldB
  | ldD
  | ex
  | stC
  | stCSpad
  deriving DecidableEq, Repr

instance : Fintype Unroller :=
  ⟨{.ldA, .ldB, .ldD, .ex, .stC, .stCSpad}, fun u => by cases u <;> simp⟩

namespace Unroller

def stage : Unroller → Stage
  | ldA => .lda
  | ldB => .ldb
  | ldD => .ldd
  | ex => .ex
  | stC => .st
  | stCSpad => .st

/-- A loop is stored by StC or, if it is to stay in the scratchpad, by StCSpad. -/
def serves (c : Cfg) : Unroller → Bool
  | stC => !c.spadOnly
  | stCSpad => c.spadOnly
  | _ => true

end Unroller

/-- Slots, stages and units of the unroller; `reset()` also clears `spad_only`. -/
def layout : Slots.Layout Cfg Stage Unroller where
  stage := Unroller.stage
  serves := Unroller.serves
  clear c := { c with spadOnly := false }
  serves_unique := by
    intro c u v hu hv same
    cases u <;> cases v <;> simp_all [Unroller.stage, Unroller.serves]

/-! ### Configuration -/

section Configure

variable (p : Params)

def Cmd.edit (x : Cmd) (c : Cfg) : Cfg :=
  match x.funct with
  | .configBounds => { c with
      maxK := slice x.rs2 32 16, maxJ := slice x.rs2 16 16, maxI := slice x.rs2 0 16
      padK := slice x.rs1 32 16, padJ := slice x.rs1 16 16, padI := slice x.rs1 0 16 }
  | .configAddrsAB => { c with
      spadOnly := false
      aDramAddr := slice x.rs1 0 p.coreMaxAddrBits, bDramAddr := slice x.rs2 0 p.coreMaxAddrBits }
  | .configAddrsDC => { c with
      spadOnly := false
      dDramAddr := slice x.rs1 0 p.coreMaxAddrBits, cDramAddr := slice x.rs2 0 p.coreMaxAddrBits }
  | .configStridesAB => { c with
      aDramStride := slice x.rs1 0 p.coreMaxAddrBits
      bDramStride := slice x.rs2 0 p.coreMaxAddrBits }
  | .configStridesDC => { c with
      dDramStride := slice x.rs1 0 p.coreMaxAddrBits
      cDramStride := slice x.rs2 0 p.coreMaxAddrBits }
  | .configSpadAB => { c with
      aAddrStart := slice x.rs1 0 (log2Up p.maxAddr)
      bAddrEnd := slice x.rs2 0 (log2Up (p.maxAddr + 1)) }
  | .configSpadC => c
  | .loopWs => { c with
      exAccumulate := bit x.rs1 0, fullC := bit x.rs1 1, lowD := bit x.rs1 2
      act := slice x.rs1 8 3, aExSpadId := slice x.rs1 18 2, bExSpadId := slice x.rs1 16 2
      aTranspose := bit x.rs2 0, bTranspose := bit x.rs2 1
      incAccAddr := bit x.rs2 8, spadOnly := bit x.rs2 9, cSpadAddr := slice x.rs2 32 32 }

/-- The stages that `LOOP_WS` asks to skip. -/
def Cmd.skips (x : Cmd) : Stage → Bool
  | .lda => bit x.rs2 3
  | .ldb => bit x.rs2 4
  | .ldd => bit x.rs2 5
  | .ex => bit x.rs2 6
  | .st => bit x.rs2 7

/-- `LOOP_WS` marks its loop as a residual addition. -/
def Cmd.resadd (x : Cmd) : Bool := bit x.rs2 2

def Cmd.config (x : Cmd) : Slots.Config Cfg Stage :=
  if x.funct = .loopWs then .run (x.edit p) x.skips else .edit (x.edit p)

end Configure

/-! ### Registers -/

/-- A unit with two counters: `i` and `k` in LdA, `j` and `k` in LdB, `i` and `j` in the others. -/
structure Walker (Req : Type) where
  req : Req
  inner : ℕ
  outer : ℕ

structure State where
  slots : Slots.State Cfg Stage Unroller
  isResadd : Bool
  ldDAddrStart : ℕ
  exCAddrStart : ℕ
  stCAddrStart : ℕ
  ldA : Walker LdAReq
  ldB : Walker LdBReq
  ldD : Walker LdDReq
  exReq : ExecuteReq
  exComp : Bool
  exBlock : Block
  stCReq : StCReq
  stCPhase : StCPhase
  stCCounters : StCCounters
  stCSpad : Walker StCSpadReq

/-- The loop command at the head of the queue, whether the command output is taken, and which classes of
command the reservation station has no room for. -/
structure Input where
  cmd : Option Cmd
  outReady : Bool
  ldOverloaded : Bool
  exOverloaded : Bool
  stOverloaded : Bool

/-! ### Requests -/

section Requests

variable (p : Params) (c : Cfg) (isResadd : Bool) (base : ℕ)

/-- The start of the half of the scratchpad that an `ex_spad_id` names, of addresses up to `top`. -/
def halfStart (top id : ℕ) : ℕ := wire 2 (id - 1) * (p.maxAddr / 2) % 2 ^ log2Up top

/-- The end of the half that an `ex_spad_id` names. -/
def halfEnd (top id : ℕ) : ℕ := id * (p.maxAddr / 2) % 2 ^ log2Up (top + 1)

namespace Cfg

/-- `ldA.io.req.bits`. -/
def ldAReq : LdAReq where
  maxI := c.maxI
  maxK := if isResadd then c.maxJ else c.maxK
  padI := c.padI % 2 ^ p.padBits
  padK := (if isResadd then c.padJ else c.padK) % 2 ^ p.padBits
  dramAddr := c.aDramAddr
  dramStride := c.aDramStride
  transpose := c.aTranspose
  addrStart := if isResadd then c.resaddAddrStart
    else if c.aExSpadId = 0 then c.aAddrStart else halfStart p p.maxAllAddr c.aExSpadId
  isResadd := isResadd

/-- `ldB.io.req.bits`. -/
def ldBReq : LdBReq where
  maxK := if isResadd then c.maxI else c.maxK
  maxJ := c.maxJ
  padK := (if isResadd then c.padI else c.padK) % 2 ^ p.padBits
  padJ := c.padJ % 2 ^ p.padBits
  dramAddr := c.bDramAddr
  dramStride := c.bDramStride
  transpose := c.bTranspose
  addrEnd := if isResadd then c.resaddAddrStart
    else if c.bExSpadId = 0 then c.bAddrEnd else halfEnd p p.maxAllAddr c.bExSpadId
  isResadd := isResadd

/-- `ldD.io.req.bits`. -/
def ldDReq : LdDReq where
  maxJ := c.maxJ
  maxI := c.maxI
  padJ := c.padJ % 2 ^ p.padBits
  padI := c.padI % 2 ^ p.padBits
  dramAddr := c.dDramAddr
  dramStride := c.dDramStride
  lowD := c.lowD
  addrStart := base

/-- `ex.io.req.bits`. -/
def exReq : ExecuteReq where
  maxJ := c.maxJ
  maxK := c.maxK
  maxI := c.maxI
  padJ := c.padJ % 2 ^ p.padBits
  padK := c.padK % 2 ^ p.padBits
  padI := c.padI % 2 ^ p.padBits
  aTranspose := c.aTranspose
  bTranspose := c.bTranspose
  accumulate := c.exAccumulate
  aAddrStart := if c.spadOnly || c.aExSpadId = 0 then c.aAddrStart
    else halfStart p p.maxAddr c.aExSpadId
  bAddrEnd := if c.spadOnly || c.bExSpadId = 0 then c.bAddrEnd
    else halfEnd p p.maxAddr c.bExSpadId
  cAddrStart := base
  skip := isResadd

/-- `stC.io.req.bits`. -/
def stCReq : StCReq where
  maxK := if isResadd then 1 else c.maxK
  maxJ := c.maxJ
  maxI := c.maxI
  padJ := c.padJ % 2 ^ p.padBits
  padI := c.padI % 2 ^ p.padBits
  dramAddr := c.cDramAddr
  dramStride := c.cDramStride
  fullC := c.fullC
  act := c.act
  addrStart := if isResadd then c.resaddAddrStart else base
  isResadd := isResadd

/-- `stC_spad.io.req.bits`. -/
def stCSpadReq : StCSpadReq where
  maxK := if isResadd then 1 else c.maxK
  maxJ := c.maxJ
  maxI := c.maxI
  padJ := c.padJ % 2 ^ p.padBits
  padI := c.padI % 2 ^ p.padBits
  dstAddr := c.cSpadAddr % 2 ^ log2Up p.maxAddr
  srcAddr := base
  fullC := c.fullC
  act := c.act
  isResadd := isResadd

end Cfg

end Requests

section Wires

variable (p : Params) (s : State) (inp : Input)

def State.requested (u : Unroller) : Cfg := (s.slots.loops (s.slots.requesting u.stage)).cfg

/-- What a request waits for besides a configured loop: the execute unit for the loads, the stores for
the execute unit or, in a residual addition, not. -/
def State.gate (u : Unroller) : Bool :=
  let l := s.slots.loops (s.slots.requesting u.stage)
  match u with
  | .ex => l.started .lda && l.started .ldb && l.started .ldd
  | .stC => s.isResadd || (l.started .ex && !l.cfg.spadOnly)
  | .stCSpad => l.started .ex && l.cfg.spadOnly
  | _ => true

def State.reqFire (u : Unroller) : Bool :=
  let l := s.slots.loops (s.slots.requesting u.stage)
  l.configured && !l.started u.stage && !s.slots.busy u && s.gate u

/-! ### Who is ahead -/

/-- Unit `u` does not work on the loop of unit `v`, as far as `v` can see. -/
def State.away (u v : Unroller) : Bool :=
  s.slots.loopId u != s.slots.loopId v || !s.slots.busy u

/-- `ld_ahead`: LdA and LdB are done or beyond the block, LdD is done.  `ldb_ahead` compares with the
`k` of LdA. -/
def State.ldAhead : Bool :=
  let b := s.exBlock
  let ldaAhead := s.away .ldA .ex || s.ldA.outer > b.k || (s.ldA.outer == b.k && s.ldA.inner > b.i)
  let ldbAhead := s.away .ldB .ex || s.ldB.outer > b.k || (s.ldA.outer == b.k && s.ldB.inner > b.j)
  ldaAhead && ldbAhead && s.away .ldD .ex

/-- What a store unit sees of the unit that fills the accumulator, `ex_completed`, `ex_k`, `ex_j` and
`ex_i`. -/
structure Seen where
  completed : Bool
  block : Block

/-- The execute unit as StC sees it; while `is_resadd` is set, the load units instead. -/
def State.seenByStC : Seen :=
  if s.isResadd then
    ⟨s.away .ldA .stC && s.away .ldB .stC, ⟨s.ldB.outer, s.ldB.inner, 0⟩⟩
  else ⟨s.away .ex .stC, s.exBlock⟩

def State.seenByStCSpad : Seen := ⟨s.away .ex .stCSpad, s.exBlock⟩

/-- `ex_ahead` of both store units, for the `blocks` blocks at `(i, j)`; the sums are on 16 bits. -/
def exAhead (seen : Seen) (isResadd : Bool) (act maxK i j blocks : ℕ) : Bool :=
  let next := (j + blocks) % 2 ^ 16
  if isResadd then
    seen.completed || seen.block.i > i || (seen.block.i == i && seen.block.j ≥ next)
  else
    seen.completed || (act != layernorm && act != softmax &&
      seen.block.k == wire 16 (maxK - 1) &&
      (seen.block.j ≥ next || (seen.block.j == wire 16 (next - 1) && seen.block.i > i)))

def State.stCAhead : Bool :=
  let c := s.stCCounters
  exAhead s.seenByStC s.stCReq.isResadd s.stCReq.act s.stCReq.maxK c.i c.j (s.stCReq.blocks p c)

def State.stCSpadAhead : Bool :=
  let r := s.stCSpad
  exAhead s.seenByStCSpad r.req.isResadd r.req.act r.req.maxK r.inner r.outer (r.req.blocks r.outer)

/-! ### The command output -/

/-- `cmd.valid` of a unit. -/
def State.offers (u : Unroller) : Bool :=
  s.slots.busy u &&
    match u with
    | .ldA => !inp.ldOverloaded && s.ldA.req.dramAddr != 0
    | .ldB => !inp.ldOverloaded && s.ldB.req.dramAddr != 0
    | .ldD => !inp.ldOverloaded && s.ldD.req.dramAddr != 0
    | .ex => !inp.exOverloaded && s.ldAhead && !s.exReq.skip
    | .stC => !inp.stOverloaded && s.stCAhead p && s.stCReq.dramAddr != 0
    | .stCSpad => !inp.stOverloaded && s.stCSpadAhead

/-- `ldab_arb`: LdA goes before LdB.  The one on the older loop is served; on one loop, B follows A by
block rows. -/
def State.prefersA : Bool :=
  let same := s.slots.loopId .ldA == s.slots.loopId .ldB
  let idleA := !s.slots.busy .ldA
  let olderA := !same && s.slots.loopId .ldA == s.slots.head
  let olderB := !same && s.slots.loopId .ldB == s.slots.head
  let forceA := if s.isResadd then same && !idleA else olderA
  let forceB := if s.isResadd then olderB || idleA else olderB
  if forceA then true
  else if forceB then false
  else if idleA then false
  else if !s.slots.busy .ldB then true
  else !(s.ldA.outer > s.ldB.outer || (s.ldB.outer == 0 && s.ldB.inner == 0))

/-- `arb`: the unit whose command is on the output. -/
def State.chosen : Option Unroller :=
  let ldAB : Unroller := if s.prefersA then .ldA else .ldB
  [.stC, .ex, .ldD, ldAB, .stCSpad].find? (s.offers p inp)

/-- `cmd.fire` of a unit. -/
def State.hands (u : Unroller) : Bool := inp.outReady && s.chosen p inp == some u

/-! ### Counters -/

def State.done (u : Unroller) : Bool :=
  match u with
  | .ldA => s.ldA.req.dramAddr == 0 || (s.hands p inp .ldA &&
      (s.ldA.req.counters p s.ldA.inner s.ldA.outer).wraps 16 s.ldA.req.maxI s.ldA.req.maxK)
  | .ldB => s.ldB.req.dramAddr == 0 || (s.hands p inp .ldB &&
      (s.ldB.req.counters p s.ldB.outer s.ldB.inner).wraps 16 s.ldB.req.maxJ s.ldB.req.maxK)
  | .ldD => s.ldD.req.dramAddr == 0 || (s.hands p inp .ldD &&
      (s.ldD.req.counters p s.ldD.inner s.ldD.outer).wraps 16 s.ldD.req.maxI s.ldD.req.maxJ)
  | .ex => s.exReq.skip || (s.hands p inp .ex && s.exComp && s.exReq.wraps s.exBlock)
  | .stC => s.stCReq.dramAddr == 0 || (s.hands p inp .stC &&
      match s.stCPhase with
      | .st => (s.stCReq.counters p s.stCCounters).wraps 16 s.stCReq.maxI s.stCReq.maxJ
      | .lnConfig => false
      | .lnSt => s.stCReq.lnNext p s.stCCounters == ⟨0, 0, 0, 0, 0⟩)
  | .stCSpad => s.hands p inp .stCSpad &&
      (s.stCSpad.req.counters s.stCSpad.inner s.stCSpad.outer).wraps 16 s.stCSpad.req.maxI
        s.stCSpad.req.maxJ

def Walker.next {Req : Type} (w : Walker Req) (request : Option Req) (hands : Bool)
    (stepped : Odometer.Pair) : Walker Req :=
  match request with
  | some req => ⟨req, 0, 0⟩
  | none => if hands then ⟨w.req, stepped.x, stepped.y⟩ else w

def State.given {Req : Type} (u : Unroller) (req : Req) : Option Req :=
  if s.reqFire u then some req else none

def State.stCNext : StCPhase × StCCounters :=
  match s.stCPhase with
  | .st => (.st, s.stCReq.stNext p s.stCCounters)
  | .lnConfig => (.lnSt, s.stCCounters)
  | .lnSt =>
    let c := s.stCReq.lnNext p s.stCCounters
    (if c.j = 0 then .lnConfig else .lnSt, c)

/-- An accumulator base after a request of a loop that moves on to the other half. -/
def nextBase (base : ℕ) (moves : Bool) : ℕ :=
  if moves then floorAdd (log2Up p.maxAccAddr) base (p.maxAccAddr / 2) p.maxAccAddr else base

def Cfg.moves (c : Cfg) : Bool := if c.spadOnly then c.incAccAddr else c.cDramAddr != 0

def Input.config : Option (Slots.Config Cfg Stage) := inp.cmd.map (Cmd.config p)

def State.slotsInput : Slots.Input Cfg Stage Unroller where
  config := inp.config p
  fire := s.reqFire
  done := s.done p inp

def State.takenCmd : Option Cmd :=
  if (s.slots.loops s.slots.being).configured then none else inp.cmd

/-- The `LOOP_WS` taken in this cycle. -/
def State.takenRun : Option Cmd := (s.takenCmd inp).filter (·.funct == .loopWs)

def State.next : State where
  slots := s.slots.next layout (s.slotsInput p inp)
  isResadd := (s.takenRun inp).elim s.isResadd Cmd.resadd
  ldDAddrStart :=
    nextBase p s.ldDAddrStart (s.reqFire .ldD && (s.requested .ldD).cDramAddr != 0)
  exCAddrStart := nextBase p s.exCAddrStart (s.reqFire .ex && (s.requested .ex).moves)
  stCAddrStart := nextBase p s.stCAddrStart
    ((s.reqFire .stC || s.reqFire .stCSpad) && (s.requested .stC).moves)
  ldA := s.ldA.next (s.given .ldA ((s.requested .ldA).ldAReq p s.isResadd)) (s.hands p inp .ldA)
    ((s.ldA.req.counters p s.ldA.inner s.ldA.outer).next 16 s.ldA.req.maxI s.ldA.req.maxK)
  ldB := s.ldB.next (s.given .ldB ((s.requested .ldB).ldBReq p s.isResadd)) (s.hands p inp .ldB)
    ((s.ldB.req.counters p s.ldB.outer s.ldB.inner).next 16 s.ldB.req.maxJ s.ldB.req.maxK)
  ldD := s.ldD.next (s.given .ldD ((s.requested .ldD).ldDReq p s.ldDAddrStart)) (s.hands p inp .ldD)
    ((s.ldD.req.counters p s.ldD.inner s.ldD.outer).next 16 s.ldD.req.maxI s.ldD.req.maxJ)
  exReq := if s.reqFire .ex then (s.requested .ex).exReq p s.isResadd s.exCAddrStart else s.exReq
  exComp := if s.reqFire .ex then false else s.exComp ^^ s.hands p inp .ex
  exBlock :=
    if s.reqFire .ex then ⟨0, 0, 0⟩
    else if s.hands p inp .ex && s.exComp then s.exReq.next s.exBlock else s.exBlock
  stCReq :=
    if s.reqFire .stC then (s.requested .stC).stCReq p s.isResadd s.stCAddrStart else s.stCReq
  stCPhase :=
    if s.reqFire .stC then
      if ((s.requested .stC).stCReq p s.isResadd s.stCAddrStart).normalizes then .lnConfig else .st
    else if s.hands p inp .stC then (s.stCNext p).1 else s.stCPhase
  stCCounters :=
    if s.reqFire .stC then ⟨0, 0, 0, 0, 0⟩
    else if s.hands p inp .stC then (s.stCNext p).2 else s.stCCounters
  stCSpad := s.stCSpad.next
    (s.given .stCSpad ((s.requested .stCSpad).stCSpadReq p s.isResadd s.stCAddrStart))
    (s.hands p inp .stCSpad)
    ((s.stCSpad.req.counters s.stCSpad.inner s.stCSpad.outer).next 16 s.stCSpad.req.maxI
      s.stCSpad.req.maxJ)

end Wires

/-! ### What goes out -/

/-- A command handed out, as the request and the counters that it was made from. -/
inductive Event
  | ldA (req : LdAReq) (i k : ℕ)
  | ldB (req : LdBReq) (k j : ℕ)
  | ldD (req : LdDReq) (i j : ℕ)
  | preload (req : ExecuteReq) (b : Block)
  | compute (req : ExecuteReq) (b : Block)
  | stC (req : StCReq) (c : StCCounters)
  | normConfig (req : StCReq) (c : StCCounters)
  | normStC (req : StCReq) (c : StCCounters)
  | stCSpad (req : StCSpadReq) (i j : ℕ)
  deriving DecidableEq, Repr

def Event.cmd (p : Params) : Event → OutCmd
  | ldA req i k => req.cmd p i k
  | ldB req k j => req.cmd p k j
  | ldD req i j => req.cmd p i j
  | preload req b => req.preCmd p b
  | compute req b => req.compCmd p b
  | stC req c => req.mvoutCmd p c
  | normConfig _ c => .configNorm c.lnStatId
  | normStC req c => req.lnMvoutCmd p c
  | stCSpad req i j => req.mvoutCmd p i j

/-- `cmd.bits` of a unit. -/
def State.event (s : State) : Unroller → Event
  | .ldA => .ldA s.ldA.req s.ldA.inner s.ldA.outer
  | .ldB => .ldB s.ldB.req s.ldB.outer s.ldB.inner
  | .ldD => .ldD s.ldD.req s.ldD.inner s.ldD.outer
  | .ex => if s.exComp then .compute s.exReq s.exBlock else .preload s.exReq s.exBlock
  | .stC =>
    match s.stCPhase with
    | .st => .stC s.stCReq s.stCCounters
    | .lnConfig => .normConfig s.stCReq s.stCCounters
    | .lnSt => .normStC s.stCReq s.stCCounters
  | .stCSpad => .stCSpad s.stCSpad.req s.stCSpad.inner s.stCSpad.outer

/-- The registers with the history: the loops, the commands that configured each of them, and the
commands handed out, each with the number of its loop. -/
structure Tracked where
  regs : State
  start : Bool
  first : ℕ
  infos : List (Cfg × (Stage → Bool))
  serving : Unroller → Option ℕ
  givens : List (List Cmd)
  pending : List Cmd
  log : List (ℕ × Event)

namespace Tracked

variable (p : Params) (t : Tracked) (inp : Input)

def slots : Slots.Tracked Cfg Stage Unroller :=
  ⟨t.regs.slots, t.start, t.first, t.infos, t.serving⟩

def handed : Option (ℕ × Event) :=
  if inp.outReady then
    (t.regs.chosen p inp).bind fun u => (t.serving u).map fun n => (n, t.regs.event u)
  else none

def next : Tracked :=
  let slots := t.slots.next layout (t.regs.slotsInput p inp)
  { regs := t.regs.next p inp
    start := t.start
    first := slots.first
    infos := slots.infos
    serving := slots.serving
    givens := t.givens ++ (t.regs.takenRun inp).toList.map fun x => t.pending ++ [x]
    pending :=
      if (t.regs.takenRun inp).isSome then [] else t.pending ++ (t.regs.takenCmd inp).toList
    log := t.log ++ (t.handed p inp).toList }

end Tracked

/-- Out of reset all slots are free, the units idle and the accumulator bases zero; of the configuration
only the addresses that divide the memories are set. -/
structure State.Initial (p : Params) (s : State) : Prop where
  free : ∀ i, (s.slots.loops i).configured = false ∧ (s.slots.loops i).running = false ∧
    ∀ k, (s.slots.loops i).started k = false ∧ (s.slots.loops i).completed k = false
  fits : ∀ i, (s.slots.loops i).cfg.Fits
  spadOnly : ∀ i, (s.slots.loops i).cfg.spadOnly = false
  aAddrStart : ∀ i, (s.slots.loops i).cfg.aAddrStart = i.toNat * (p.maxAddr / 2)
  bAddrEnd : ∀ i, (s.slots.loops i).cfg.bAddrEnd = (i.toNat + 1) * (p.maxAddr / 2)
  resaddAddrStart : ∀ i, (s.slots.loops i).cfg.resaddAddrStart = i.toNat * (p.maxAccAddr / 2)
  idle : ∀ u, s.slots.busy u = false
  isResadd : s.isResadd = false
  ldDAddrStart : s.ldDAddrStart = 0
  exCAddrStart : s.exCAddrStart = 0
  stCAddrStart : s.stCAddrStart = 0

def machine (p : Params) : Machine Tracked Input where
  init t := t.regs.Initial p ∧ t.start = t.regs.slots.head ∧ t.first = 0 ∧ t.infos = [] ∧
    (∀ u, t.serving u = none) ∧ t.givens = [] ∧ t.pending = [] ∧ t.log = []
  legal _ _ := True
  step t inp := t.next p inp

/-! ### A small unroller -/

def smallParams : Params where
  geometry := ⟨4, 16, 2, 16⟩
  blockSize := 4
  coreMaxAddrBits := 40
  inputW := 8
  accW := 32
  dmaMaxBytes := 8
  mvinRowsBits := 3
  mvinColsBits := 5
  mvoutRowsBits := 3
  mvoutColsBits := 5

/-- The registers of a slot that a product of the given bounds, without bias, has been set up in. -/
def smallCfg (maxI maxJ maxK : ℕ) (i : Bool) : Cfg where
  maxK := maxK
  maxJ := maxJ
  maxI := maxI
  padK := 0
  padJ := 0
  padI := 0
  aDramAddr := 64
  bDramAddr := 128
  dDramAddr := 0
  cDramAddr := 256
  aDramStride := 4
  bDramStride := 4
  dDramStride := 4
  cDramStride := 4
  cSpadAddr := 0
  incAccAddr := false
  spadOnly := false
  aTranspose := false
  bTranspose := false
  act := 0
  lowD := false
  fullC := false
  exAccumulate := false
  aExSpadId := 0
  bExSpadId := 0
  aAddrStart := i.toNat * (smallParams.maxAddr / 2)
  bAddrEnd := (i.toNat + 1) * (smallParams.maxAddr / 2)
  resaddAddrStart := i.toNat * (smallParams.maxAccAddr / 2)

def smallStart (maxI maxJ maxK : ℕ) : Tracked where
  regs :=
    let c := smallCfg maxI maxJ maxK
    { slots :=
        { loops := fun i => ⟨c i, false, false, fun _ => false, fun _ => false⟩
          head := false
          busy := fun _ => false
          loopId := fun _ => false }
      isResadd := false
      ldDAddrStart := 0
      exCAddrStart := 0
      stCAddrStart := 0
      ldA := ⟨(c false).ldAReq smallParams false, 0, 0⟩
      ldB := ⟨(c false).ldBReq smallParams false, 0, 0⟩
      ldD := ⟨(c false).ldDReq smallParams 0, 0, 0⟩
      exReq := (c false).exReq smallParams false 0
      exComp := false
      exBlock := ⟨0, 0, 0⟩
      stCReq := (c false).stCReq smallParams false 0
      stCPhase := .st
      stCCounters := ⟨0, 0, 0, 0, 0⟩
      stCSpad := ⟨(c false).stCSpadReq smallParams false 0, 0, 0⟩ }
  start := false
  first := 0
  infos := []
  serving := fun _ => none
  givens := []
  pending := []
  log := []

theorem smallStart_init {maxI maxJ maxK : ℕ} (small : maxI < 2 ^ 16 ∧ maxJ < 2 ^ 16 ∧ maxK < 2 ^ 16) :
    (machine smallParams).init (smallStart maxI maxJ maxK) := by
  refine ⟨⟨?_, fun _ => ⟨small.1, small.2.1, small.2.2⟩, ?_, ?_, ?_, ?_, ?_, rfl, rfl, rfl, rfl⟩, rfl, rfl, rfl, ?_, rfl,
    rfl, rfl⟩ <;> simp [smallStart, smallCfg]

def Input.flow (cmd : Option Cmd) : Input := ⟨cmd, true, false, false, false⟩

def Input.stall (cmd : Option Cmd) : Input := ⟨cmd, true, false, true, false⟩

end Gemmini.LoopMatmul
