import Gemmini.LocalAddr

/-!
# The reservation station

`ReservationStation.scala`: commands are allocated into one of three tables (load, execute, store), each
with a dependency bit for every slot of the three; a command is offered once all its bits are clear, and
leaves its slot when it completes (on issue, for load and store configurations).  Every register gets
its value as the chain of its connections in source order, so that the last one wins.
-/

namespace Gemmini.ReservationStation

/-- The three queues, `ldq`, `exq` and `stq`. -/
inductive Queue
  | ld
  | ex
  | st
  deriving DecidableEq, Repr

instance : Fintype Queue := ⟨{.ld, .ex, .st}, fun q => by cases q <;> simp⟩

inductive Funct
  | config
  | load
  | load2
  | load3
  | store
  | storeSpad
  | preload
  | computeAndFlip
  | computeAndStay
  deriving DecidableEq, Repr

/-- The parameters of `GemminiArrayConfig` that the reservation station reads. -/
structure Config where
  geometry : Geometry
  blockRows : Nat
  blockCols : Nat
  mvinColsBits : Nat
  mvinRowsBits : Nat
  mvoutColsBits : Nat
  mvoutRowsBits : Nat
  aStrideBits : Nat
  cStrideBits : Nat
  blockStrideBits : Nat
  pixelRepeatsBits : Nat
  hasFirstLayerOptimizations : Bool
  entriesLd : Nat
  entriesEx : Nat
  entriesSt : Nat

def Config.entries (cfg : Config) : Queue → Nat
  | .ld => cfg.entriesLd
  | .ex => cfg.entriesEx
  | .st => cfg.entriesSt

/-- A command with its operands, `RoCCCommand`. -/
structure Cmd where
  funct : Funct
  rs1 : BitVec 64
  rs2 : BitVec 64
  deriving DecidableEq, Repr

structure UDValid (α : Type) where
  valid : Bool
  bits : α
  deriving DecidableEq, Repr

structure OpT where
  start : LocalAddr
  stop : LocalAddr
  wrapsAround : Bool
  deriving DecidableEq, Repr

/-- `OpT.overlaps`. -/
def OpT.overlaps (g : Geometry) (r other : OpT) : Bool :=
  ((other.start.le g r.start && (r.start.lt g other.stop || other.wrapsAround)) ||
    (r.start.le g other.start && (other.start.lt g r.stop || r.wrapsAround))) &&
    !(r.start.isGarbage g || other.start.isGarbage g)

/-- A slot's contents; `deps` holds the vectors `deps_ld`, `deps_ex` and `deps_st`. -/
structure Entry (cfg : Config) where
  q : Queue
  isConfig : Bool
  opa : UDValid OpT
  opaIsDst : Bool
  opb : UDValid OpT
  issued : Bool
  completeOnIssue : Bool
  cmd : Cmd
  deps : (q : Queue) → Fin (cfg.entries q) → Bool

/-- `Entry.ready`: no dependency bit is set. -/
def Entry.ready {cfg : Config} (e : Entry cfg) : Bool :=
  decide (∀ q i, e.deps q i = false)

structure State (cfg : Config) where
  entries : (q : Queue) → Fin (cfg.entries q) → UDValid (Entry cfg)
  aStride : Nat
  cStride : Nat
  aTranspose : Bool
  ldBlockStrides : Nat → Nat
  poolingIsEnabled : Bool
  ldPixelRepeats : Nat → Nat
  solitaryPreload : Bool

/-- The inputs of one cycle.  `completed` is the decoded `rob_id`; `dontCare` is what unspecified
`opb.bits` become. -/
structure Input (cfg : Config) where
  alloc : Option Cmd
  issueReady : Queue → Bool
  completed : Option ((q : Queue) × Fin (cfg.entries q))
  dontCare : (q : Queue) → Fin (cfg.entries q) → OpT

/-! ### Decoding a command -/

namespace Cmd

variable (c : Cmd)

def functIsCompute : Bool := c.funct == .computeAndStay || c.funct == .computeAndFlip

/-- `config_cmd_type`: 0 execute, 1 load, 2 store, 3 norm. -/
def configCmdType : Nat := slice c.rs1 0 2

def isConfig : Bool := c.funct == .config

def isLoad : Bool :=
  c.funct == .load || c.funct == .load2 || c.funct == .load3 || (c.isConfig && c.configCmdType == 1)

def isEx : Bool :=
  c.funct == .preload || c.functIsCompute || (c.isConfig && c.configCmdType == 0)

def isStore : Bool :=
  c.funct == .store || c.funct == .storeSpad ||
    (c.isConfig && (c.configCmdType == 2 || c.configCmdType == 3))

def isNorm : Bool := c.isConfig && c.configCmdType == 3

/-- `new_entry.q`; exactly one of the three selectors holds of a command. -/
def q : Queue := if c.isLoad then .ld else if c.isStore then .st else .ex

def op1Valid : Bool := c.funct == .preload || c.functIsCompute

def op2Valid : Bool := c.functIsCompute || c.funct == .store || c.funct == .storeSpad

def dstValid : Bool :=
  c.funct == .preload || c.funct == .storeSpad || c.funct == .load || c.funct == .load2 ||
    c.funct == .load3

def loadId : Nat := if c.funct == .load2 then 1 else if c.funct == .load3 then 2 else 0

end Cmd

/-- The range of `rows` rows from `start`. -/
def rangeFrom (g : Geometry) (start : LocalAddr) (rows : Nat) : OpT where
  start := start
  stop := start.add g rows
  wrapsAround := (start.addWithOverflow g rows).2

/-- The rows spanned by `cols` columns: full blocks `blockStride` apart, then `rows` rows.  The number
of blocks has the width of `cols`, so that no columns count as the largest number. -/
def totalRows (blockCols colsBits rowsBits strideBits cols blockStride rows : Nat) : Nat :=
  let mats := (cols / blockCols + if cols % blockCols ≠ 0 then 1 else 0) % 2 ^ colsBits
  ((mats + 2 ^ colsBits - 1) % 2 ^ colsBits * blockStride + rows) %
    2 ^ max (colsBits + strideBits) rowsBits

section NewEntry

variable {cfg : Config} (s : State cfg) (c : Cmd)

/-- The `op1` wire: the preloaded block, or the A operand of a compute. -/
def op1 : UDValid OpT where
  valid := c.op1Valid
  bits :=
    let start := LocalAddr.ofWord cfg.geometry c.rs1
    let rows := slice c.rs1 48 (log2Up (cfg.blockRows + 1))
    let cols := slice c.rs1 32 (log2Up (cfg.blockCols + 1))
    if c.funct = .preload then rangeFrom cfg.geometry start rows
    else rangeFrom cfg.geometry start ((if s.aTranspose then cols else rows) * s.aStride)

/-- The `op2` wire: the B operand of a compute, or the source of a store.  With pooling a store is taken
to read to the end of its accumulator bank. -/
def op2 : UDValid OpT where
  valid := c.op2Valid
  bits :=
    let g := cfg.geometry
    let start := LocalAddr.ofWord g c.rs2
    if c.functIsCompute then rangeFrom g start (slice c.rs2 48 (log2Up (cfg.blockRows + 1)))
    else if s.poolingIsEnabled then
      let bankBits := max 1 (g.accAddrBits - g.accBankRowBits)
      let nextBank := (start.accBank g + 1) % 2 ^ bankBits
      let nextBankAddr : LocalAddr :=
        { isAccAddr := true, accumulate := false, readFullAccRow := false, normCmd := 0,
          garbageBit := false, data := nextBank * 2 ^ g.accBankRowBits % 2 ^ g.maxAddrBits }
      { start := start, stop := nextBankAddr, wrapsAround := nextBankAddr.accBank g == 0 }
    else
      rangeFrom g start (totalRows cfg.blockCols cfg.mvoutColsBits cfg.mvoutRowsBits
        (log2Up (cfg.blockRows + 1)) (slice c.rs2 32 cfg.mvoutColsBits) cfg.blockRows
        (slice c.rs2 48 cfg.mvoutRowsBits))

/-- Where the range of a load starts: pixel repetition also writes the rows before, down to the start of
the half of the scratchpad. -/
def loadStart : LocalAddr :=
  let g := cfg.geometry
  let start := LocalAddr.ofWord g c.rs2
  let repeats := s.ldPixelRepeats c.loadId
  if cfg.hasFirstLayerOptimizations then
    if start.isAccAddr then start
    else if start.fullSpAddr g > g.spRows / 2 then (start.floorSub g repeats (g.spRows / 2)).1
    else (start.floorSub g repeats 0).1
  else start

/-- The `dst` wire: what a preload (for its compute), a local move or a load writes. -/
def dst : UDValid OpT where
  valid := c.dstValid
  bits :=
    let g := cfg.geometry
    if c.funct = .preload then
      rangeFrom g (LocalAddr.ofWord g c.rs2)
        (slice c.rs2 48 (log2Up (cfg.blockRows + 1)) * s.cStride)
    else if c.funct = .storeSpad then
      rangeFrom g (LocalAddr.ofWord g c.rs1) (slice c.rs2 48 cfg.mvoutRowsBits)
    else
      rangeFrom g (loadStart s c) (totalRows cfg.blockCols cfg.mvinColsBits cfg.mvinRowsBits
        cfg.blockStrideBits (slice c.rs2 32 cfg.mvinColsBits) (s.ldBlockStrides c.loadId)
        (slice c.rs2 48 cfg.mvinRowsBits))

/-- `new_entry.opa`. -/
def newOpa : UDValid OpT :=
  if c.dstValid then dst s c else if c.op1Valid then op1 s c else op2 s c

/-- `new_entry.opb`. -/
def newOpb : UDValid OpT :=
  if c.dstValid then (if c.op1Valid then op1 s c else op2 s c) else op2 s c

def newDep (q : Queue) (i : Fin (cfg.entries q)) : Bool :=
  let g := cfg.geometry
  let e := s.entries q i
  let opa := newOpa s c
  let opb := newOpb s c
  match c.q, q with
  | .ld, .ld => e.valid && !e.bits.issued
  | .ld, .ex => e.valid && !c.isConfig &&
      ((opa.bits.overlaps g e.bits.opa.bits && e.bits.opa.valid) ||
        (opa.bits.overlaps g e.bits.opb.bits && e.bits.opb.valid))
  | .ld, .st => e.valid && !c.isConfig &&
      ((opa.bits.overlaps g e.bits.opa.bits && e.bits.opa.valid) ||
        (opa.bits.overlaps g e.bits.opb.bits && e.bits.opb.valid))
  | .ex, .ld => e.valid && e.bits.opa.valid && !c.isConfig &&
      (opa.bits.overlaps g e.bits.opa.bits || opb.bits.overlaps g e.bits.opa.bits)
  | .ex, .ex => e.valid && !e.bits.issued
  | .ex, .st => e.valid && e.bits.opa.valid && !c.isConfig &&
      (if e.bits.opaIsDst then
        opa.bits.overlaps g e.bits.opa.bits || opb.bits.overlaps g e.bits.opa.bits ||
          (c.dstValid && opa.bits.overlaps g e.bits.opb.bits)
      else c.dstValid && opa.bits.overlaps g e.bits.opa.bits)
  | .st, .ld => e.valid && e.bits.opa.valid && !c.isConfig &&
      (opa.bits.overlaps g e.bits.opa.bits ||
        (opb.valid && opb.bits.overlaps g e.bits.opa.bits))
  | .st, .ex => e.valid && !c.isConfig &&
      (if c.dstValid then
        (opa.bits.overlaps g e.bits.opa.bits && e.bits.opa.valid) ||
          (opa.bits.overlaps g e.bits.opb.bits && e.bits.opb.valid) ||
          (e.bits.opa.valid && e.bits.opaIsDst && opb.bits.overlaps g e.bits.opa.bits)
      else e.bits.opa.valid && e.bits.opaIsDst && opa.bits.overlaps g e.bits.opa.bits)
  | .st, .st => e.valid

/-- `new_entry`, as the offered command would be recorded. -/
def newEntry : Entry cfg where
  q := c.q
  isConfig := c.isConfig
  opa := newOpa s c
  opaIsDst := c.dstValid
  opb := newOpb s c
  issued := false
  completeOnIssue := c.isConfig && c.q ≠ .ex
  cmd := c
  deps := newDep s c

/-- `alloc_id`: the first free slot of the command's table; none means that `alloc.ready` is low. -/
def allocId : Option (Fin (cfg.entries c.q)) :=
  (List.finRange (cfg.entries c.q)).find? fun i => !(s.entries c.q i).valid

end NewEntry

/-! ### Issue, completion and the clock edge -/

section Step

variable {cfg : Config} (s : State cfg) (inp : Input cfg)

/-- `issue_valids`. -/
def issueValid (q : Queue) (i : Fin (cfg.entries q)) : Bool :=
  (s.entries q i).valid && (s.entries q i).bits.ready && !(s.entries q i).bits.issued

def issueSel (q : Queue) : Option (Fin (cfg.entries q)) :=
  (List.finRange (cfg.entries q)).find? (issueValid s q)

def issueFire (q : Queue) : Option (Fin (cfg.entries q)) :=
  if inp.issueReady q then issueSel s q else none

def allocFire : Option ((q : Queue) × Fin (cfg.entries q) × Entry cfg) :=
  match inp.alloc with
  | none => none
  | some c =>
    match allocId s c with
    | none => none
    | some i => some ⟨c.q, i, newEntry s c⟩

/-- An issue from slot `i` of queue `p` clears its bit in the entries of queue `q`. -/
def issueClears (q p : Queue) (i : Fin (cfg.entries p)) : Bool :=
  issueFire s inp p = some i && ((p = q && q ≠ .st) || (s.entries p i).bits.completeOnIssue)

/-- `io.completed` names slot `i` of queue `q`. -/
def completes (q : Queue) (i : Fin (cfg.entries q)) : Bool := inp.completed = some ⟨q, i⟩

def afterAlloc (q : Queue) (i : Fin (cfg.entries q)) : UDValid (Entry cfg) :=
  match allocFire s inp with
  | none => s.entries q i
  | some ⟨p, j, e⟩ => if (⟨p, j⟩ : (q : Queue) × Fin (cfg.entries q)) = ⟨q, i⟩ then ⟨true, e⟩
      else s.entries q i

def afterIssue (q : Queue) (i : Fin (cfg.entries q)) : UDValid (Entry cfg) :=
  let e := afterAlloc s inp q i
  let fires : Bool := issueFire s inp q = some i
  { valid := if fires then !(s.entries q i).bits.completeOnIssue else e.valid
    bits := { e.bits with
      issued := fires || e.bits.issued
      deps := fun p j => e.bits.deps p j && !issueClears s inp q p j } }

def afterComplete (q : Queue) (i : Fin (cfg.entries q)) : UDValid (Entry cfg) :=
  let e := afterIssue s inp q i
  { valid := e.valid && !completes inp q i
    bits := { e.bits with deps := fun p j => e.bits.deps p j && !completes inp p j } }

/-- A slot after the clock edge: last, `opb` of every load and store slot is made invalid. -/
def nextEntry (q : Queue) (i : Fin (cfg.entries q)) : UDValid (Entry cfg) :=
  let e := afterComplete s inp q i
  if q = .ex then e
  else { e with bits := { e.bits with opb := ⟨false, inp.dontCare q i⟩ } }

def configure (s : State cfg) (c : Cmd) : State cfg :=
  if c.isConfig then
    match c.q with
    | .ex => { s with
        aStride := slice c.rs1 16 16 % 2 ^ cfg.aStrideBits
        cStride := slice c.rs2 48 16 % 2 ^ cfg.cStrideBits
        aTranspose := if bit c.rs1 7 then s.aTranspose else bit c.rs1 8 }
    | .ld =>
      let id := slice c.rs1 3 2
      { s with
        ldBlockStrides := Function.update s.ldBlockStrides id
          (slice c.rs1 16 16 % 2 ^ cfg.blockStrideBits)
        ldPixelRepeats := Function.update s.ldPixelRepeats id
          (max (slice c.rs1 8 cfg.pixelRepeatsBits) 1 - 1) }
    | .st => if c.isNorm then s else { s with poolingIsEnabled := slice c.rs1 4 2 ≠ 0 }
  else if c.funct = .preload then { s with solitaryPreload := true }
  else if c.functIsCompute then { s with solitaryPreload := false }
  else s

def step : State cfg :=
  let s' := match allocFire s inp with
    | none => s
    | some ⟨_, _, e⟩ => configure s e.cmd
  { s' with entries := nextEntry s inp }

end Step

/-- Out of reset no slot is valid; the table bits are not initialised, the configuration is zero. -/
structure State.Init {cfg : Config} (s : State cfg) : Prop where
  entries : ∀ q i, (s.entries q i).valid = false
  aStride : s.aStride = 0
  cStride : s.cStride = 0
  aTranspose : s.aTranspose = false
  ldBlockStrides : s.ldBlockStrides = fun _ => 0
  poolingIsEnabled : s.poolingIsEnabled = false
  ldPixelRepeats : s.ldPixelRepeats = fun _ => 0
  solitaryPreload : s.solitaryPreload = false

end Gemmini.ReservationStation
