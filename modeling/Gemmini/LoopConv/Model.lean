import Gemmini.Lib.Turns
import Gemmini.LoopConv.Units

/-!
# The convolution unroller

`LoopConv.scala`: two configuration slots, five units, the gates between them, and the arbiter that
hands out their commands.  The utilisation counters and the readiness of the output are inputs.
-/

namespace Gemmini.LoopConv

open Odometer (floorAdd)

/-! ### Commands and configuration -/

inductive Funct
  | config1
  | config2
  | config3
  | config4
  | config5
  | config6
  | loopConvWs
  deriving DecidableEq, Repr

structure Cmd where
  funct : Funct
  rs1 : BitVec 64
  rs2 : BitVec 64
  deriving DecidableEq, Repr

inductive InCmd
  | loop (x : Cmd)
  | other (id : ℕ)
  deriving DecidableEq, Repr

def Cmd.edit (p : Params) (x : Cmd) (c : Cfg) : Cfg :=
  match x.funct with
  | .config1 => { c with
      outChannels := slice x.rs1 48 16, inChannels := slice x.rs1 32 16
      inRowDim := slice x.rs1 16 16, batchSize := slice x.rs1 0 16
      stride := slice x.rs2 48 8, outColDim := slice x.rs2 32 16
      poolOutRowDim := slice x.rs2 16 16, outRowDim := slice x.rs2 0 16 }
  | .config2 => { c with
      kernelDim := slice x.rs1 48 16, poolOutColDim := slice x.rs1 32 16
      poolSize := if p.hasMaxPool then slice x.rs1 16 16 else 1
      poolStride := if p.hasMaxPool then slice x.rs1 8 8 else 1
      batches := slice x.rs2 48 16, porows := slice x.rs2 32 16
      pocols := slice x.rs2 16 16, pochs := slice x.rs2 0 16 }
  | .config3 => { c with
      krows := slice x.rs1 48 16, kcols := slice x.rs1 32 16
      kchs := slice x.rs1 16 16, lpad := slice x.rs1 0 16
      rpad := slice x.rs2 48 16, upad := slice x.rs2 32 16
      dpad := slice x.rs2 24 8, plpad := slice x.rs2 16 8, inColDim := slice x.rs2 0 16 }
  | .config4 => { c with
      orows := slice x.rs1 48 16, pupad := slice x.rs1 21 11, kernelDilation := slice x.rs1 0 10
      ocols := slice x.rs2 0 16, inStride := slice x.rs2 48 16
      weightStride := slice x.rs2 32 16, outStride := slice x.rs2 16 16 }
  | .config5 => { c with
      weightsDramAddr := slice x.rs1 0 p.coreMaxAddrBits
      outputDramAddr := slice x.rs2 0 p.coreMaxAddrBits }
  | .config6 => { c with
      biasDramAddr := slice x.rs1 0 p.coreMaxAddrBits
      inputDramAddr := slice x.rs2 0 p.coreMaxAddrBits }
  | .loopConvWs => { c with
      noBias := bit x.rs1 0
      maxPixelsPerRow :=
        if !p.hasFirstLayerOptimizations || slice x.rs1 8 8 == 0 then 1 else slice x.rs1 8 8
      aExSpadId := slice x.rs1 18 2, bExSpadId := slice x.rs1 16 2
      wrot180 := p.hasTrainingConvs && bit x.rs1 1
      inputDilated := p.hasTrainingConvs && bit x.rs2 2
      transOutput1203 := p.hasTrainingConvs && bit x.rs1 2
      transWeight1203 := p.hasTrainingConvs && bit x.rs1 3
      transWeight0132 := p.hasTrainingConvs && bit x.rs1 4
      transInput3120 := p.hasTrainingConvs && bit x.rs1 5
      dw := p.hasDwConvs && bit x.rs1 6
      noPool := !p.hasMaxPool || bit x.rs2 0
      activation := slice x.rs2 3 2
      downsample := bit x.rs2 1 }

/-! ### Units -/

inductive Unroller
  | ldBias
  | ldInput
  | ldWeights
  | ex
  | st
  deriving DecidableEq, Repr

instance : Fintype Unroller :=
  ⟨{.ldBias, .ldInput, .ldWeights, .ex, .st}, fun u => by cases u <;> simp⟩

namespace Unroller

def Pos : Unroller → Type
  | ldBias => LdPos Pixel
  | ldInput => LdPos InPixel
  | ldWeights => LdPos Weight
  | ex => ExPos
  | st => StPos

def spec (p : Params) : (u : Unroller) → Walker.Spec Req u.Pos OutCmd
  | ldBias => LdBias.spec p
  | ldInput => LdInput.spec p
  | ldWeights => LdWeights.spec p
  | ex => Execute.spec p
  | st => St.spec p

def isLoad : Unroller → Bool
  | ldBias | ldInput | ldWeights => true
  | _ => false

def ahead : Unroller → List Unroller
  | st => []
  | ex => [st]
  | ldBias => [st, ex]
  | ldWeights => [st, ex, ldBias]
  | ldInput => [st, ex, ldBias, ldWeights]

end Unroller

/-- Every unit has its own stage, no stage is skipped, and `reset()` keeps the configuration. -/
def layout : Slots.Layout Cfg Unroller Unroller where
  stage := id
  serves _ _ := true
  clear := id
  serves_unique _ _ same := same

/-! ### Registers and wires -/

structure State where
  loops : Bool → Slots.Slot Cfg Unroller
  head : Bool
  units : (u : Unroller) → Walker.Unit Req u.Pos OutCmd
  ldBiasAddrStart : ℕ
  exCAddrStart : ℕ
  stAddrStart : ℕ

/-- The head of the command queue, whether the output is taken, and whether the reservation station has
too many commands of a kind. -/
structure Input where
  cmd : Option InCmd
  outReady : Bool
  ldOverloaded : Bool
  exOverloaded : Bool
  stOverloaded : Bool
  deriving DecidableEq, Repr

def nextBase (p : Params) (base : ℕ) (moves : Bool) : ℕ :=
  if moves then floorAdd (log2Up p.maxAccAddr) base (p.maxAccAddr / 2) p.maxAccAddr else base

def Cfg.moves (c : Cfg) : Bool := c.outputDramAddr != 0

section Wires

variable (p : Params) (s : State) (inp : Input)

def State.slots : Slots.State Cfg Unroller Unroller where
  loops := s.loops
  head := s.head
  busy u := !(s.units u).idle
  loopId u := (s.units u).req.loopId

def State.loopConfigured : Bool := (s.loops false).configured || (s.loops true).configured

/-- `req.valid`: Execute follows the loads, St follows Execute. -/
def State.reqValid (u : Unroller) : Bool :=
  let l := s.loops (s.slots.requesting u)
  !l.started u && l.configured &&
    match u with
    | .ex => l.started .ldBias && l.started .ldInput && l.started .ldWeights
    | .st => l.started .ex
    | _ => true

def State.reqFire (u : Unroller) : Bool := s.reqValid u && (s.units u).idle

/-- The accumulator base in a request; LdInput and LdWeights have none. -/
def State.addrStart : Unroller → ℕ
  | .ldBias => s.ldBiasAddrStart
  | .ex => s.exCAddrStart
  | .st => s.stAddrStart
  | _ => 0

/-- `req.bits`. -/
def State.req (u : Unroller) : Req where
  cfg := (s.loops (s.slots.requesting u)).cfg
  base := s.addrStart u
  loopId := s.slots.requesting u

def State.exIsWaitingForLoads : Bool :=
  let l := s.loops (s.slots.loopId .ex)
  l.started .ex && !l.completed .ex &&
    !(l.completed .ldInput && l.completed .ldWeights && l.completed .ldBias)

/-- Unit `u` is not on the loop of unit `v`. -/
def State.away (u v : Unroller) : Bool :=
  s.slots.loopId u != s.slots.loopId v || (s.units u).idle

def State.gate (u : Unroller) : Bool :=
  match u with
  | .ex => s.away .ldInput .ex && s.away .ldWeights .ex && s.away .ldBias .ex
  | .st => s.away .ex .st
  | u => !(s.exIsWaitingForLoads && s.slots.loopId u != s.slots.loopId .ex)

/-- `rob_overloaded`. -/
def Input.overloaded : Unroller → Bool
  | .ex => inp.exOverloaded
  | .st => inp.stOverloaded
  | _ => inp.ldOverloaded

/-- `io.cmd.valid` of a unit. -/
def State.cmdValid (u : Unroller) : Bool :=
  (Pipeline.out (s.units u).pipe).isSome && !inp.overloaded u

/-- `command_p.io.out.ready` of a unit: the arbiter takes the first valid input. -/
def State.outReady (u : Unroller) : Bool :=
  inp.outReady && u.ahead.all (fun v => !s.cmdValid inp v) && !inp.overloaded u

def State.nextUnit (u : Unroller) : Walker.Unit Req u.Pos OutCmd :=
  (s.units u).next (u.spec p) (s.gate u) (s.outReady inp u)
    (if s.reqFire u then some (s.req u) else none)

def Input.config : Option (Slots.Config Cfg Unroller) :=
  match inp.cmd with
  | some (.loop x) =>
    if x.funct = .loopConvWs then some (.run (x.edit p) fun _ => false) else some (.edit (x.edit p))
  | _ => none

def State.slotsInput : Slots.Input Cfg Unroller Unroller where
  config := inp.config p
  fire := s.reqFire
  done u := (s.nextUnit p inp u).idle

def State.next : State where
  loops := s.slots.nextSlot layout (s.slotsInput p inp)
  head := if s.slots.frees then !s.head else s.head
  units := s.nextUnit p inp
  ldBiasAddrStart :=
    nextBase p s.ldBiasAddrStart (s.reqFire .ldBias && (s.req .ldBias).cfg.moves)
  exCAddrStart := nextBase p s.exCAddrStart (s.reqFire .ex && (s.req .ex).cfg.moves)
  stAddrStart := nextBase p s.stAddrStart (s.reqFire .st && (s.req .st).cfg.moves)

def State.forwarded : Option ℕ :=
  match inp.cmd with
  | some (.other id) => if !s.loopConfigured && inp.outReady then some id else none
  | _ => none

end Wires

/-! ### What goes out -/

/-- What the unroller puts out: a command of a unit for a loop, or a command from outside, with the
number of the loops configured before it. -/
inductive Entry
  | cmd (n : ℕ) (u : Unroller) (e : OutCmd)
  | forward (id loops : ℕ)
  deriving DecidableEq, Repr

structure Tracked where
  regs : State
  first : ℕ
  infos : List (Cfg × (Unroller → Bool))
  serving : Unroller → Option ℕ
  log : List Entry

namespace Tracked

variable (p : Params) (t : Tracked) (inp : Input)

/-- The slots and their history; `head_loop_id` is zero out of reset. -/
def slots : Slots.Tracked Cfg Unroller Unroller :=
  ⟨t.regs.slots, false, t.first, t.infos, t.serving⟩

def handed (u : Unroller) : Option Entry :=
  (Pipeline.deqFire (t.regs.units u).pipe (t.regs.outReady inp u)).bind fun e =>
    (t.serving u).map fun n => .cmd n u e

/-- `io.out` shows the arbiter as long as a loop is configured, and the command queue otherwise. -/
def output : List Entry :=
  if t.regs.loopConfigured then
    [.st, .ex, .ldBias, .ldWeights, .ldInput].filterMap (t.handed inp)
  else (t.regs.forwarded inp).toList.map fun id => .forward id t.infos.length

def next : Tracked :=
  let slots := t.slots.next layout (t.regs.slotsInput p inp)
  { regs := t.regs.next p inp
    first := slots.first
    infos := slots.infos
    serving := slots.serving
    log := t.log ++ t.output inp }

end Tracked

/-- Out of reset all slots are free, the units idle and the accumulator bases zero; of the configuration
only the addresses that divide the scratchpad are set. -/
structure State.Initial (p : Params) (s : State) : Prop where
  free : ∀ i, (s.loops i).configured = false ∧ (s.loops i).running = false ∧
    ∀ k, (s.loops i).started k = false ∧ (s.loops i).completed k = false
  aAddrStart : ∀ i, (s.loops i).cfg.aAddrStart = i.toNat * (p.maxAddr / 2)
  bAddrEnd : ∀ i, (s.loops i).cfg.bAddrEnd = (i.toNat + 1) * (p.maxAddr / 2)
  head : s.head = false
  idle : ∀ u, (s.units u).pos = none ∧ (s.units u).pipe = [none, none]
  ldBiasAddrStart : s.ldBiasAddrStart = 0
  exCAddrStart : s.exCAddrStart = 0
  stAddrStart : s.stAddrStart = 0

def machine (p : Params) : Machine Tracked Input where
  init t := t.regs.Initial p ∧ t.first = 0 ∧ t.infos = [] ∧ (∀ u, t.serving u = none) ∧ t.log = []
  legal _ _ := True
  step t inp := t.next p inp

/-! ### A small unroller -/

def smallParams : Params where
  geometry := ⟨4, 16, 2, 16⟩
  blockSize := 4
  coreMaxAddrBits := 40
  inputW := 8
  accW := 32
  dmaMaxBytes := 8
  mvinRowsBits := 3
  mvinColsBits := 5
  mvoutRowsBits := 3
  mvoutColsBits := 5
  hasTrainingConvs := true
  hasMaxPool := true
  hasFirstLayerOptimizations := true
  hasDwConvs := true
  blockStrideBits := 6
  pixelRepeatsBits := 3

def blankCfg (i : Bool) : Cfg :=
  { batchSize := 0, inRowDim := 0, inColDim := 0, inChannels := 0, outChannels := 0
    outColDim := 0, outRowDim := 0, outStride := 0, inStride := 0, weightStride := 0, poolOutRowDim := 0,
    poolOutColDim := 0, stride := 0, kernelDim := 0, kernelDilation := 0, poolSize := 0,
    poolStride := 0, batches := 0, porows := 0, pocols := 0, pochs := 0, krows := 0, kcols := 0,
    kchs := 0, lpad := 0, rpad := 0, upad := 0, dpad := 0, plpad := 0, pupad := 0, orows := 0,
    ocols := 0, biasDramAddr := 0, weightsDramAddr := 0, inputDramAddr := 0, outputDramAddr := 0
    noBias := false, wrot180 := false, noPool := false, downsample := false, inputDilated := false
    activation := 0
    transOutput1203 := false, transWeight1203 := false, transWeight0132 := false
    transInput3120 := false, dw := false
    maxPixelsPerRow := 0
    aExSpadId := 0, bExSpadId := 0
    aAddrStart := i.toNat * (smallParams.maxAddr / 2)
    bAddrEnd := (i.toNat + 1) * (smallParams.maxAddr / 2) }

def smallStart : Tracked where
  regs :=
    { loops := fun i => ⟨blankCfg i, false, false, fun _ => false, fun _ => false⟩
      head := false
      units := fun _ => ⟨⟨blankCfg false, 0, false⟩, none, [none, none]⟩
      ldBiasAddrStart := 0
      exCAddrStart := 0
      stAddrStart := 0 }
  first := 0
  infos := []
  serving := fun _ => none
  log := []

theorem smallStart_init : (machine smallParams).init smallStart := by
  refine ⟨⟨?_, ?_, ?_, rfl, ?_, rfl, rfl, rfl⟩, rfl, rfl, fun _ => rfl, rfl⟩
  · simp [smallStart]
  · simp [smallStart, blankCfg]
  · simp [smallStart, blankCfg]
  · simp [smallStart]

def Input.flow (cmd : Option InCmd) : Input := ⟨cmd, true, false, false, false⟩

def tileCmds : List Cmd :=
  [⟨.config1, 1 <<< 48 ||| 1 <<< 32 ||| 1 <<< 16 ||| 1, 1 <<< 48 ||| 1 <<< 32 ||| 1 <<< 16 ||| 1⟩,
    ⟨.config2, 1 <<< 48 ||| 1 <<< 32 ||| 1 <<< 16 ||| 1 <<< 8,
      1 <<< 48 ||| 1 <<< 32 ||| 1 <<< 16 ||| 1⟩,
    ⟨.config3, 1 <<< 48 ||| 1 <<< 32 ||| 1 <<< 16, 1⟩,
    ⟨.config4, 1 <<< 48 ||| 1, 1 <<< 48 ||| 1 <<< 32 ||| 1 <<< 16 ||| 1⟩,
    ⟨.config5, 64, 128⟩, ⟨.config6, 256, 320⟩, ⟨.loopConvWs, 0, 1⟩]

end Gemmini.LoopConv
