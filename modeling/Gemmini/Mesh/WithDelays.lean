import Gemmini.Mesh.Model

/-!
# The array with its delays

`MeshWithDelays.scala`: while a request is pending and a row of each operand is buffered, the three rows
enter the array together, skewed so that they meet in the tiles; what leaves is skewed back and joined
with the tag and the number of rows found in two queues by the number of the request.
-/

namespace Gemmini.Mesh

/-- `wrappingAdd` with a constant bound. -/
def wrappingAdd (u n bound : ℕ) : ℕ :=
  if bound - 1 = 0 then 0
  else if u ≥ bound - 1 - n + 1 ∧ n ≠ 0 then n - (bound - 1 - u) - 1
  else u + n

/-! ### `AlwaysOutTransposer` -/

structure Transposer (α : Type) where
  pes : ℕ → ℕ → α
  counter : ℕ
  up : Bool

namespace Transposer

variable {α : Type} (dim : ℕ) (s : Transposer α)

def outCol (i : ℕ) : α := if s.up then s.pes 0 i else s.pes i 0

def push (inRow : ℕ → α) : Transposer α where
  pes row col :=
    if s.up then if row = dim - 1 then inRow col else s.pes (row + 1) col
    else if col = dim - 1 then inRow row else s.pes row (col + 1)
  counter := wrappingAdd s.counter 1 dim
  up := if s.counter = dim - 1 then !s.up else s.up

end Transposer

/-! ### `TagQueue` -/

structure TagQueue (α : Type) where
  regs : ℕ → α
  raddr : ℕ
  waddr : ℕ
  len : ℕ

namespace TagQueue

variable {α : Type} (entries : ℕ) (s : TagQueue α)

def ready : Bool := s.len ≠ entries

def deqValid : Bool := s.len ≠ 0

def head : α := s.regs s.raddr

/-- One cycle; `enq` is the offered element, `deq` the ready signal of the reader. -/
def next (garbage : α → α) (enq : Option α) (deq : Bool) : TagQueue α :=
  let enqFire := enq.isSome && s.ready entries
  let deqFire := s.deqValid && deq
  let written := match enq with
    | some x => if enqFire then Function.update s.regs s.waddr x else s.regs
    | none => s.regs
  { regs := if deqFire then Function.update written s.raddr (garbage (written s.raddr)) else written
    raddr := if deqFire then wrappingAdd s.raddr 1 entries else s.raddr
    waddr := if enqFire then wrappingAdd s.waddr 1 entries else s.waddr
    len := if enqFire && !deqFire then s.len + 1
      else if !enqFire && deqFire then s.len - 1 else s.len }

end TagQueue

/-! ### Requests and responses -/

/-- `MeshWithDelaysReq`. -/
structure Req (Tag : Type) where
  control : PEControl
  aTranspose : Bool
  bdTranspose : Bool
  totalRows : ℕ
  tag : Tag
  flush : ℕ

/-- `TagWithIdAndTotalRows` of the two queues, without the fields that each leaves unspecified. -/
structure Tagged (α : Type) where
  value : α
  id : ℕ

/-- `MeshWithDelaysResp`, the data by global column. -/
structure Resp (Tag : Type) where
  valid : Bool
  data : ℕ → ℤ
  totalRows : ℕ
  tag : Tag
  last : Bool

/-- An array with room for `matmuls` simultaneous products. -/
structure DelayParams extends Params where
  matmuls : ℕ
  matmuls_ge : 5 ≤ matmuls
  square : meshRows * tileRows = meshColumns * tileColumns
  two_le : 2 ≤ meshRows * tileRows

namespace DelayParams

variable (P : DelayParams)

def blockSize : ℕ := P.meshRows * P.tileRows

def tagqlen : ℕ := P.matmuls + 1

theorem meshRows_pos : 0 < P.meshRows :=
  Nat.pos_of_ne_zero fun h => absurd P.two_le (by simp [h])

theorem tileRows_pos : 0 < P.tileRows :=
  Nat.pos_of_ne_zero fun h => absurd P.two_le (by simp [h])

theorem meshColumns_pos : 0 < P.meshColumns :=
  Nat.pos_of_ne_zero fun h => absurd P.two_le (by simp [P.square, h])

theorem tileColumns_pos : 0 < P.tileColumns :=
  Nat.pos_of_ne_zero fun h => absurd P.two_le (by simp [P.square, h])

end DelayParams

abbrev Row (P : DelayParams) := ℕ → BitVec P.elemW

structure Mark where
  valid : Bool
  last : Bool
  id : ℕ

/-- The registers of `MeshWithDelays`. -/
structure State (P : DelayParams) (Tag : Type) where
  reqValid : Bool
  req : Req Tag
  matmulId : ℕ
  fireCounter : ℕ
  aBuf : Row P
  bBuf : Row P
  dBuf : Row P
  aWritten : Bool
  bWritten : Bool
  dWritten : Bool
  inProp : Bool
  resultShift : ℕ
  transposer : Transposer (BitVec P.elemW)
  skewA : ℕ → ℕ → ℕ → ℤ
  skewDown : ℕ → ℕ → Down
  grid : Grid
  skewData : ℕ → ℕ → ℕ → ℤ
  skewMark : ℕ → Mark
  tagq : TagQueue (Tagged Tag)
  totalRowsQ : List (Tagged ℕ)

structure Input (P : DelayParams) (Tag : Type) where
  a : Option (Row P)
  b : Option (Row P)
  d : Option (Row P)
  req : Option (Req Tag)

namespace State

variable {P : DelayParams} {Tag : Type} (s : State P Tag) (inp : Input P Tag)

/-- `input_next_row_into_spatial_array`. -/
def inputNextRow : Bool :=
  s.reqValid && ((s.aWritten && s.bWritten && s.dWritten) || s.req.flush > 0)

/-- `total_fires - 1.U`, which wraps in the width of `total_rows`. -/
def lastRow : ℕ :=
  (s.req.totalRows + 2 ^ log2Up (P.blockSize + 1) - 1) % 2 ^ log2Up (P.blockSize + 1)

def lastFire : Bool := s.fireCounter == s.lastRow && s.inputNextRow

def reqReady : Bool :=
  (!s.reqValid || s.lastFire) && s.tagq.ready P.tagqlen && s.totalRowsQ.length ≠ P.tagqlen

/-- The request accepted in this cycle, `io.req.fire`. -/
def reqFire : Option (Req Tag) := if s.reqReady then inp.req else none

/-- The row of A accepted in this cycle; an unused row may be replaced while a request could be. -/
def aFire : Option (Row P) := if !s.aWritten || s.inputNextRow || s.reqReady then inp.a else none

def bFire : Option (Row P) := if !s.bWritten || s.inputNextRow || s.reqReady then inp.b else none

def dFire : Option (Row P) := if !s.dWritten || s.inputNextRow || s.reqReady then inp.d else none

/-! #### Operands of the row that enters -/

def aIsFromTransposer : Bool :=
  if s.req.control.dataflow = .os then !s.req.aTranspose else s.req.aTranspose

def bIsFromTransposer : Bool := s.req.control.dataflow = .os && s.req.bdTranspose

def dIsFromTransposer : Bool := s.req.control.dataflow = .ws && s.req.bdTranspose

def transposerIn (i : ℕ) : BitVec P.elemW :=
  if s.bIsFromTransposer then s.bBuf i
  else if s.dIsFromTransposer then s.dBuf (P.blockSize - 1 - i)
  else s.aBuf i

/-- `a_shifter_in`. -/
def aRow (i : ℕ) : BitVec P.elemW :=
  if s.aIsFromTransposer then s.transposer.outCol i else s.aBuf i

/-- `b_shifter_in`. -/
def bRow (i : ℕ) : BitVec P.elemW :=
  if s.bIsFromTransposer then s.transposer.outCol i else s.bBuf i

/-- `d_shifter_in`. -/
def dRow (i : ℕ) : BitVec P.elemW :=
  if s.dIsFromTransposer then s.transposer.outCol (P.blockSize - 1 - i) else s.dBuf i

/-- The signals at the top of tile column `C`, before they are skewed. -/
def rowDown (C : ℕ) : Down where
  b c := sint P.outW (s.bRow (C * P.tileColumns + c)).toInt
  d c := sint P.outW (s.dRow (C * P.tileColumns + c)).toInt
  control _ := ⟨s.req.control.dataflow, s.inProp, s.resultShift⟩
  valid _ := s.inputNextRow
  id _ := s.matmulId
  last _ := s.lastFire

/-- The A operands of tile row `R`, before they are skewed. -/
def rowA (R r : ℕ) : ℤ := (s.aRow (R * P.tileRows + r)).toInt

/-- `shifted`: tile row `R` and tile column `C` lag behind the first by `R` and `C` tiles. -/
def inA (R r : ℕ) : ℤ := Line.tap (R * P.stages) (s.skewA R r) (s.rowA R r)

def inDown (C : ℕ) : Down := Line.tap (C * P.stages) (s.skewDown C) (s.rowDown C)

/-! #### The row that leaves -/

/-- The result below tile column `C`: C of the output-stationary dataflow, otherwise B. -/
def outData (C c : ℕ) : ℤ :=
  if ((s.grid.outAt P.toParams 0).control 0).dataflow = .os then (s.grid.outAt P.toParams C).d c
  else (s.grid.outAt P.toParams C).b c

def outMark : Mark :=
  let x := s.grid.outAt P.toParams 0
  ⟨x.valid 0, x.last 0, x.id 0⟩

/-- `shifted` with `reverse`: the first tile column waits for the last. -/
def mark : Mark := Line.tap ((P.meshColumns - 1) * P.stages) s.skewMark s.outMark

def respData (i : ℕ) : ℤ :=
  let C := i / P.tileColumns
  let c := i % P.tileColumns
  Line.tap ((P.meshColumns - 1 - C) * P.stages) (s.skewData C c) (s.outData C c)

def tagMatches : Bool := s.mark.id == s.tagq.head.id

def totalRowsMatches : Bool := s.totalRowsQ.head?.any fun x => s.mark.id == x.id

/-- `io.resp`; `garbage` is the garbage tag. -/
def resp (garbage : Tag) : Resp Tag where
  valid := s.mark.valid
  data := s.respData
  totalRows := match s.totalRowsQ with
    | x :: _ => if s.mark.id == x.id then x.value else P.blockSize
    | [] => P.blockSize
  tag := if s.tagq.deqValid && s.tagMatches then s.tagq.head.value else garbage
  last := s.mark.last

/-! #### The clock edge -/

/-- `fire_counter` after a row: `wrappingAdd` with the bound taken from the request. -/
def nextFireCounter : ℕ :=
  (if s.lastRow = 0 then 0
    else if s.fireCounter ≥ s.lastRow then s.fireCounter - s.lastRow
    else s.fireCounter + 1) % 2 ^ log2Up P.blockSize

/-- The number under which the tag of a request is enqueued: it waits for the request after the next in
the output-stationary dataflow, else for the next one. -/
def idOfOutput (r : Req Tag) : ℕ :=
  wrappingAdd s.matmulId (if r.control.dataflow = .os then 3 else 2) P.matmuls

def idOfCurrent : ℕ := wrappingAdd s.matmulId 1 P.matmuls

def enqueued : Option (Req Tag) := (s.reqFire inp).filter fun r => r.flush = 0

def next (garbage : Tag) : State P Tag where
  reqValid := match s.reqFire inp with
    | some _ => true
    | none => if s.lastFire then s.req.flush > 1 else s.reqValid
  req := match s.reqFire inp with
    | some r => r
    | none => if s.lastFire then { s.req with flush := (s.req.flush + 3) % 4 } else s.req
  matmulId := if (s.reqFire inp).isSome then wrappingAdd s.matmulId 1 P.matmuls else s.matmulId
  fireCounter := if s.inputNextRow then s.nextFireCounter else s.fireCounter
  aBuf := (s.aFire inp).getD s.aBuf
  bBuf := (s.bFire inp).getD s.bBuf
  dBuf := (s.dFire inp).getD s.dBuf
  aWritten := (s.aFire inp).isSome || (s.aWritten && !s.inputNextRow)
  bWritten := (s.bFire inp).isSome || (s.bWritten && !s.inputNextRow)
  dWritten := (s.dFire inp).isSome || (s.dWritten && !s.inputNextRow)
  inProp := match s.reqFire inp with
    | some r => r.control.propagate ^^ s.inProp
    | none => s.inProp
  resultShift := s.req.control.shift
  transposer :=
    if s.inputNextRow && (s.aIsFromTransposer || s.bIsFromTransposer || s.dIsFromTransposer) then
      s.transposer.push P.blockSize s.transposerIn
    else s.transposer
  skewA R r := Line.shift (s.skewA R r) (s.rowA R r)
  skewDown C := Line.shift (s.skewDown C) (s.rowDown C)
  grid := s.grid.next P.toParams s.inA s.inDown
  skewData C c := Line.shift (s.skewData C c) (s.outData C c)
  skewMark := Line.shift s.skewMark s.outMark
  tagq := s.tagq.next P.tagqlen (fun x => { x with value := garbage })
    ((s.enqueued inp).map fun r => ⟨r.tag, s.idOfOutput r⟩)
    (s.mark.valid && s.mark.last && s.tagMatches)
  totalRowsQ :=
    let rest := if s.mark.valid && s.mark.last && s.totalRowsMatches then s.totalRowsQ.tail
      else s.totalRowsQ
    rest ++ ((s.enqueued inp).map fun r => ⟨r.totalRows, s.idOfCurrent⟩).toList

end State

/-- Out of reset: nothing pending, empty queues, and no valid bit left in the lines; all other contents
are arbitrary. -/
structure State.Init {P : DelayParams} {Tag : Type} (s : State P Tag) : Prop where
  reqValid : s.reqValid = false
  matmulId : s.matmulId = 0
  fireCounter : s.fireCounter = 0
  aWritten : s.aWritten = false
  bWritten : s.bWritten = false
  dWritten : s.dWritten = false
  inProp : s.inProp = false
  counter : s.transposer.counter = 0
  dir : s.transposer.up = false
  tagqRaddr : s.tagq.raddr = 0
  tagqWaddr : s.tagq.waddr = 0
  tagqLen : s.tagq.len = 0
  totalRowsQ : s.totalRowsQ = []
  skewDown : ∀ C k c, (s.skewDown C k).valid c = false
  link : ∀ R C k c, (s.grid.link R C k).valid c = false
  out : ∀ C k c, (s.grid.out C k).valid c = false
  skewMark : ∀ k, (s.skewMark k).valid = false

def machine (P : DelayParams) {Tag : Type} (garbage : Tag) (accepts : Req Tag → Prop) :
    Machine (State P Tag) (Input P Tag) where
  init := State.Init
  legal _ inp := ∀ r ∈ inp.req, accepts r
  step s inp := s.next inp garbage

end Gemmini.Mesh
