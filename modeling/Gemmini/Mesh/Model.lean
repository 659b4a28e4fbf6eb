import Gemmini.Lib.DelayLine
import Gemmini.Lib.SInt
import Gemmini.LocalAddr

/-!
# The systolic array

`PE.scala`, `Tile.scala` and `Mesh.scala`: a grid of tiles, each a combinational grid of processing
elements.  A row of A enters at the left, rows of B and D and the control bits at the top; between tiles
they pass through `tile_latency + 1` registers, which going down are clocked only with valid rows.
-/

namespace Gemmini.Mesh

/-- `Dataflow`, as the control bit of a processing element. -/
inductive Dataflow
  | os
  | ws
  deriving DecidableEq, Repr

inductive Support
  | os
  | ws
  | both
  deriving DecidableEq, Repr

/-- The parameters of an array.  Only arrays for the weight-stationary dataflow alone may add up a
tile's products in a tree. -/
structure Params where
  elemW : ℕ
  outW : ℕ
  accW : ℕ
  df : Support
  treeReduction : Bool
  tileLatency : ℕ
  outputDelay : ℕ
  tileRows : ℕ
  tileColumns : ℕ
  meshRows : ℕ
  meshColumns : ℕ
  treeReduction_ws : treeReduction = true → df = .ws

namespace Params

variable (P : Params)

/-- The width of `cType`. -/
def cW : ℕ := if P.df = .ws then P.elemW else P.accW

/-- The width of the addend of the `MacUnit`. -/
def macW : ℕ := if P.df = .ws then P.outW else P.accW

def mode (dataflow : Dataflow) : Dataflow :=
  match P.df with
  | .os => .os
  | .ws => .ws
  | .both => dataflow

def stages : ℕ := P.tileLatency + 1

end Params

/-! ### Arithmetic of signed integers -/

/-- `MacUnit`: the sum has the width of its wider operand, the output that of `outputType`. -/
def mac (P : Params) (self m1 m2 : ℤ) : ℤ :=
  sint P.outW (sint (max (P.elemW + P.elemW) P.macW) (m1 * m2 + self))

/-- `>>` of `SIntArithmetic`: an arithmetic shift that rounds to nearest, ties to even. -/
def roundingShift (x : ℤ) (u : ℕ) : ℤ :=
  let pointFive : Bool := u ≠ 0 && x / 2 ^ (u - 1) % 2 ≠ 0
  let zeros : Bool := 1 < u && x % 2 ^ (u - 1) ≠ 0
  let onesDigit : Bool := x / 2 ^ u % 2 ≠ 0
  x / 2 ^ u + if pointFive && (zeros || onesDigit) then 1 else 0

/-- `clippedToWidthOf`; its bounds are computed in Scala's `Int`. -/
def clipped (w : ℕ) (x : ℤ) : ℤ :=
  let one : ℤ := sint 32 (2 ^ ((w - 1) % 32))
  let maxsat := sint 32 (one - 1)
  let minsat := sint 32 (-one)
  sint w (if x > maxsat then maxsat else if x < minsat then minsat else x)

/-- The additions of one level of `accumulateTree`, on neighbouring pairs. -/
def pairSums (w : ℕ) : List ℤ → List ℤ
  | a :: b :: rest => sint w (a + b) :: pairSums w rest
  | rest => rest

/-- `accumulateTree`, with the number of its levels. -/
def accumulateTree (w : ℕ) : ℕ → List ℤ → ℤ
  | _, [] => 0
  | _, [x] => x
  | 0, x :: _ :: _ => x
  | n + 1, x :: y :: rest =>
    let xs := x :: y :: rest
    accumulateTree w n (pairSums w (xs ++ List.replicate (2 ^ log2Ceil xs.length - xs.length) 0))

/-! ### Processing elements -/

structure PEControl where
  dataflow : Dataflow
  propagate : Bool
  shift : ℕ
  deriving DecidableEq, Repr

structure PE where
  c1 : ℤ
  c2 : ℤ
  lastS : Bool
  deriving DecidableEq, Repr

namespace PE

variable (P : Params) (s : PE) (ctl : PEControl)

def propagated : ℤ := if ctl.propagate then s.c1 else s.c2

def computed : ℤ := if ctl.propagate then s.c2 else s.c1

/-- `shift_offset`: results are only shifted in the first row after a flip. -/
def shiftOffset : ℕ := if s.lastS ≠ ctl.propagate then ctl.shift else 0

def outC : ℤ :=
  match P.mode ctl.dataflow with
  | .os => clipped P.outW (roundingShift (s.propagated ctl) (s.shiftOffset ctl))
  | .ws => sint P.outW (s.propagated ctl)

/-- `out_b`; without a valid row the inputs of the `MacUnit` are unspecified, and are left as they
are here. -/
def outB (a b : ℤ) : ℤ :=
  match P.mode ctl.dataflow with
  | .os => b
  | .ws => mac P (sint P.macW b) a (asType P.cW P.elemW (s.computed ctl))

def next (valid : Bool) (a b d : ℤ) : PE :=
  if valid then
    let loaded := sint P.cW d
    let kept :=
      match P.mode ctl.dataflow with
      | .os => sint P.cW (mac P (s.computed ctl) a (asType P.outW P.elemW b))
      | .ws => s.computed ctl
    { c1 := if ctl.propagate then loaded else kept
      c2 := if ctl.propagate then kept else loaded
      lastS := ctl.propagate }
  else s

end PE

/-! ### Tiles -/

structure Down where
  b : ℕ → ℤ
  d : ℕ → ℤ
  control : ℕ → PEControl
  valid : ℕ → Bool
  id : ℕ → ℕ
  last : ℕ → Bool

namespace Tile

variable (P : Params) (pe : ℕ → ℕ → PE) (x : Down) (a : ℕ → ℤ) (c : ℕ)

/-- `in_b` of the processing element in row `r`. -/
def inB : ℕ → ℤ
  | 0 => if P.treeReduction then 0 else x.b c
  | r + 1 => if P.treeReduction then 0 else (pe r c).outB P (x.control c) (a r) (inB r)

/-- `in_d` of the processing element in row `r`. -/
def inD : ℕ → ℤ
  | 0 => x.d c
  | r + 1 => (pe r c).outC P (x.control c)

/-- `out_b` of a column of the tile. -/
def outB : ℤ :=
  if P.treeReduction then
    let prods := (List.range P.tileRows).map fun r => (pe r c).outB P (x.control c) (a r) 0
    accumulateTree P.outW (P.tileRows + 1) (prods ++ [x.b c])
  else inB P pe x a c P.tileRows

/-- The signals that leave the tile at the bottom; `d` is `out_c`. -/
def out : Down :=
  { x with
    b := fun c => outB P pe x a c
    d := fun c => inD P pe x c P.tileRows }

end Tile

/-- A stage between two tiles: `pipe` holds `b`, `d` and the control bits without a valid row. -/
def Down.capture (old new : Down) : Down where
  b := if new.valid 0 then new.b else old.b
  d := if new.valid 0 then new.d else old.d
  control c := if new.valid c then new.control c else old.control c
  valid := new.valid
  id := new.id
  last := new.last

/-! ### The grid -/

structure Grid where
  pe : ℕ → ℕ → ℕ → ℕ → PE
  aLine : ℕ → ℕ → ℕ → ℕ → ℤ
  link : ℕ → ℕ → ℕ → Down
  out : ℕ → ℕ → Down

namespace Grid

variable (P : Params) (m : Grid)

/-- The A operands of tile `(R, C)`, by row inside the tile. -/
def aIn (R C r : ℕ) : ℤ := m.aLine R C r P.tileLatency

/-- The signals that enter tile `(R, C)` from above. -/
def tileIn (R C : ℕ) : Down := m.link R C P.tileLatency

def tileOut (R C : ℕ) : Down := Tile.out P (m.pe R C) (m.tileIn P R C) (m.aIn P R C)

/-- The signals below the array, delayed by `output_delay`. -/
def outAt (C : ℕ) : Down := Line.tap P.outputDelay (m.out C) (m.tileOut P (P.meshRows - 1) C)

def next (inA : ℕ → ℕ → ℤ) (inDown : ℕ → Down) : Grid where
  pe R C r c :=
    let x := m.tileIn P R C
    (m.pe R C r c).next P (x.control c) (x.valid c) (m.aIn P R C r)
      (Tile.inB P (m.pe R C) x (m.aIn P R C) c r) (Tile.inD P (m.pe R C) x c r)
  aLine R C r := Line.shift (m.aLine R C r) (match C with
    | 0 => inA R r
    | C' + 1 => m.aIn P R C' r)
  link R C := Line.next Down.capture (m.link R C) (match R with
    | 0 => inDown C
    | R' + 1 => m.tileOut P R' C)
  out C := Line.shift (m.out C) (m.tileOut P (P.meshRows - 1) C)

end Grid

end Gemmini.Mesh
