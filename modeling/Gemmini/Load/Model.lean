import Gemmini.ArrayConfig

/-!
# Moving rows into the local memories

The way of an mvin from `LoadController.scala`, one DMA request for each row, through `ZeroWriter.scala`
or `DMA.scala` and `BeatMerger.scala`, `VectorScalarMultiplier.scala` and `PixelRepeater.scala` to the
banks.  Every unit is given by what it emits for one request; data and masks are left out.
-/

namespace Gemmini.Load

open ReservationStation (Cmd)

structure Regs where
  strides : Nat → Nat
  shrinks : Nat → Bool
  blockStrides : Nat → Nat
  pixelRepeats : Nat → Nat

variable (p : ArrayConfig)

/-- The registers after `CONFIG_LD`; no pixel repeat at all counts as one. -/
def Regs.configure (r : Regs) (c : Cmd) : Regs :=
  let id := slice c.rs1 3 2
  let repeats := slice c.rs1 8 p.pixelRepeatsBits
  { strides := Function.update r.strides id (c.rs2.toNat % 2 ^ p.coreMaxAddrBits)
    shrinks := Function.update r.shrinks id (bit c.rs1 2)
    blockStrides := Function.update r.blockStrides id (slice c.rs1 16 p.strideBits)
    pixelRepeats := Function.update r.pixelRepeats id (if repeats = 0 then 1 else repeats) }

/-- A load command of at least one row and one column, at most a block of rows and the widest row of the
DMA. -/
structure Mvin where
  cmd : Cmd
  load : cmd.funct = .load ∨ cmd.funct = .load2 ∨ cmd.funct = .load3
  rows_pos : 0 < slice cmd.rs2 48 p.mvinRowsBits
  rows_le : slice cmd.rs2 48 p.mvinRowsBits ≤ p.dim
  cols_pos : 0 < slice cmd.rs2 32 p.mvinColsBits
  cols_le : slice cmd.rs2 32 p.mvinColsBits ≤ p.maxCols

namespace Mvin

variable {p} (c : Mvin p)

def vaddr : Nat := c.cmd.rs1.toNat
def localaddr : LocalAddr := LocalAddr.ofWord p.geometry c.cmd.rs2
def rows : Nat := slice c.cmd.rs2 48 p.mvinRowsBits
def cols : Nat := slice c.cmd.rs2 32 p.mvinColsBits

/-- `load_state_id`. -/
def id : Nat := c.cmd.loadId

def allZeros : Bool := c.vaddr == 0

end Mvin

/-- `ScratchpadMemReadRequest`. -/
structure ReadRequest where
  vaddr : Nat
  laddr : LocalAddr
  cols : Nat
  repeats : Nat
  blockStride : Nat
  hasAccBitwidth : Bool
  allZeros : Bool
  pixelRepeats : Nat

section Controller

variable {p} (r : Regs) (c : Mvin p)

/-- `actual_rows_read`: one row that is repeated, if the stride is zero. -/
def actualRowsRead : Nat := if r.strides c.id = 0 ∧ c.allZeros = false then 1 else c.rows

/-- `io.dma.req.bits` while the row counter is `i`. -/
def request (i : Nat) : ReadRequest :=
  let laddr := c.localaddr.add p.geometry i
  { vaddr := c.vaddr + i * r.strides c.id
    laddr := laddr
    cols := c.cols
    repeats := if r.strides c.id = 0 ∧ c.allZeros = false then c.rows - 1 else 0
    blockStride := r.blockStrides c.id
    hasAccBitwidth := laddr.isAccAddr && !r.shrinks c.id
    allZeros := c.allZeros
    pixelRepeats := r.pixelRepeats c.id }

def requests : List ReadRequest := (List.range (actualRowsRead r c)).map (request r c)

end Controller

/-! ### Blocks of a row -/

/-- The values of `col_counter` in the zero writer from `col` on, for `fuel` responses at most. -/
def colCounters (dim cols : Nat) : Nat → Nat → List Nat
  | 0, _ => []
  | fuel + 1, col =>
    col :: if col + dim > cols - 1 then [] else colCounters dim cols fuel (col + dim)

def zeroWriter (req : ReadRequest) : List LocalAddr :=
  (colCounters p.dim req.cols req.cols 0).map fun col =>
    req.laddr.add p.geometry (req.blockStride * (col / p.dim))

def readSizes : List Nat :=
  let smallest := max p.alignedTo p.dmaBusBytes
  (((List.range ((p.dmaMaxbytes - smallest) / p.alignedTo + 1)).map
    (smallest + p.alignedTo * ·)).filter isPow2).filter (· % p.dmaBusBytes == 0)

/-- `read_packet.bytes_read`: the most useful bytes that one aligned request can bring. -/
def readBytesRead (vaddr bytesLeft : Nat) : Nat :=
  ((readSizes p).map fun s => min (s - vaddr % s) bytesLeft).foldl
    (fun acc bytes => if bytes > acc then bytes else acc) 0

/-- The TileLink requests of a row from byte `bytesRequested` on: `bytesRequested` and `bytes_to_read`. -/
def packets (len : Nat) : Nat → Nat → Nat → List (Nat × Nat)
  | 0, _, _ => []
  | fuel + 1, vaddr, bytesRequested =>
    let left := len - bytesRequested
    let bytes := readBytesRead p vaddr left
    (bytesRequested, bytes) ::
      if bytes ≥ left then [] else packets len fuel (vaddr + bytes) (bytesRequested + bytes)

/-- The values of `bytesSent` in the beat merger for a packet from byte `offset` of its row. -/
def sent (rowBytes offset bytes : Nat) : Nat → Nat → List Nat
  | 0, _ => []
  | fuel + 1, bytesSent =>
    let next := min (bytesSent + (rowBytes - if bytesSent = 0 then offset else 0)) bytes
    bytesSent :: if next = bytes then [] else sent rowBytes offset bytes fuel next

def rowBytes (req : ReadRequest) : Nat :=
  if req.hasAccBitwidth then p.dim * p.accBytes else p.spadRowBytes

/-- `req.len` in bytes. -/
def lenBytes (req : ReadRequest) : Nat :=
  req.cols * if req.hasAccBitwidth then p.accBytes else p.inputBytes

/-- The addresses that the beat merger gives to the rows of one packet. -/
def mergedRows (req : ReadRequest) (packet : Nat × Nat) : List Nat :=
  let bits := log2Up (max p.geometry.spRows p.geometry.accRows)
  let w := rowBytes p req
  let spaddr := req.laddr.row p.geometry
  let addr := (spaddr + req.blockStride * (packet.1 / w)) % 2 ^ bits
  (sent w (packet.1 % w) packet.2 packet.2 0).map fun bytesSent =>
    (addr + req.blockStride * ((packet.1 % w + bytesSent) / w)) % 2 ^ bits

def streamReader (req : ReadRequest) : List Nat :=
  (packets p (lenBytes p req) (lenBytes p req) req.vaddr 0).flatMap (mergedRows p req)

/-- `asTypeOf(local_addr_t)` of a bare row number. -/
def bareAddr (row : Nat) : LocalAddr := ⟨false, false, false, 0, false, row⟩

/-- The rows that leave the scaler: row `repeats` first, then down to row 0. -/
def scaled (req : ReadRequest) (row : Nat) : List LocalAddr :=
  (List.range (req.repeats + 1)).reverse.map fun k => (bareAddr row).add p.geometry k

/-! ### Pixel repetition -/

namespace PixelRepeater

variable (g : Geometry)

/-- `sp_addr` and the underflow bit: the floor is the start of the half that holds the address. -/
def spAddr (laddr : LocalAddr) (repeats : Nat) : LocalAddr × Bool :=
  if laddr.fullSpAddr g < g.spRows / 2 then laddr.floorSub g repeats 0
  else laddr.floorSub g repeats (g.spRows / 2)

/-- The response while the counter is `repeats`; nothing is sent on an underflow. -/
def resp (laddr : LocalAddr) (repeats : Nat) : List LocalAddr :=
  if laddr.isAccAddr then [laddr]
  else if (spAddr g laddr repeats).2 then [] else [(spAddr g laddr repeats).1]

def resps (laddr : LocalAddr) : Nat → List LocalAddr
  | 0 => resp g laddr 0
  | k + 1 => resp g laddr (k + 1) ++ resps laddr k

def all (laddr : LocalAddr) (pixelRepeats : Nat) : List LocalAddr := resps g laddr (pixelRepeats - 1)

end PixelRepeater

def requestRows (req : ReadRequest) : List LocalAddr :=
  (if req.allZeros then zeroWriter p req else (streamReader p req).flatMap (scaled p req)).flatMap
    fun laddr => PixelRepeater.all p.geometry laddr req.pixelRepeats

def rowsWritten {p : ArrayConfig} (r : Regs) (c : Mvin p) : List LocalAddr :=
  (requests r c).flatMap (requestRows p)

end Gemmini.Load
