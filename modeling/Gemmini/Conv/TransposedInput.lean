import Gemmini.Conv.Functional
import Gemmini.Conv.InputLoader

/-!
# Where a transposed input is read

With `trans_input_3120` the pixels of a channel lie as many elements apart as there are images in the
batch.  The functional model takes `batch_size` for that distance; `LoopConvLdInput` takes `batches`,
the images of its tile, and reads another element unless the tile has the whole batch.
-/

namespace Gemmini.Conv

open LoopConv (Params Cfg Req InPixel smallParams blankCfg)
open LoopMatmul (wire)
open Functional (Regs move source regs blankRegs moves Move)

/-- What the loop commands have said about the input, to the array and the functional model. -/
structure SameInput (p : Params) (c : Cfg) (s : Regs) : Prop where
  batchSize : c.batchSize = s.batchSize
  inRowDim : c.inRowDim = s.inRowDim
  inColDim : c.inColDim = s.inColDim
  batches : c.batches = s.batches
  input : c.inputDramAddr = s.input % 2 ^ p.coreMaxAddrBits
  transInput3120 : c.transInput3120 = s.transInput3120

section Commands

variable {p : Params} {c : Cfg} {s : Regs}

theorem SameInput.edit (training : p.hasTrainingConvs = true) (same : SameInput p c s)
    (x : LoopConv.Cmd) : SameInput p (x.edit p c) (s.edit x) := by
  obtain ⟨f, rs1, rs2⟩ := x
  cases f with
  | config1 => exact { same with batchSize := rfl, inRowDim := rfl }
  | config2 => exact { same with batches := rfl }
  | config3 => exact { same with inColDim := rfl }
  | config4 | config5 => exact { same with }
  | config6 =>
    have pointer : slice rs2 0 p.coreMaxAddrBits = rs2.toNat % 2 ^ p.coreMaxAddrBits := by simp [slice]
    exact { same with input := pointer }
  | loopConvWs =>
    have flag : (p.hasTrainingConvs && bit rs1 5) = bit rs1 5 := by simp [training]
    exact { same with transInput3120 := flag }

theorem SameInput.commands (training : p.hasTrainingConvs = true) (same : SameInput p c s)
    (xs : List LoopConv.Cmd) :
    SameInput p (xs.foldl (fun c x => x.edit p c) c) (xs.foldl Regs.edit s) := by
  induction xs generalizing c s with
  | nil => exact same
  | cons x xs ih => exact ih (same.edit training x)

end Commands

def loadedFrom : LoopConv.OutCmd → Option ℕ
  | .load _ dram _ => some dram
  | _ => none

/-- The pixels before an element in the input of a tile, channel by channel. -/
def pixelsBefore (s : Regs) (x : InPixel) : ℤ :=
  x.ich * s.inRowDim * s.inColDim + x.irow * s.inColDim + x.icol

def bytesBefore (p : Params) (s : Regs) (x : InPixel) : ℤ :=
  (pixelsBefore s x * s.batchSize + x.b) * p.inputBytes

/-- A position inside the unpadded tile for both sides, whose element has an index and an address. -/
structure Element (p : Params) (r : Req) (s : Regs) (x : InPixel) : Prop where
  array : LoopConv.LdInput.isZeros r x = false
  model : ¬(x.irow < 0 ∨ x.irow ≥ Functional.irowsUnpadded s ∨ x.icol < 0 ∨
    x.icol ≥ Functional.icolsUnpadded s)
  nonneg : 0 ≤ x.b ∧ 0 ≤ x.ich
  index : pixelsBefore s x * s.batchSize + x.b < 2 ^ 31
  offset : bytesBefore p s x < 2 ^ 32
  address : s.input + bytesBefore p s x < 2 ^ p.coreMaxAddrBits

section Source

variable {p : Params} {r : Req} {s : Regs} {x : InPixel}

theorem Element.pixels_nonneg (el : Element p r s x) : 0 ≤ pixelsBefore s x := by
  obtain ⟨-, ich⟩ := el.nonneg
  have irow : 0 ≤ x.irow := by have := el.model; omega
  have icol : 0 ≤ x.icol := by have := el.model; omega
  unfold pixelsBefore
  positivity

theorem Element.array_dram (el : Element p r s x) (same : SameInput p r.cfg s)
    (trans : s.transInput3120 = true) (tile : s.batches ≤ s.batchSize) :
    loadedFrom (LoopConv.LdInput.mvinCmd p r x) =
      some (s.input + (pixelsBefore s x * s.batches + x.b) * p.inputBytes).toNat := by
  have pixels := el.pixels_nonneg
  obtain ⟨b, -⟩ := el.nonneg
  have nonneg : 0 ≤ (pixelsBefore s x * s.batches + x.b) * p.inputBytes := by positivity
  have below : (pixelsBefore s x * s.batches + x.b) * p.inputBytes ≤ bytesBefore p s x := by
    unfold bytesBefore
    gcongr
  have offset_lt := below.trans_lt el.offset
  have address_lt := el.address
  have offset : LoopConv.LdInput.dramOffset p r x =
      (pixelsBefore s x * s.batches + x.b) * p.inputBytes := by
    rw [LoopConv.LdInput.dramOffset, same.transInput3120, if_pos trans, same.inColDim, same.inRowDim,
      same.batches, pixelsBefore, mul_right_comm x.ich]
  rw [LoopConv.LdInput.mvinCmd, loadedFrom, el.array, if_neg (by decide), offset]
  generalize (pixelsBefore s x * s.batches + x.b) * p.inputBytes = bytes at *
  lift bytes to ℕ using nonneg
  have wired : wire 32 (bytes : ℤ) = bytes := by
    have kept := wire_of_range (by omega) offset_lt
    exact_mod_cast kept
  have small : bytes < 2 ^ 32 := by exact_mod_cast offset_lt
  have fits : s.input + bytes < 2 ^ p.coreMaxAddrBits := by
    have : (s.input + bytes : ℤ) < 2 ^ p.coreMaxAddrBits := by omega
    exact_mod_cast this
  have base : s.input % 2 ^ p.coreMaxAddrBits = s.input := Nat.mod_eq_of_lt (by omega)
  rw [wired, same.input, base, LoopMatmul.dramAddrOf_eq small fits]
  congr 1

theorem Element.model_dram (el : Element p r s x) (trans : s.transInput3120 = true)
    (narrow : p.coreMaxAddrBits ≤ 64) :
    (move p s x.b x.irow x.icol x.ich).dram = (s.input + bytesBefore p s x).toNat := by
  have pixels := el.pixels_nonneg
  obtain ⟨b, -⟩ := el.nonneg
  have index_nonneg : 0 ≤ pixelsBefore s x * s.batchSize + x.b := by positivity
  have from_input : source p s x.b x.irow x.icol x.ich =
      s.input + sint 32 (pixelsBefore s x * s.batchSize + x.b) * p.inputBytes := by
    rw [source, if_neg el.model, if_pos trans, pixelsBefore]
  have exact_index := sint_of_range (w := 31) (by omega) el.index
  have nonneg : 0 ≤ bytesBefore p s x := mul_nonneg index_nonneg (Int.natCast_nonneg _)
  have room := el.address.trans_le (pow_le_pow_right₀ (by norm_num) narrow)
  change wire 64 (source p s x.b x.irow x.icol x.ich) = _
  rw [from_input, exact_index, ← bytesBefore, wire, Int.emod_eq_of_lt (by omega) room]

/-- With a transposed input the array and the functional model read an element at the same address if
the tile has the whole batch, and else only the first pixel of the first channel. -/
theorem transposed_source_iff (narrow : p.coreMaxAddrBits ≤ 64) (bytes : 0 < p.inputBytes)
    (same : SameInput p r.cfg s) (trans : s.transInput3120 = true) (tile : s.batches ≤ s.batchSize)
    (el : Element p r s x) :
    loadedFrom (LoopConv.LdInput.mvinCmd p r x) =
        some (move p s x.b x.irow x.icol x.ich).dram ↔
      s.batches = s.batchSize ∨ pixelsBefore s x = 0 := by
  have pixels := el.pixels_nonneg
  obtain ⟨b, -⟩ := el.nonneg
  have tile_nonneg : 0 ≤ (pixelsBefore s x * s.batches + x.b) * p.inputBytes := by positivity
  have whole_nonneg : 0 ≤ bytesBefore p s x := by
    unfold bytesBefore
    positivity
  have address : (s.input + (pixelsBefore s x * s.batches + x.b) * p.inputBytes).toNat =
      (s.input + bytesBefore p s x).toNat ↔ s.batches = s.batchSize ∨ pixelsBefore s x = 0 := by
    have some_bytes : (p.inputBytes : ℤ) ≠ 0 := by omega
    rw [← Int.natCast_inj, Int.toNat_of_nonneg (by omega), Int.toNat_of_nonneg (by omega),
      add_right_inj, bytesBefore, mul_left_inj' some_bytes, add_left_inj, mul_eq_mul_left_iff,
      Int.natCast_inj]
  rw [← address, el.array_dram same trans tile, el.model_dram trans narrow, Option.some_inj]

end Source

/-- A one by one kernel over two images of two by two pixels, stored by channels, one image at a time. -/
def imageByImage : Args :=
  { squareConv 2 2 1 0 with batchSize := 2, transInput3120 := true, porows := 2, pocols := 2 }

def wholeBatch : Args := { imageByImage with batches := 2 }

def firstTile : Tile := ⟨0, 0, 0, 0, 0, 0, 0⟩

def firstRequest (a : Args) : Req :=
  request smallParams a firstTile (blankCfg false) 0 false
def firstRegs (a : Args) : Regs :=
  regs smallParams a firstTile blankRegs

theorem blank_sameInput :
    SameInput smallParams (blankCfg false) blankRegs := by
  constructor <;> decide

theorem whole_batch_source :
    loadedFrom (LoopConv.LdInput.mvinCmd smallParams (firstRequest wholeBatch) ⟨0, 1, 0, 0⟩) =
      some (move smallParams (firstRegs wholeBatch) 0 1 0 0).dram := by
  have element : Element smallParams (firstRequest wholeBatch) (firstRegs wholeBatch)
      ⟨0, 1, 0, 0⟩ := by
    constructor <;> decide
  exact (transposed_source_iff (by decide) (by decide)
    (blank_sameInput.commands (by decide) (loopCmds smallParams wholeBatch firstTile))
    (by decide) (by decide) element).mpr (.inl (by decide))

/-- Image by image, the array reads the second row of the first image two bytes after the first one, where
the second pixel of the first row is. -/
theorem image_by_image_misread :
    imageByImage.Accepted smallParams ∧ Issued imageByImage firstTile ∧
      (∃ es, Walker.Total (LoopConv.LdInput.spec smallParams) (firstRequest imageByImage) es ∧
        es.filterMap loadedFrom = [256, 258]) ∧
      (moves smallParams (firstRegs imageByImage)).map Move.dram =
        [256, 260] := by
  have accepted : imageByImage.Accepted smallParams := by constructor <;> decide
  have issued : Issued imageByImage firstTile := by constructor <;> decide
  have alive : (LoopConv.LdInput.spec smallParams).dead (firstRequest imageByImage) = false := by
    decide
  have total := (Walker.total_iff_emits alive).mpr (.more (y := .ld ⟨0, 0, 0, 0⟩) (by decide)
    (.more (y := .ld ⟨0, 1, 0, 0⟩) (by decide) (.last (by decide))))
  exact ⟨accepted, issued, ⟨_, total, by decide⟩, by decide⟩

end Gemmini.Conv
