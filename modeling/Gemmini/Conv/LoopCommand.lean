import Gemmini.Conv.Tiles

/-!
# The operands of the convolution commands

`gemmini_loop_conv_ws` packs its arguments into the operands of seven commands, which `gemmini.cc` and
`LoopConv.scala` unpack on their own.  The functional model reads fewer bits of three fields and keeps
the activation in a `bool`; the unit ignores what its configuration does not support.
-/

namespace Gemmini.Conv

open LoopConv (Params Funct Cmd)

/-- The arguments of `gemmini_loop_conv_ws`. -/
structure MacroArgs where
  (batchSize inRowDim inColDim inChannels outChannels outRowDim outColDim : ℤ)
  (poolOutRowDim poolOutColDim stride padding kernelDim kernelDilation : ℤ)
  (poolSize poolStride poolPadding batches porows pocols pochs krows kcols kchs : ℤ)
  (lpad rpad upad dpad plpad prpad pupad pdpad orows ocols weights output bias input : ℤ)
  (noBias noPool downsample wrot180 inputDilated : Bool)
  (activation : ℤ)
  (transOutput1203 transWeight1203 transWeight0132 transInput3120 : Bool)
  (maxPixelsPerRow inStride weightStride outStride : ℤ)
  (dw : Bool)
  (aSpadId bSpadId : ℤ)
  deriving DecidableEq

/-- A receiver of the commands: the widths in which it differs, its activation, and what it supports. -/
structure Reader where
  poolPadBits : ℕ
  dilationBits : ℕ
  addrBits : ℕ
  activation : ℕ → ℕ
  hasMaxPool : Bool
  hasTrainingConvs : Bool
  hasDwConvs : Bool
  hasFirstLayerOptimizations : Bool
  poolPadBits_le : poolPadBits ≤ 11
  dilationBits_le : dilationBits ≤ 10
  addrBits_le : addrBits ≤ 64
  activation_le : ∀ x, activation x ≤ x

theorem toNat_decide_le (x : ℕ) : (decide (x ≠ 0)).toNat ≤ x := by
  cases x <;> simp

/-- `gemmini.cc`; `const bool activation`. -/
def functionalReader : Reader :=
  ⟨8, 8, 64, fun x => (decide (x ≠ 0)).toNat, true, true, true, true, Nat.le_add_right 8 3,
    Nat.le_add_right 8 2, le_rfl, toNat_decide_le⟩

/-- `LoopConv.scala`. -/
def unitReader (p : Params) : Reader :=
  ⟨11, 10, min p.coreMaxAddrBits 64, id, p.hasMaxPool, p.hasTrainingConvs, p.hasDwConvs,
    p.hasFirstLayerOptimizations, le_rfl, le_rfl, min_le_right _ _, fun _ => le_rfl⟩

/-- The operands of the commands, with the bits that a reader takes the fields from. -/
def MacroArgs.fields (m : MacroArgs) (R : Reader) : Funct → List Field × List Field
  | .config1 =>
    ([⟨m.outChannels, 48, 16⟩, ⟨m.inChannels, 32, 16⟩, ⟨m.inRowDim, 16, 16⟩, ⟨m.batchSize, 0, 16⟩],
      [⟨m.padding, 56, 8⟩, ⟨m.stride, 48, 8⟩, ⟨m.outColDim, 32, 16⟩, ⟨m.poolOutRowDim, 16, 16⟩,
        ⟨m.outRowDim, 0, 16⟩])
  | .config2 =>
    ([⟨m.kernelDim, 48, 16⟩, ⟨m.poolOutColDim, 32, 16⟩, ⟨m.poolSize, 16, 16⟩, ⟨m.poolStride, 8, 8⟩,
        ⟨m.poolPadding, 0, 8⟩],
      [⟨m.batches, 48, 16⟩, ⟨m.porows, 32, 16⟩, ⟨m.pocols, 16, 16⟩, ⟨m.pochs, 0, 16⟩])
  | .config3 =>
    ([⟨m.krows, 48, 16⟩, ⟨m.kcols, 32, 16⟩, ⟨m.kchs, 16, 16⟩, ⟨m.lpad, 0, 16⟩],
      [⟨m.rpad, 48, 16⟩, ⟨m.upad, 32, 16⟩, ⟨m.dpad, 24, 8⟩, ⟨m.plpad, 16, 8⟩, ⟨m.inColDim, 0, 16⟩])
  | .config4 =>
    ([⟨m.orows, 48, 16⟩, ⟨m.prpad, 32, 16⟩, ⟨m.pupad, 21, R.poolPadBits⟩, ⟨m.pdpad, 10, R.poolPadBits⟩,
        ⟨m.kernelDilation, 0, R.dilationBits⟩],
      [⟨m.inStride, 48, 16⟩, ⟨m.weightStride, 32, 16⟩, ⟨m.outStride, 16, 16⟩, ⟨m.ocols, 0, 16⟩])
  | .config5 => ([⟨m.weights, 0, R.addrBits⟩], [⟨m.output, 0, R.addrBits⟩])
  | .config6 => ([⟨m.bias, 0, R.addrBits⟩], [⟨m.input, 0, R.addrBits⟩])
  | .loopConvWs =>
    ([⟨m.aSpadId, 18, 2⟩, ⟨m.bSpadId, 16, 2⟩, ⟨m.maxPixelsPerRow, 8, 8⟩, .flag m.dw 6,
        .flag m.transInput3120 5, .flag m.transWeight0132 4, .flag m.transWeight1203 3,
        .flag m.transOutput1203 2, .flag m.wrot180 1, .flag m.noBias 0],
      [⟨m.activation, 3, 2⟩, .flag m.inputDilated 2, .flag m.downsample 1, .flag m.noPool 0])

/-- `gemmini_loop_conv_ws`. -/
def MacroArgs.cmds (m : MacroArgs) (R : Reader) : List Cmd :=
  [.config1, .config2, .config3, .config4, .config5, .config6, .loopConvWs].map fun f =>
    ⟨f, word (m.fields R f).1, word (m.fields R f).2⟩

def Reader.edit (R : Reader) (r : MacroArgs) (x : Cmd) : MacroArgs :=
  match x.funct with
  | .config1 => { r with
      outChannels := slice x.rs1 48 16, inChannels := slice x.rs1 32 16, inRowDim := slice x.rs1 16 16
      batchSize := slice x.rs1 0 16, padding := slice x.rs2 56 8, stride := slice x.rs2 48 8
      outColDim := slice x.rs2 32 16, poolOutRowDim := slice x.rs2 16 16, outRowDim := slice x.rs2 0 16 }
  | .config2 => { r with
      kernelDim := slice x.rs1 48 16, poolOutColDim := slice x.rs1 32 16
      poolSize := if R.hasMaxPool then slice x.rs1 16 16 else 1
      poolStride := if R.hasMaxPool then slice x.rs1 8 8 else 1
      poolPadding := if R.hasMaxPool then slice x.rs1 0 8 else 0
      batches := slice x.rs2 48 16, porows := slice x.rs2 32 16, pocols := slice x.rs2 16 16
      pochs := slice x.rs2 0 16 }
  | .config3 => { r with
      krows := slice x.rs1 48 16, kcols := slice x.rs1 32 16, kchs := slice x.rs1 16 16
      lpad := slice x.rs1 0 16, rpad := slice x.rs2 48 16, upad := slice x.rs2 32 16
      dpad := slice x.rs2 24 8, plpad := slice x.rs2 16 8, inColDim := slice x.rs2 0 16 }
  | .config4 => { r with
      orows := slice x.rs1 48 16, prpad := slice x.rs1 32 16, pupad := slice x.rs1 21 R.poolPadBits
      pdpad := slice x.rs1 10 R.poolPadBits, kernelDilation := slice x.rs1 0 R.dilationBits
      inStride := slice x.rs2 48 16, weightStride := slice x.rs2 32 16, outStride := slice x.rs2 16 16
      ocols := slice x.rs2 0 16 }
  | .config5 => { r with weights := slice x.rs1 0 R.addrBits, output := slice x.rs2 0 R.addrBits }
  | .config6 => { r with bias := slice x.rs1 0 R.addrBits, input := slice x.rs2 0 R.addrBits }
  | .loopConvWs => { r with
      aSpadId := slice x.rs1 18 2, bSpadId := slice x.rs1 16 2
      maxPixelsPerRow :=
        if !R.hasFirstLayerOptimizations || slice x.rs1 8 8 == 0 then 1 else slice x.rs1 8 8
      dw := R.hasDwConvs && bit x.rs1 6, transInput3120 := R.hasTrainingConvs && bit x.rs1 5
      transWeight0132 := R.hasTrainingConvs && bit x.rs1 4
      transWeight1203 := R.hasTrainingConvs && bit x.rs1 3
      transOutput1203 := R.hasTrainingConvs && bit x.rs1 2, wrot180 := R.hasTrainingConvs && bit x.rs1 1
      noBias := bit x.rs1 0, activation := R.activation (slice x.rs2 3 2)
      inputDilated := R.hasTrainingConvs && bit x.rs2 2, downsample := bit x.rs2 1
      noPool := !R.hasMaxPool || bit x.rs2 0 }

def Reader.Receives (R : Reader) (m : MacroArgs) : Prop := ∀ r, (m.cmds R).foldl R.edit r = m

/-- The arguments that `sp_tiled_conv` gives to the macro for a tile. -/
def macroArgs (p : Params) (a : Args) (t : Tile) : MacroArgs :=
  { batchSize := a.batchSize, inRowDim := a.inRowDim, inColDim := a.inColDim, inChannels := a.inChannels
    outChannels := a.outChannels, outRowDim := a.outRowDim, outColDim := a.outColDim
    poolOutRowDim := a.poolOutRowDim, poolOutColDim := a.poolOutColDim, stride := a.stride
    padding := a.padding, kernelDim := a.kernelDim, kernelDilation := a.kernelDilation
    poolSize := a.poolSize, poolStride := a.poolStride, poolPadding := a.poolPadding
    batches := batches' a t, porows := porows' a t, pocols := pocols' a t, pochs := pochs' a t
    krows := krows' a t, kcols := kcols' a t, kchs := kchs' a t, lpad := (colSide a t).before a
    rpad := (colSide a t).after a, upad := (rowSide a t).before a, dpad := (rowSide a t).after a
    plpad := (colSide a t).poolBefore a, prpad := (colSide a t).poolAfter a
    pupad := (rowSide a t).poolBefore a, pdpad := (rowSide a t).poolAfter a, orows := (rowSide a t).orows a
    ocols := (colSide a t).orows a, weights := weightsPtr p a t, output := outputPtr p a t
    bias := biasPtr p a t, input := inputPtr p a t, noBias := a.bias == 0, noPool := a.noPool
    downsample := a.downsample, wrot180 := a.wrot180, inputDilated := a.inputDilated, activation := a.act
    transOutput1203 := a.transOutput1203, transWeight1203 := a.transWeight1203
    transWeight0132 := a.transWeight0132, transInput3120 := a.transInput3120
    maxPixelsPerRow := maxPixelsPerRow p a t, inStride := a.inStride, weightStride := a.weightStride
    outStride := a.outStride, dw := false, aSpadId := aSpadId a t, bSpadId := bSpadId a t }

theorem word_single (v : ℤ) (len : ℕ) : word [⟨v, 0, len⟩] = BitVec.ofInt 64 v := by
  simp [word]

theorem cmds_macroArgs (p : Params) (a : Args) (t : Tile) (R : Reader) :
    (macroArgs p a t).cmds R = loopCmds p a t := by
  simp only [MacroArgs.cmds, MacroArgs.fields, List.map_cons, List.map_nil, word_single]
  rfl

/-! ### What is read back -/

theorem slice_lt (x : BitVec 64) (lo len : ℕ) : slice x lo len < 2 ^ len := Nat.mod_lt _ (Nat.two_pow_pos len)

theorem fits_of_read {x : BitVec 64} {pos len n : ℕ} {v : ℤ} (le : n ≤ slice x pos len) (read : (n : ℤ) = v) :
    (⟨v, pos, len⟩ : Field).Fits := by
  have lt := slice_lt x pos len
  refine ⟨by dsimp only; omega, ?_⟩
  have bound : (n : ℤ) < (2 ^ len : ℕ) := by exact_mod_cast le.trans_lt lt
  simpa [← read] using bound

theorem fits_of_reads {fs : List Field}
    (read : fs.map (fun f => (slice (word fs) f.pos f.len : ℤ)) = fs.map (·.value)) : ∀ f ∈ fs, f.Fits :=
  fun f mem => fits_of_read le_rfl (List.map_inj_left.mp read f mem)

theorem fits_of_default {has : Bool} {x : BitVec 64} {pos len : ℕ} {v d : ℤ} (small : 0 ≤ d ∧ d < 2 ^ len)
    (read : (if has then (slice x pos len : ℤ) else d) = v) :
    (⟨v, pos, len⟩ : Field).Fits ∧ (has = false → v = d) := by
  cases has
  · exact ⟨read ▸ small, fun _ => read.symm⟩
  · exact ⟨fits_of_read le_rfl read, fun no => absurd no (by decide)⟩

theorem fits_of_pixels {has : Bool} {x : BitVec 64} {pos len : ℕ} {v : ℤ} (room : 0 < len)
    (read : (if !has || slice x pos len == 0 then 1 else (slice x pos len : ℤ)) = v) :
    (⟨v, pos, len⟩ : Field).Fits ∧ 0 < v ∧ (has = false → v = 1) := by
  have one : (1 : ℤ) < 2 ^ len := one_lt_pow₀ (by norm_num) (by omega)
  split at read
  · subst read
    exact ⟨⟨zero_le_one, one⟩, zero_lt_one, fun _ => rfl⟩
  · next some =>
    simp only [Bool.or_eq_true, Bool.not_eq_true', beq_iff_eq, not_or, Bool.not_eq_false] at some
    exact ⟨fits_of_read le_rfl read, by omega, fun no => absurd some.1 (by simp [no])⟩

theorem flag_fits (b : Bool) (pos : ℕ) : (Field.flag b pos).Fits := by
  cases b <;> simp [Field.flag, Field.Fits]

theorem read_word {fs : List Field} (order : Descending fs) (room : ∀ f ∈ fs, f.pos + f.len ≤ 64)
    (fits : ∀ f ∈ fs, f.Fits) : ∀ f ∈ fs, (slice (word fs) f.pos f.len : ℤ) = f.value := fun f mem => by
  rw [slice_word order room fits mem]
  exact Int.toNat_of_nonneg (fits f mem).1

theorem toNat_of_read {n : ℕ} {v : ℤ} (read : (n : ℤ) = v) : n = v.toNat := by
  omega

theorem bit_of_read {x : BitVec 64} {i : ℕ} {b : Bool} (read : (slice x i 1 : ℤ) = (b.toNat : ℤ)) : bit x i = b := by
  rw [bit_eq_slice, Int.natCast_inj.mp read]
  cases b <;> rfl

theorem fields_order (m : MacroArgs) (R : Reader) (f : Funct) :
    Descending (m.fields R f).1 ∧ Descending (m.fields R f).2 := by
  have := R.poolPadBits_le
  have := R.dilationBits_le
  cases f <;> simp [MacroArgs.fields, Descending, Field.flag]
  omega

theorem fields_room (m : MacroArgs) (R : Reader) (f : Funct) :
    (∀ x ∈ (m.fields R f).1, x.pos + x.len ≤ 64) ∧ ∀ x ∈ (m.fields R f).2, x.pos + x.len ≤ 64 := by
  have := R.poolPadBits_le
  have := R.dilationBits_le
  have := R.addrBits_le
  cases f <;> simp [MacroArgs.fields, Field.flag] <;> omega

/-- All fields fit the bits that are read, and only what is supported is asked for. -/
structure Reader.Carries (R : Reader) (m : MacroArgs) : Prop where
  fits : ∀ f, (∀ x ∈ (m.fields R f).1, x.Fits) ∧ ∀ x ∈ (m.fields R f).2, x.Fits
  activation : R.activation m.activation.toNat = m.activation
  pixels : 0 < m.maxPixelsPerRow ∧ (R.hasFirstLayerOptimizations = false → m.maxPixelsPerRow = 1)
  pool : R.hasMaxPool = false →
    m.poolSize = 1 ∧ m.poolStride = 1 ∧ m.poolPadding = 0 ∧ m.noPool = true
  training : R.hasTrainingConvs = false → m.wrot180 = false ∧ m.inputDilated = false ∧
    m.transOutput1203 = false ∧ m.transWeight1203 = false ∧ m.transWeight0132 = false ∧
    m.transInput3120 = false
  dw : R.hasDwConvs = false → m.dw = false

section Receives

variable {R : Reader} {m : MacroArgs}

theorem and_of_supported {supported b : Bool} (absent : supported = false → b = false) : (supported && b) = b := by
  cases supported
  · exact (absent rfl).symm
  · rfl

theorem ite_of_supported {supported : Bool} {x d : ℤ} (absent : supported = false → x = d) :
    (if supported then x else d) = x := by
  cases supported
  · exact (absent rfl).symm
  · rfl

theorem Reader.Carries.receives (carries : R.Carries m) : R.Receives m := by
  intro r
  have read (f : Funct) := And.intro
    (read_word (fields_order m R f).1 (fields_room m R f).1 (carries.fits f).1)
    (read_word (fields_order m R f).2 (fields_room m R f).2 (carries.fits f).2)
  have one := read .config1
  have two := read .config2
  have three := read .config3
  have four := read .config4
  have five := read .config5
  have six := read .config6
  have seven := read .loopConvWs
  simp only [MacroArgs.fields, Field.flag, List.forall_mem_cons, List.not_mem_nil, false_imp_iff, implies_true,
    and_true] at one two three four five six seven
  obtain ⟨⟨a, b, pixels, dw, t₁, t₂, t₃, t₄, rot, bias⟩, act, dilated, down, pool⟩ := seven
  -- only zero pixels would be taken for one
  have some : (m.maxPixelsPerRow.toNat == 0) = false := by
    have := carries.pixels.1
    rw [beq_eq_false_iff_ne]
    omega
  have noPool : (!R.hasMaxPool || m.noPool) = m.noPool := by
    cases supported : R.hasMaxPool
    · rw [(carries.pool supported).2.2.2]
      rfl
    · rfl
  have limited : (if !R.hasFirstLayerOptimizations then 1 else m.maxPixelsPerRow) = m.maxPixelsPerRow := by
    cases supported : R.hasFirstLayerOptimizations
    · exact (carries.pixels.2 supported).symm
    · rfl
  simp only [MacroArgs.cmds, MacroArgs.fields, Field.flag, List.map_cons, List.map_nil, List.foldl_cons, List.foldl_nil,
    Reader.edit, one, two, three, four, five, six, a, b, toNat_of_read pixels, some, Bool.or_false, bit_of_read dw,
    bit_of_read t₁, bit_of_read t₂, bit_of_read t₃, bit_of_read t₄, bit_of_read rot, bit_of_read bias, bit_of_read dilated,
    bit_of_read down, bit_of_read pool, toNat_of_read act, carries.activation, noPool,
    Int.toNat_of_nonneg carries.pixels.1.le, limited,
    ite_of_supported fun none => (carries.pool none).1, ite_of_supported fun none => (carries.pool none).2.1,
    ite_of_supported fun none => (carries.pool none).2.2.1, and_of_supported carries.dw,
    and_of_supported fun none => (carries.training none).1, and_of_supported fun none => (carries.training none).2.1,
    and_of_supported fun none => (carries.training none).2.2.1,
    and_of_supported fun none => (carries.training none).2.2.2.1,
    and_of_supported fun none => (carries.training none).2.2.2.2.1,
    and_of_supported fun none => (carries.training none).2.2.2.2.2]

theorem Reader.Receives.carries (receives : R.Receives m) : R.Carries m := by
  have same := receives m
  have values (f : MacroArgs → List ℤ) : f ((m.cmds R).foldl R.edit m) = f m := congrArg f same
  have bits : R.activation (slice (word (m.fields R .loopConvWs).2) 3 2) = m.activation :=
    congrArg (·.activation) same
  have size := fits_of_default (by decide) (congrArg (·.poolSize) same)
  have stride := fits_of_default (by decide) (congrArg (·.poolStride) same)
  have padding := fits_of_default (by decide) (congrArg (·.poolPadding) same)
  have pixels := fits_of_pixels (by decide) (congrArg (·.maxPixelsPerRow) same)
  have act := fits_of_read (R.activation_le _) bits
  have fits (f : Funct) : (∀ x ∈ (m.fields R f).1, x.Fits) ∧ ∀ x ∈ (m.fields R f).2, x.Fits := by
    cases f with
    | config1 => exact ⟨fits_of_reads (values fun r => [r.outChannels, r.inChannels, r.inRowDim, r.batchSize]),
        fits_of_reads (values fun r => [r.padding, r.stride, r.outColDim, r.poolOutRowDim, r.outRowDim])⟩
    | config2 =>
      refine ⟨?_, fits_of_reads (values fun r => [r.batches, r.porows, r.pocols, r.pochs])⟩
      simp only [MacroArgs.fields, List.forall_mem_cons, List.not_mem_nil, false_imp_iff, implies_true, and_true]
      exact ⟨fits_of_read le_rfl (congrArg (·.kernelDim) same), fits_of_read le_rfl (congrArg (·.poolOutColDim) same),
        size.1, stride.1, padding.1⟩
    | config3 => exact ⟨fits_of_reads (values fun r => [r.krows, r.kcols, r.kchs, r.lpad]),
        fits_of_reads (values fun r => [r.rpad, r.upad, r.dpad, r.plpad, r.inColDim])⟩
    | config4 => exact ⟨fits_of_reads (values fun r => [r.orows, r.prpad, r.pupad, r.pdpad, r.kernelDilation]),
        fits_of_reads (values fun r => [r.inStride, r.weightStride, r.outStride, r.ocols])⟩
    | config5 => exact ⟨fits_of_reads (values fun r => [r.weights]), fits_of_reads (values fun r => [r.output])⟩
    | config6 => exact ⟨fits_of_reads (values fun r => [r.bias]), fits_of_reads (values fun r => [r.input])⟩
    | loopConvWs =>
      simp only [MacroArgs.fields, List.forall_mem_cons, List.not_mem_nil, false_imp_iff, implies_true, and_true,
        flag_fits]
      exact ⟨⟨fits_of_read le_rfl (congrArg (·.aSpadId) same), fits_of_read le_rfl (congrArg (·.bSpadId) same),
        pixels.1⟩, act⟩
  have read := read_word (fields_order m R .loopConvWs).2 (fields_room m R .loopConvWs).2 (fits .loopConvWs).2
    ⟨m.activation, 3, 2⟩ (List.mem_cons_self ..)
  refine ⟨fits, ?_, pixels.2, fun none => ⟨size.2 none, stride.2 none, padding.2 none, ?_⟩, fun none => ?_,
    fun none => ?_⟩
  · have value := toNat_of_read read
    rw [← value, bits]
  · have noPool : (!R.hasMaxPool || _) = m.noPool := congrArg (·.noPool) same
    rw [← noPool, none]
    rfl
  · have absent {b b' : Bool} (read : (R.hasTrainingConvs && b) = b') : b' = false := by
      rw [← read, none]
      rfl
    exact ⟨absent (congrArg (·.wrot180) same), absent (congrArg (·.inputDilated) same),
      absent (congrArg (·.transOutput1203) same), absent (congrArg (·.transWeight1203) same),
      absent (congrArg (·.transWeight0132) same), absent (congrArg (·.transInput3120) same)⟩
  · have dw : (R.hasDwConvs && _) = m.dw := congrArg (·.dw) same
    rw [← dw, none]
    rfl

theorem receives_iff_carries (R : Reader) (m : MacroArgs) : R.Receives m ↔ R.Carries m :=
  ⟨Reader.Receives.carries, Reader.Carries.receives⟩

end Receives

/-- The functional model and the unit find in their registers what was given to the macro for a tile exactly
if each of them carries it. -/
theorem decoded_iff_carried (p : Params) (a : Args) (t : Tile) :
    ((∀ r, (loopCmds p a t).foldl functionalReader.edit r = macroArgs p a t) ∧
        ∀ r, (loopCmds p a t).foldl (unitReader p).edit r = macroArgs p a t) ↔
      functionalReader.Carries (macroArgs p a t) ∧ (unitReader p).Carries (macroArgs p a t) := by
  rw [← receives_iff_carries, ← receives_iff_carries, Reader.Receives, Reader.Receives, cmds_macroArgs,
    cmds_macroArgs]

/-- A one by one kernel on one pixel, with the activation `IGELU`. -/
def onePixel : Args := { squareConv 1 1 1 0 with act := 3 }

/-- The functional model takes `IGELU` for `RELU`. -/
theorem igelu_read_as_relu :
    onePixel.Accepted LoopConv.smallParams ∧ Issued onePixel ⟨0, 0, 0, 0, 0, 0, 0⟩ ∧
      let m := macroArgs LoopConv.smallParams onePixel ⟨0, 0, 0, 0, 0, 0, 0⟩
      let cmds := loopCmds LoopConv.smallParams onePixel ⟨0, 0, 0, 0, 0, 0, 0⟩
      m.activation = 3 ∧ cmds.foldl functionalReader.edit m = { m with activation := 1 } ∧
        cmds.foldl (unitReader LoopConv.smallParams).edit m = m := by
  refine ⟨by constructor <;> decide, by constructor <;> decide, ?_, ?_, ?_⟩
  · decide
  · decide
  · decide

end Gemmini.Conv
