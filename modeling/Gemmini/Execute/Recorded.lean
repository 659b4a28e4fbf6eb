import Gemmini.Execute.Model
import Gemmini.ReservationStation.Ranges

/-!
# The recorded ranges of a matmul

The rows that a preload and its compute use against the ranges the reservation station has recorded.  It
takes the rows of B and D from the row field even if they are transposed, strides as lengths even if
they are zero, and does not know that the output-stationary dataflow subtracts the strided counter.
-/

namespace Gemmini.Execute

open ReservationStation
open Odometer (wrappingAdd wrappingAdd_one)
open Mesh (Dataflow Support)
open LocalAddr (ofWord row_add add_isAccAddr)

variable {p : ArrayConfig} {f : Support} {h : Bool} {r : Regs}

/-! ### The rows that are used -/

theorem dim_lt_width (p : ArrayConfig) : p.dim < 2 ^ log2Up (p.dim + 1) :=
  Nat.lt_of_succ_le (le_two_pow_log2Up _)

theorem fire_iterate {stride total n : Nat} (narrow : stride < 2 ^ 16) (le : total ≤ p.dim)
    (below : n < total) : (Fire.next p stride total)^[n] ⟨0, 0⟩ = ⟨n, n * stride⟩ := by
  induction n with
  | zero => simp
  | succ n ih =>
    have dim_lt := dim_lt_width p
    have dim_le := le_two_pow_log2Up p.dim
    rw [Function.iterate_succ_apply', ih (by omega)]
    have counter : wrappingAdd (log2Up (p.dim + 1)) n 1 total true = n + 1 := by
      rw [wrappingAdd_one (by omega) (by omega) (by omega), if_pos below]
    have offset : (n + 1) * stride < 2 ^ (16 + log2Up p.dim) := by
      rw [Nat.pow_add, Nat.mul_comm]
      exact Nat.mul_lt_mul_of_lt_of_le narrow (by omega) (by omega)
    simp only [Fire.next, counter]
    rw [if_neg (by omega), Nat.mod_eq_of_lt (by omega), ← Nat.succ_mul, Nat.mod_eq_of_lt offset]

theorem mem_fires {stride total : Nat} (narrow : stride < 2 ^ 16) (le : total ≤ p.dim) {x : Fire} :
    x ∈ fires p stride total ↔ ∃ n < total, x = ⟨n, n * stride⟩ := by
  simp only [fires, List.mem_map, List.mem_range]
  refine exists_congr fun n => and_congr_right fun below => ?_
  rw [fire_iterate narrow le below, eq_comm]

theorem mem_fed {garbage : Bool} {stride total : Nat} (narrow : stride < 2 ^ 16)
    (le : total ≤ p.dim) {keep : Fire → Prop} [DecidablePred keep] {row : Fire → Option LocalRow}
    {x : LocalRow} :
    x ∈ (if garbage then [] else
        (fires p stride total).filterMap fun y => if keep y then row y else none) ↔
      garbage = false ∧ ∃ n < total, keep ⟨n, n * stride⟩ ∧ row ⟨n, n * stride⟩ = some x := by
  cases garbage with
  | true => simp
  | false =>
    simp only [Bool.false_eq_true, if_false, List.mem_filterMap, mem_fires narrow le, true_and,
      Option.ite_none_right_eq_some]
    constructor
    · rintro ⟨_, ⟨n, below, rfl⟩, fed⟩
      exact ⟨n, below, fed⟩
    · rintro ⟨n, below, fed⟩
      exact ⟨_, ⟨n, below, rfl⟩, fed⟩

section Pair

variable (c : Pair p) {x : LocalRow}

theorem sizes_le {w : BitVec 64} {byCols : Prop} [Decidable byCols]
    (mem : w ∈ [c.preload.rs1, c.preload.rs2, c.compute.rs1, c.compute.rs2]) :
    (if byCols then colsDefault p w else rowsDefault p w) ≤ p.dim := by
  split_ifs
  · exact (c.sizes w mem).2
  · exact (c.sizes w mem).1

theorem aRows_le : aRows p r c.compute.rs1 ≤ p.dim := sizes_le c (by simp)

theorem bRows_le : bRows p f r c.compute.rs2 ≤ p.dim := sizes_le c (by simp)

theorem dRows_le : dRows p f r c.preload.rs1 ≤ p.dim := sizes_le c (by simp)

variable (four : 4 ≤ p.dim) (noD : Bool)
include four

theorem totalRows_cases :
    totalRows p f h r c.compute noD = p.dim ∨
      (totalRows p f h r c.compute noD ≤ p.dim ∧ totalRows p f h r c.compute noD =
        max (max (if aGarbage p c.compute.rs1 then 1 else aRows p r c.compute.rs1)
          (if bGarbage p f h c.compute.rs2 then 1 else bRows p f r c.compute.rs2)) 4) := by
  by_cases reduced : (currentDataflow f r = .ws && noD && !aShouldBeFedIntoTransposer f r &&
      !bShouldBeFedIntoTransposer f r && !dShouldBeFedIntoTransposer f r) = true
  · have a : (if aGarbage p c.compute.rs1 then 1 else aRows p r c.compute.rs1) ≤ p.dim := by
      have := aRows_le (r := r) c
      split_ifs <;> omega
    have b : (if bGarbage p f h c.compute.rs2 then 1 else bRows p f r c.compute.rs2) ≤ p.dim := by
      have := bRows_le (f := f) (r := r) c
      split_ifs <;> omega
    have le := max_le (max_le a b) four
    right
    simp only [totalRows, reduced, if_true]
    rw [Nat.mod_eq_of_lt (le.trans_lt (dim_lt_width p))]
    exact ⟨le, rfl⟩
  · left
    simp only [totalRows, reduced, if_false, Bool.false_eq_true]

theorem totalRows_le : totalRows p f h r c.compute noD ≤ p.dim := by
  rcases totalRows_cases (f := f) (h := h) (r := r) c four noD with all | ⟨le, -⟩
  · exact all.le
  · exact le

theorem aRows_le_totalRows (clean : aGarbage p c.compute.rs1 = false) :
    aRows p r c.compute.rs1 ≤ totalRows p f h r c.compute noD := by
  rcases totalRows_cases (f := f) (h := h) (r := r) c four noD with all | ⟨-, larger⟩
  · rw [all]
    exact aRows_le c
  · rw [larger, clean]
    exact (le_max_left _ _).trans (le_max_left _ _)

theorem bRows_le_totalRows (clean : bGarbage p f h c.compute.rs2 = false) :
    bRows p f r c.compute.rs2 ≤ totalRows p f h r c.compute noD := by
  rcases totalRows_cases (f := f) (h := h) (r := r) c four noD with all | ⟨-, larger⟩
  · rw [all]
    exact bRows_le c
  · rw [larger, clean]
    exact (le_max_right _ _).trans (le_max_left _ _)

theorem mem_aReads (narrow : r.aAddrStride < 2 ^ 16) :
    x ∈ aReads p f h r c.compute noD ↔ aGarbage p c.compute.rs1 = false ∧
      ∃ k < aRows p r c.compute.rs1, readRow p ((ofWord p.geometry c.compute.rs1).add
        p.geometry (k * r.aAddrStride)) = some x := by
  rw [aReads, mem_fed narrow (totalRows_le c four noD)]
  refine and_congr_right fun clean => exists_congr fun k => ?_
  have all := aRows_le_totalRows (f := f) (h := h) (r := r) c four noD clean
  exact and_iff_right_of_imp fun fed => fed.1.trans_le all

theorem mem_bReads :
    x ∈ bReads p f h r c.compute noD ↔ bGarbage p f h c.compute.rs2 = false ∧
      ∃ k < bRows p f r c.compute.rs2,
        readRow p ((ofWord p.geometry c.compute.rs2).add p.geometry k) = some x := by
  rw [bReads, mem_fed (Nat.two_pow_pos 16) (totalRows_le c four noD)]
  refine and_congr_right fun clean => exists_congr fun k => ?_
  have all := bRows_le_totalRows (f := f) (h := h) (r := r) c four noD clean
  exact and_iff_right_of_imp fun fed => fed.1.trans_le all

omit four in
theorem mem_dReads :
    x ∈ dReads p f h r c.preload ↔ dGarbage p f h c.preload.rs1 = false ∧
      ∃ k < dRows p f r c.preload.rs1,
        readRow p ((ofWord p.geometry c.preload.rs1).add p.geometry k) = some x := by
  rw [dReads, mem_fed (Nat.two_pow_pos 16) le_rfl]
  refine and_congr_right fun clean => ?_
  have all := dRows_le (f := f) (r := r) c
  constructor
  · rintro ⟨n, -, fed⟩
    exact ⟨_, fed⟩
  · rintro ⟨k, within, read⟩
    have back : p.dim - 1 - (p.dim - 1 - k) = k := by omega
    exact ⟨p.dim - 1 - k, by omega, by rwa [back], by rwa [back]⟩

theorem mem_cWrites :
    x ∈ cWrites p f h r c.preload c.compute noD ↔
      (ofWord p.geometry c.preload.rs2).isGarbage p.geometry = false ∧
      ∃ k < totalRows p f h r c.compute noD,
        writeThisRow f r (rowsDefault p c.preload.rs2) (totalRows p f h r c.compute noD) k = true ∧
        writeRow p (wAddress p f r (ofWord p.geometry c.preload.rs2)
          (totalRows p f h r c.compute noD) k) = some x :=
  mem_fed (Nat.two_pow_pos 16) (totalRows_le c four noD)

end Pair

theorem withGarbageAddr_isGarbage {g : Geometry} (word : g.maxAddrBits + 6 < 32) (x : BitVec 64) :
    (ofWord g (withGarbageAddr x)).isGarbage g = true := by
  have ones : ∀ i < 32, (withGarbageAddr x).toNat.testBit i = true := by
    intro i low
    have mask : (0xFFFFFFFF : BitVec 64).toNat = 2 ^ 32 - 1 := by decide
    rw [withGarbageAddr, BitVec.toNat_or, Nat.testBit_or, mask, Nat.testBit_two_pow_sub_one]
    simp [low]
  have row : slice (withGarbageAddr x) 0 g.maxAddrBits = 2 ^ g.maxAddrBits - 1 := by
    apply Nat.eq_of_testBit_eq
    intro i
    rw [slice, Nat.pow_zero, Nat.div_one, Nat.testBit_mod_two_pow, Nat.testBit_two_pow_sub_one]
    by_cases low : i < g.maxAddrBits
    · simp [low, ones i (by omega)]
    · simp [low]
  simp [LocalAddr.isGarbage, ofWord, bit, row, ones 31 (by decide), ones 30 (by decide),
    ones 29 (by decide), ones g.maxAddrBits (by omega)]

theorem mem_rowsUsed (word : p.geometry.maxAddrBits + 6 < 32) (c : Pair p) (noD : Bool)
    {x : LocalRow} :
    x ∈ rowsUsed p f h r c noD ↔ x ∈ dReads p f h r c.preload ∨
      x ∈ aReads p f h r c.compute noD ∨ x ∈ bReads p f h r c.compute noD ∨
      x ∈ cWrites p f h r c.preload c.compute noD := by
  by_cases unrolled : (r.bTransposedAndWs && c.compute.funct = .computeAndFlip) = true
  · -- the first pair has no C and the second one no D; both have the same A and B
    have noD' : dReads p f h r
        { c.preload with rs1 := withGarbageAddr c.preload.rs1 } = [] := by
      simp [dReads, dGarbage, withGarbageAddr_isGarbage word]
    have noC : cWrites p f h r { c.preload with rs2 := withGarbageAddr c.preload.rs2 }
        { c.compute with funct := .computeAndStay } noD = [] := by
      simp [cWrites, withGarbageAddr_isGarbage word]
    have sameD : dReads p f h r { c.preload with rs2 := withGarbageAddr c.preload.rs2 } =
        dReads p f h r c.preload := rfl
    have sameA : aReads p f h r { c.compute with funct := .computeAndStay } noD =
        aReads p f h r c.compute noD := rfl
    have sameB : bReads p f h r { c.compute with funct := .computeAndStay } noD =
        bReads p f h r c.compute noD := rfl
    have sameC : cWrites p f h r { c.preload with rs1 := withGarbageAddr c.preload.rs1 }
        c.compute noD = cWrites p f h r c.preload c.compute noD := rfl
    rw [rowsUsed, unroll, if_pos unrolled]
    simp only [List.flatMap_cons, List.flatMap_nil, noD', noC, sameD, sameA, sameB, sameC,
      List.mem_append, List.not_mem_nil]
    tauto
  · rw [rowsUsed, unroll, if_neg unrolled]
    simp

/-! ### The recorded ranges -/

variable (s s' : ReservationStation.State p.reservationStation)

/-- The reservation station and the execute controller have seen the same configuration. -/
structure Agree (r : Regs) : Prop where
  aTranspose : s.aTranspose = r.aTranspose
  aStride : s.aStride = r.aAddrStride % 2 ^ p.strideBits
  cStride : s.cStride = r.cAddrStride % 2 ^ p.strideBits
  aAddrStride_lt : r.aAddrStride < 2 ^ 16
  cAddrStride_lt : r.cAddrStride < 2 ^ 16

/-- The ranges recorded for C, D, A and B of a pair; `s` and `s'` are the states of the two allocations. -/
def ranges (c : Pair p) : List OpT :=
  [(newEntry s c.preload).opa.bits, (newEntry s c.preload).opb.bits,
    (newEntry s' c.compute).opa.bits, (newEntry s' c.compute).opb.bits]

def Recorded (c : Pair p) (x : LocalRow) : Prop :=
  ∃ o ∈ ranges s s' c, o.HasRow p.geometry x.isAcc x.row

instance (c : Pair p) (x : LocalRow) : Decidable (Recorded s s' c x) := by
  unfold Recorded
  infer_instance

variable {s s'}

theorem configure_ex {c : Cmd} (config : IsConfigEx c) : configure s c = { s with
    aStride := slice c.rs1 16 16 % 2 ^ p.strideBits
    cStride := slice c.rs2 48 16 % 2 ^ p.strideBits
    aTranspose := if bit c.rs1 7 then s.aTranspose else bit c.rs1 8 } := by
  obtain ⟨funct, type⟩ := config
  have config' : c.isConfig = true := by simp [Cmd.isConfig, funct]
  have queue : c.q = .ex := by simp [Cmd.q, Cmd.isLoad, Cmd.isStore, type, funct, Cmd.isConfig]
  simp [configure, config', queue, ArrayConfig.reservationStation]

theorem Agree.of_config {c : Cmd} (config : IsConfigEx c) (all : bit c.rs1 7 = false) (r : Regs) :
    Agree (configure s c) (r.configure f c) := by
  rw [configure_ex config, Regs.configure, if_pos config, all]
  constructor
  · rfl
  · rfl
  · rfl
  · exact Nat.mod_lt _ (Nat.two_pow_pos 16)
  · exact Nat.mod_lt _ (Nat.two_pow_pos 16)

theorem configure_other {c : Cmd} (other : ¬IsConfigEx c) : (configure s c).aTranspose = s.aTranspose ∧
    (configure s c).aStride = s.aStride ∧ (configure s c).cStride = s.cStride := by
  unfold configure
  by_cases isConfig : c.isConfig = true
  · have notEx : c.q ≠ .ex := by
      intro queue
      have funct : c.funct = .config := by simpa [Cmd.isConfig] using isConfig
      have type : c.configCmdType < 4 := Nat.mod_lt _ (by decide)
      refine other ⟨funct, ?_⟩
      simp only [Cmd.q, Cmd.isLoad, Cmd.isStore, isConfig, funct] at queue
      by_contra no
      have : c.configCmdType = 1 ∨ c.configCmdType = 2 ∨ c.configCmdType = 3 := by omega
      rcases this with t | t | t <;> simp [t] at queue
    simp only [isConfig, if_true]
    cases queue : c.q with
    | ex => exact absurd queue notEx
    | ld => exact ⟨rfl, rfl, rfl⟩
    | st =>
      simp only
      split_ifs <;> exact ⟨rfl, rfl, rfl⟩
  · rw [if_neg isConfig]
    split_ifs <;> exact ⟨rfl, rfl, rfl⟩

theorem Agree.next (agree : Agree s r) (c : Cmd) : Agree (configure s c) (r.configure f c) := by
  by_cases config : IsConfigEx c
  · rw [configure_ex config, Regs.configure, if_pos config, agree.aTranspose]
    exact ⟨rfl, rfl, rfl, Nat.mod_lt _ (Nat.two_pow_pos 16), Nat.mod_lt _ (Nat.two_pow_pos 16)⟩
  · obtain ⟨transpose, a, c'⟩ := configure_other (s := s) config
    rw [Regs.configure, if_neg config]
    exact ⟨transpose.trans agree.aTranspose, a.trans agree.aStride, c'.trans agree.cStride,
      agree.aAddrStride_lt, agree.cAddrStride_lt⟩

/-- The first row and the number of rows that the words of the pair and the strides, cut to their field,
give for C, D, A and B. -/
def extents (r : Regs) (c : Pair p) : List (LocalAddr × Nat) :=
  [(ofWord p.geometry c.preload.rs2, rowsDefault p c.preload.rs2 * (r.cAddrStride % 2 ^ p.strideBits)),
    (ofWord p.geometry c.preload.rs1, rowsDefault p c.preload.rs1),
    (ofWord p.geometry c.compute.rs1, aRows p r c.compute.rs1 * (r.aAddrStride % 2 ^ p.strideBits)),
    (ofWord p.geometry c.compute.rs2, rowsDefault p c.compute.rs2)]

theorem ranges_eq (agree : Agree s r) (agree' : Agree s' r) (c : Pair p) :
    ranges s s' c = (extents r c).map fun o => rangeFrom p.geometry o.1 o.2 := by
  have preload := c.isPreload
  have notPreload : c.compute.funct ≠ .preload := by
    intro no
    have := c.isCompute
    simp [Cmd.functIsCompute, no] at this
  have noDst : c.compute.dstValid = false := by
    have := c.isCompute
    simp only [Cmd.functIsCompute, Bool.or_eq_true, beq_iff_eq] at this
    rcases this with funct | funct <;> simp [Cmd.dstValid, funct]
  have hasOp1 : c.compute.op1Valid = true := by simp [Cmd.op1Valid, c.isCompute]
  have hasDst : c.preload.dstValid = true := by simp [Cmd.dstValid, preload]
  have hasD : c.preload.op1Valid = true := by simp [Cmd.op1Valid, preload]
  simp [ranges, newEntry, newOpa, newOpb, preload, hasDst, hasD, noDst, hasOp1, dst, op1, op2,
    c.isCompute, notPreload, extents, aRows, rowsDefault, colsDefault, agree.cStride, agree'.aStride,
    agree'.aTranspose, ArrayConfig.reservationStation]

/-- A range of `n` rows runs past the end of its memory at most once. -/
def InLap (g : Geometry) (start : LocalAddr) (n : Nat) : Prop :=
  start.data < 2 ^ g.addrBits start.isAccAddr ∧ start.data + n < 2 * 2 ^ g.addrBits start.isAccAddr

def ReadsOwn (p : ArrayConfig) (a : LocalAddr) : Prop := a.isAccAddr = true → p.exReadFromAcc = true

theorem readRow_add {a : LocalAddr} (own : ReadsOwn p a) {n : Nat} {x : LocalRow}
    (read : readRow p (a.add p.geometry n) = some x) :
    x = ⟨a.isAccAddr, (a.data + n) % 2 ^ p.geometry.addrBits a.isAccAddr⟩ := by
  have row := row_add (g := p.geometry) a n
  unfold readRow at read
  rw [add_isAccAddr] at read
  cases acc : a.isAccAddr
  · simp only [acc, Bool.and_false, Bool.false_eq_true, if_false] at read
    split_ifs at read
    rw [← Option.some.inj read, ← acc, ← row, LocalAddr.row, add_isAccAddr, acc]
    rfl
  · simp only [own acc, acc, Bool.and_self, if_true] at read
    rw [← Option.some.inj read, ← acc, ← row, LocalAddr.row, add_isAccAddr, acc]
    rfl

theorem writeRow_add {a : LocalAddr} {n : Nat} {x : LocalRow}
    (written : writeRow p (a.add p.geometry n) = some x) :
    x = ⟨a.isAccAddr, (a.data + n) % 2 ^ p.geometry.addrBits a.isAccAddr⟩ := by
  have row := row_add (g := p.geometry) a n
  unfold writeRow at written
  rw [add_isAccAddr] at written
  cases acc : a.isAccAddr
  all_goals
    simp only [acc, Bool.false_eq_true, if_false, if_true] at written
    split_ifs at written
    rw [← Option.some.inj written, ← acc, ← row, LocalAddr.row, add_isAccAddr, acc]
    rfl

theorem hasRow_of_lt {g : Geometry} {start : LocalAddr} {n o : Nat}
    (clean : start.isGarbage g = false) (lap : InLap g start n) (within : o < n) :
    (rangeFrom g start n).HasRow g start.isAccAddr
      ((start.data + o) % 2 ^ g.addrBits start.isAccAddr) := by
  rw [rangeFrom_hasRow_iff clean lap.1 lap.2]
  exact (Nat.mod_le _ _).trans_lt within

/-- The recorded range of A holds all rows of A: the stride is not zero and is recorded in full. -/
def SoundA (p : ArrayConfig) (r : Regs) (x : BitVec 64) : Prop :=
  ReadsOwn p (ofWord p.geometry x) ∧ 0 < r.aAddrStride ∧ r.aAddrStride < 2 ^ p.strideBits ∧
    InLap p.geometry (ofWord p.geometry x) (aRows p r x * r.aAddrStride)

/-- The recorded range of B or D begins with the rows that the row field names. -/
def SoundBD (p : ArrayConfig) (x : BitVec 64) : Prop :=
  ReadsOwn p (ofWord p.geometry x) ∧
    InLap p.geometry (ofWord p.geometry x) (rowsDefault p x)

/-- The recorded range of C holds all rows of C; besides, the stride is one if the last row is written
first. -/
def SoundC (p : ArrayConfig) (f : Support) (r : Regs) (x : BitVec 64) : Prop :=
  0 < r.cAddrStride ∧ r.cAddrStride < 2 ^ p.strideBits ∧
    (currentDataflow f r = .os → r.cAddrStride = 1) ∧
    InLap p.geometry (ofWord p.geometry x) (rowsDefault p x * r.cAddrStride)

/-- Every operand lies in its own range: B and D also have no more rows than their row field says. -/
structure Sound (h : Bool) (f : Support) (r : Regs) (c : Pair p) : Prop where
  a : aGarbage p c.compute.rs1 = false → SoundA p r c.compute.rs1
  b : bGarbage p f h c.compute.rs2 = false →
    SoundBD p c.compute.rs2 ∧ bRows p f r c.compute.rs2 ≤ rowsDefault p c.compute.rs2
  d : dGarbage p f h c.preload.rs1 = false →
    SoundBD p c.preload.rs1 ∧ dRows p f r c.preload.rs1 ≤ rowsDefault p c.preload.rs1
  c : (ofWord p.geometry c.preload.rs2).isGarbage p.geometry = false → SoundC p f r c.preload.rs2

def Spanned (r : Regs) (c : Pair p) (x : LocalRow) : Prop :=
  ∃ o ∈ extents r c, (rangeFrom p.geometry o.1 o.2).HasRow p.geometry x.isAcc x.row

/-- The rows that an operand uses outside its own range are spanned by another operand's words. -/
structure Explained (h : Bool) (f : Support) (r : Regs) (c : Pair p) (noD : Bool) : Prop where
  a : aGarbage p c.compute.rs1 = false → ¬SoundA p r c.compute.rs1 →
    ∀ k < aRows p r c.compute.rs1, ∀ x ∈ readRow p ((ofWord p.geometry c.compute.rs1).add
      p.geometry (k * r.aAddrStride)), Spanned r c x
  b : bGarbage p f h c.compute.rs2 = false → ∀ k < bRows p f r c.compute.rs2,
    (SoundBD p c.compute.rs2 → rowsDefault p c.compute.rs2 ≤ k) →
    ∀ x ∈ readRow p ((ofWord p.geometry c.compute.rs2).add p.geometry k), Spanned r c x
  d : dGarbage p f h c.preload.rs1 = false → ∀ k < dRows p f r c.preload.rs1,
    (SoundBD p c.preload.rs1 → rowsDefault p c.preload.rs1 ≤ k) →
    ∀ x ∈ readRow p ((ofWord p.geometry c.preload.rs1).add p.geometry k), Spanned r c x
  c : (ofWord p.geometry c.preload.rs2).isGarbage p.geometry = false →
    ¬SoundC p f r c.preload.rs2 → ∀ k < totalRows p f h r c.compute noD,
    writeThisRow f r (rowsDefault p c.preload.rs2) (totalRows p f h r c.compute noD) k = true →
    ∀ x ∈ writeRow p (wAddress p f r (ofWord p.geometry c.preload.rs2)
      (totalRows p f h r c.compute noD) k), Spanned r c x

theorem Sound.explained {c : Pair p} (sound : Sound h f r c) (noD : Bool) : Explained h f r c noD where
  a clean unsound := absurd (sound.a clean) unsound
  b clean k within past := by
    obtain ⟨own, le⟩ := sound.b clean
    exact absurd (past own) (by omega)
  d clean k within past := by
    obtain ⟨own, le⟩ := sound.d clean
    exact absurd (past own) (by omega)
  c clean unsound := absurd (sound.c clean) unsound

section Ranges

variable {c : Pair p}

theorem recorded_iff_spanned (agree : Agree s r) (agree' : Agree s' r) (x : LocalRow) :
    Recorded s s' c x ↔ Spanned r c x := by
  unfold Recorded Spanned
  rw [ranges_eq agree agree']
  simp only [List.mem_map, exists_exists_and_eq_and]

theorem spanned_a (clean : aGarbage p c.compute.rs1 = false)
    (sound : SoundA p r c.compute.rs1) {k : Nat} (within : k < aRows p r c.compute.rs1)
    {x : LocalRow} (read : readRow p ((ofWord p.geometry c.compute.rs1).add p.geometry
      (k * r.aAddrStride)) = some x) : Spanned r c x := by
  obtain ⟨own, stride_pos, stride_lt, lap⟩ := sound
  refine ⟨_, List.mem_of_getElem? (i := 2) rfl, ?_⟩
  rw [readRow_add own read, Nat.mod_eq_of_lt stride_lt]
  exact hasRow_of_lt clean lap ((Nat.mul_lt_mul_right stride_pos).mpr within)

theorem spanned_bd {w : BitVec 64} (mem : w = c.compute.rs2 ∨ w = c.preload.rs1)
    (clean : (ofWord p.geometry w).isGarbage p.geometry = false) (sound : SoundBD p w)
    {k : Nat} (within : k < rowsDefault p w) {x : LocalRow}
    (read : readRow p ((ofWord p.geometry w).add p.geometry k) = some x) :
    Spanned r c x := by
  refine ⟨(ofWord p.geometry w, rowsDefault p w), ?_, ?_⟩
  · rcases mem with rfl | rfl <;> simp [extents]
  · rw [readRow_add sound.1 read]
    exact hasRow_of_lt clean sound.2 within

theorem spanned_c
    (clean : (ofWord p.geometry c.preload.rs2).isGarbage p.geometry = false)
    (sound : SoundC p f r c.preload.rs2) {total k : Nat} (total_le : total ≤ p.dim)
    (below : k < total)
    (within : writeThisRow f r (rowsDefault p c.preload.rs2) total k = true) {x : LocalRow}
    (written : writeRow p (wAddress p f r (ofWord p.geometry c.preload.rs2) total k) =
      some x) : Spanned r c x := by
  obtain ⟨stride_pos, stride_lt, reversed, lap⟩ := sound
  refine ⟨_, List.mem_of_getElem? (i := 0) rfl, ?_⟩
  rw [Nat.mod_eq_of_lt stride_lt]
  cases flow : currentDataflow f r with
  | ws =>
    simp only [writeThisRow, wAddress, flow, decide_eq_true_eq] at within written
    rw [writeRow_add written]
    exact hasRow_of_lt clean lap ((Nat.mul_lt_mul_right stride_pos).mpr within)
  | os =>
    simp only [writeThisRow, wAddress, flow, decide_eq_true_eq] at within written
    rw [reversed flow, Nat.mul_one] at written lap
    rw [reversed flow, Nat.mul_one]
    have dim_le := le_two_pow_log2Up p.dim
    have wide : 2 ^ (16 + log2Up p.dim) = 2 ^ 16 * 2 ^ log2Up p.dim := Nat.pow_add _ _ _
    rw [show total - 1 + 2 ^ (16 + log2Up p.dim) - k = total - 1 - k + 2 ^ (16 + log2Up p.dim) by
      omega, Nat.add_mod_right, Nat.mod_eq_of_lt (by omega)] at written
    rw [writeRow_add written]
    exact hasRow_of_lt clean lap within

end Ranges

/-- For every configuration that both have seen, dataflow and pair: the rows that the pair uses lie in the
recorded ranges if each operand lies in its own, and exactly if what one leaves out lies among the rows that
the words of another give. -/
theorem pair_rows_recorded_iff (four : 4 ≤ p.dim) (word : p.geometry.maxAddrBits + 6 < 32)
    (agree : Agree s r) (agree' : Agree s' r) (c : Pair p) (noD : Bool) :
    (Sound h f r c → ∀ x ∈ rowsUsed p f h r c noD, Recorded s s' c x) ∧
      ((∀ x ∈ rowsUsed p f h r c noD, Recorded s s' c x) ↔ Explained h f r c noD) := by
  suffices exact : (∀ x ∈ rowsUsed p f h r c noD, Recorded s s' c x) ↔ Explained h f r c noD from
    ⟨fun sound => exact.mpr (sound.explained noD), exact⟩
  simp only [recorded_iff_spanned agree agree', mem_rowsUsed word c noD, mem_dReads c,
    mem_aReads c four noD agree.aAddrStride_lt, mem_bReads c four noD, mem_cWrites c four noD]
  constructor
  · intro all
    constructor
    · intro clean _ k within x read
      exact all x (.inr (.inl ⟨clean, k, within, read⟩))
    · intro clean k within _ x read
      exact all x (.inr (.inr (.inl ⟨clean, k, within, read⟩)))
    · intro clean k within _ x read
      exact all x (.inl ⟨clean, k, within, read⟩)
    · intro clean _ k below within x written
      exact all x (.inr (.inr (.inr ⟨clean, k, below, within, written⟩)))
  · rintro explained x (⟨clean, k, within, read⟩ | ⟨clean, k, within, read⟩ | ⟨clean, k, within, read⟩ |
      ⟨clean, k, below, within, written⟩)
    · by_cases sound : SoundBD p c.preload.rs1 ∧ k < rowsDefault p c.preload.rs1
      · exact spanned_bd (.inr rfl) (Bool.or_eq_false_iff.mp clean).2 sound.1 sound.2 read
      · exact explained.d clean k within (fun ok => not_lt.mp fun lt => sound ⟨ok, lt⟩) x read
    · by_cases sound : SoundA p r c.compute.rs1
      · exact spanned_a clean sound within read
      · exact explained.a clean sound k within x read
    · by_cases sound : SoundBD p c.compute.rs2 ∧ k < rowsDefault p c.compute.rs2
      · exact spanned_bd (.inl rfl) (Bool.or_eq_false_iff.mp clean).2 sound.1 sound.2 read
      · exact explained.b clean k within (fun ok => not_lt.mp fun lt => sound ⟨ok, lt⟩) x read
    · by_cases sound : SoundC p f r c.preload.rs2
      · exact spanned_c clean sound (totalRows_le c four noD) below within written
      · exact explained.c clean sound k below within x written

/-- `CONFIG_EX` for the weight-stationary dataflow with both strides one. -/
def configWs (bTranspose : Bool) : Cmd :=
  ⟨.config, BitVec.ofNat 64 (2 ^ 2 + (if bTranspose then 2 ^ 9 else 0) + 2 ^ 16), BitVec.ofNat 64 (2 ^ 48)⟩

/-- D in scratchpad rows 8 and 9 with four columns, C in accumulator row 0 and up. -/
def smallPreload : Cmd := ⟨.preload, operand 2 4 8, operand 4 4 (2 ^ 31)⟩

def smallCompute : Cmd := ⟨.computeAndFlip, operand 4 2 0, operand 4 4 0xFFFFFFFF⟩

def smallPair : Pair fourArray where
  preload := smallPreload
  compute := smallCompute
  isPreload := by decide
  isCompute := by decide
  sizes := by
    rw [List.forall_mem_cons, List.forall_mem_cons, List.forall_mem_cons, List.forall_mem_singleton]
    decide

def noRegs : Regs := ⟨.ws, false, false, 0, 0, false⟩

theorem sound_smallPair : Sound false .both (noRegs.configure .both (configWs false)) smallPair where
  a _ := by
    unfold SoundA ReadsOwn InLap
    decide
  b clean := absurd clean (by decide)
  d _ := by
    unfold SoundBD ReadsOwn InLap
    decide
  c _ := by
    unfold SoundC InLap
    decide

theorem plain_pair_recorded :
    let s := configure (resetState fourArray.reservationStation) (configWs false)
    rowsUsed fourArray .both false (noRegs.configure .both (configWs false)) smallPair true ≠ [] ∧
    ∀ x ∈ rowsUsed fourArray .both false (noRegs.configure .both (configWs false)) smallPair true,
      Recorded s (configure s smallPair.preload) smallPair x := by
  intro s
  have agree : Agree s (noRegs.configure .both (configWs false)) := .of_config (by decide) (by decide) _
  have later : Agree (configure s smallPair.preload) (noRegs.configure .both (configWs false)) :=
    agree.next (f := .both) smallPair.preload
  exact ⟨by decide,
    (pair_rows_recorded_iff (by decide) (by decide) agree later smallPair true).1 sound_smallPair⟩

/-- With D transposed, the execute controller reads rows 8 to 11, and rows 8 and 9 are recorded. -/
theorem transposed_d_not_recorded :
    IsConfigEx (configWs true) ∧
    dReads fourArray .both false (noRegs.configure .both (configWs true)) smallPair.preload =
      [⟨false, 11⟩, ⟨false, 10⟩, ⟨false, 9⟩, ⟨false, 8⟩] ∧
    ¬∀ x ∈ rowsUsed fourArray .both false (noRegs.configure .both (configWs true)) smallPair true,
      Recorded (configure (resetState fourArray.reservationStation) (configWs true))
        (configure (resetState fourArray.reservationStation) (configWs true)) smallPair x := by
  decide

end Gemmini.Execute
