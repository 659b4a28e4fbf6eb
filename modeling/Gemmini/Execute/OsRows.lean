import Gemmini.Execute.Recorded
import Gemmini.Simulator.Model

/-!
# Where the results of the output-stationary dataflow are written

`ExecuteController.scala` takes the address of a result row from a counter; the last row leaves first.
It subtracts the strided counter from the last row, where it should stride the row itself: every row is
off by `(dim - 1) * (stride - 1)`.  The functional model strides the row.
-/

namespace Gemmini.Execute

open ReservationStation (Cmd)
open Odometer (wrappingAdd)
open Mesh (Support)
open Simulator (Hw field)
open Simulator (garbageAddr flag)

variable {E : Type}

/-! ### The output of the controller -/

structure ResultRow (E : Type) where
  regs : Regs
  robValid : Bool
  addr : LocalAddr
  rows : ℕ
  cols : ℕ
  totalRows : ℕ
  data : ℕ → E

/-- The address of a row, the number of elements that the mask lets through, and the elements. -/
structure RowWrite (E : Type) where
  addr : LocalAddr
  cols : ℕ
  data : ℕ → E

variable (p : ArrayConfig) (f : Support)

/-- The write of a row, for the value of `output_counter`. -/
def ResultRow.write (counter : ℕ) (x : ResultRow E) : Option (RowWrite E) :=
  if x.robValid && !x.addr.isGarbage p.geometry &&
      writeThisRow f x.regs x.rows x.totalRows counter then
    some ⟨wAddress p f x.regs x.addr x.totalRows counter, x.cols, x.data⟩
  else none

/-- `output_counter` after a row. -/
def ResultRow.count (counter : ℕ) (x : ResultRow E) : ℕ :=
  if x.robValid then
    wrappingAdd (log2Up (p.dim + 1)) counter 1 x.totalRows true % 2 ^ log2Up p.dim
  else counter

def output : ℕ → List (ResultRow E) → List (RowWrite E)
  | _, [] => []
  | counter, x :: xs => (x.write p f counter).toList ++ output (x.count p counter) xs

/-! ### A stream of matmuls -/

/-- An output-stationary matmul: its registers, the word of its destination, and the block that leaves
the mesh. -/
structure OsMatmul (f : Support) (E : Type) where
  regs : Regs
  word : BitVec 64
  robValid : Bool
  block : ℕ → ℕ → E
  os : currentDataflow f regs = .os
  stride_lt : regs.cAddrStride < 2 ^ 16

namespace OsMatmul

variable {f}

def addr (m : OsMatmul f E) : LocalAddr := LocalAddr.ofWord p.geometry m.word

def rows (m : OsMatmul f E) : ℕ := rowsDefault p m.word

def cols (m : OsMatmul f E) : ℕ := colsDefault p m.word

def resultRow (m : OsMatmul f E) (n : ℕ) : ResultRow E :=
  ⟨m.regs, m.robValid, m.addr p, m.rows p, m.cols p, p.dim, m.block (p.dim - 1 - n)⟩

def resultRows (m : OsMatmul f E) : List (ResultRow E) := (List.range p.dim).map (m.resultRow p)

def writes (m : OsMatmul f E) : Bool := m.robValid && !(m.addr p).isGarbage p.geometry

/-- The write of row `r` that the stride of the destination asks for. -/
def rowWrite (m : OsMatmul f E) (r : ℕ) : RowWrite E :=
  ⟨(m.addr p).add p.geometry (r * m.regs.cAddrStride), m.cols p, m.block r⟩

def destination (m : OsMatmul f E) : List (RowWrite E) :=
  (List.range p.dim).filterMap fun n =>
    if m.writes p && p.dim - 1 - n < m.rows p then some (m.rowWrite p (p.dim - 1 - n)) else none

end OsMatmul

variable {p f}

theorem count_resultRow {m : OsMatmul f E} (valid : m.robValid = true) {n : ℕ} (lt : n < p.dim) :
    (m.resultRow p n).count p n = if n + 1 < p.dim then n + 1 else 0 := by
  have wide := le_two_pow_log2Up (p.dim + 1)
  have narrow := le_two_pow_log2Up p.dim
  show (if m.robValid = true then _ else _) = _
  rw [if_pos valid]
  show wrappingAdd _ n 1 p.dim true % _ = _
  rw [Odometer.wrappingAdd_one (by omega) (by omega) lt]
  apply Nat.mod_eq_of_lt
  split_ifs <;> omega

theorem write_of_invalid {m : OsMatmul f E} (invalid : m.robValid = false) (n k : ℕ) :
    (m.resultRow p n).write p f k = none := by
  show (if (m.robValid && _ && _) = true then _ else _) = _
  rw [invalid]
  rfl

theorem output_from {m : OsMatmul f E} (valid : m.robValid = true) (rest : List (ResultRow E))
    (k : ℕ) : ∀ n, 0 < k → n + k = p.dim →
      output p f n ((List.range' n k).map (m.resultRow p) ++ rest) =
        ((List.range' n k).filterMap fun i => (m.resultRow p i).write p f i) ++ output p f 0 rest := by
  -- by induction on the number of rows that are left
  induction k with
  | zero =>
    intro n pos
    exact absurd pos (Nat.lt_irrefl 0)
  | succ k ih =>
    intro n _ sum
    rw [List.range'_succ, List.map_cons, List.cons_append, output, count_resultRow valid (by omega),
      List.filterMap_cons]
    rcases Nat.eq_zero_or_pos k with rfl | more
    · rw [if_neg (by omega)]
      cases (m.resultRow p n).write p f n <;> rfl
    · rw [if_pos (by omega), ih (n + 1) more (by omega)]
      cases (m.resultRow p n).write p f n <;> rfl

theorem output_invalid {m : OsMatmul f E} (invalid : m.robValid = false) (rest : List (ResultRow E))
    (c : ℕ) (is : List ℕ) :
    output p f c (is.map (m.resultRow p) ++ rest) = output p f c rest := by
  induction is with
  | nil => rfl
  | cons i is ih =>
    have still : (m.resultRow p i).count p c = c := if_neg (by
      show ¬m.robValid = true
      rw [invalid]
      decide)
    rw [List.map_cons, List.cons_append, output, write_of_invalid invalid, still, ih]
    rfl

theorem output_stream (ms : List (OsMatmul f E)) :
    output p f 0 (ms.flatMap (·.resultRows p)) =
      (ms.flatMap fun m => (List.range p.dim).map (m, ·)).filterMap fun x =>
        (x.1.resultRow p x.2).write p f x.2 := by
  induction ms with
  | nil => rfl
  | cons m ms ih =>
    rw [List.flatMap_cons, List.flatMap_cons, List.filterMap_append, List.filterMap_map, ← ih,
      OsMatmul.resultRows]
    cases valid : m.robValid with
    | true =>
      rw [List.range_eq_range', output_from valid _ p.dim 0 p.dim_pos (by omega)]
      rfl
    | false =>
      rw [output_invalid valid]
      have none' : ((fun x : OsMatmul f E × ℕ => (x.1.resultRow p x.2).write p f x.2) ∘ fun n => (m, n)) =
          fun _ => none := funext fun n => write_of_invalid valid n n
      rw [none', List.filterMap_none, List.nil_append]

/-! ### The addresses -/

theorem offset_iff {last w width k stride c : ℕ} (le : k ≤ last) (small : last < 2 ^ w)
    (product : last * stride < 2 ^ w) :
    (c + (last + 2 ^ w - k * stride) % 2 ^ w) % 2 ^ width =
        (c + (last - k) * stride) % 2 ^ width ↔ last * stride ≡ last [MOD 2 ^ width] := by
  have part : k * stride ≤ last * stride := Nat.mul_le_mul_right _ le
  have split : (last - k) * stride = last * stride - k * stride := Nat.sub_mul _ _ _
  rw [split]
  have cancel (x y : ℕ) : (c + x) % 2 ^ width = (c + y) % 2 ^ width ↔ x ≡ y [MOD 2 ^ width] :=
    ⟨fun h => Nat.ModEq.add_left_cancel' c h, fun h => Nat.ModEq.add_left c h⟩
  rw [cancel]
  -- both sides with the counter put back
  have back (x : ℕ) : x ≡ last * stride - k * stride [MOD 2 ^ width] ↔
      x + k * stride ≡ last * stride [MOD 2 ^ width] := by
    constructor
    · intro h
      have := Nat.ModEq.add_right (k * stride) h
      rwa [Nat.sub_add_cancel part] at this
    · intro h
      refine Nat.ModEq.add_right_cancel' (k * stride) ?_
      rwa [Nat.sub_add_cancel part]
  rw [back]
  rcases Nat.lt_or_ge last (k * stride) with past | within
  · rw [Nat.mod_eq_of_lt (by omega), Nat.sub_add_cancel (by omega)]
    rcases Nat.lt_or_ge w width with wide | narrow
    · -- the borrow stays in the address, and neither side holds
      have double : 2 * 2 ^ w ≤ 2 ^ width := by
        rw [← Nat.pow_succ']
        exact Nat.pow_le_pow_right (by decide) wide
      constructor
      · intro h
        have := Nat.ModEq.eq_of_lt_of_lt h (by omega) (by omega)
        omega
      · intro h
        have := Nat.ModEq.eq_of_lt_of_lt h (by omega) (by omega)
        omega
    · have zero : last + 2 ^ w ≡ last [MOD 2 ^ width] :=
        Nat.modEq_iff_dvd' (Nat.le_add_right _ _) |>.mpr (by
          rw [Nat.add_sub_cancel_left]
          exact Nat.pow_dvd_pow 2 narrow) |>.symm
      exact ⟨fun h => h.symm.trans zero, fun h => zero.trans h.symm⟩
  · rw [show last + 2 ^ w - k * stride = last - k * stride + 2 ^ w by omega, Nat.add_mod_right,
      Nat.mod_eq_of_lt (by omega), Nat.sub_add_cancel within]
    exact ⟨Nat.ModEq.symm, Nat.ModEq.symm⟩

/-- The stride is one, up to multiples of the address space. -/
def OsMatmul.Contiguous (p : ArrayConfig) (m : OsMatmul f E) : Prop :=
  (p.dim - 1) * m.regs.cAddrStride ≡ p.dim - 1 [MOD 2 ^ p.geometry.maxAddrBits]

instance (m : OsMatmul f E) : Decidable (m.Contiguous p) := inferInstanceAs (Decidable (_ % _ = _))

theorem wAddress_iff (m : OsMatmul f E) {n : ℕ} (lt : n < p.dim) :
    wAddress p f m.regs (m.addr p) p.dim n =
        (m.addr p).add p.geometry ((p.dim - 1 - n) * m.regs.cAddrStride) ↔ m.Contiguous p := by
  have narrow := le_two_pow_log2Up p.dim
  have last : p.dim - 1 < 2 ^ log2Up p.dim := by omega
  have wide : 2 ^ log2Up p.dim ≤ 2 ^ (16 + log2Up p.dim) :=
    Nat.pow_le_pow_right (by decide) (Nat.le_add_left _ _)
  have product : (p.dim - 1) * m.regs.cAddrStride < 2 ^ (16 + log2Up p.dim) := by
    rw [Nat.pow_add, Nat.mul_comm (2 ^ 16)]
    exact Nat.mul_lt_mul'' last m.stride_lt
  have same (x y : ℕ) : (m.addr p).add p.geometry x = (m.addr p).add p.geometry y ↔
      ((m.addr p).data + x) % 2 ^ p.geometry.maxAddrBits =
        ((m.addr p).data + y) % 2 ^ p.geometry.maxAddrBits :=
    ⟨congrArg LocalAddr.data, fun h => by rw [LocalAddr.add, LocalAddr.add, h]⟩
  rw [wAddress, m.os, same]
  exact offset_iff (by omega) (last.trans_le wide) product

theorem writeThisRow_eq (m : OsMatmul f E) (n : ℕ) :
    writeThisRow f m.regs (m.rows p) p.dim n = decide (p.dim - 1 - n < m.rows p) := by
  rw [writeThisRow, m.os]

theorem filterMap_eq_iff {α β : Type} {g h : α → Option β} {l : List α}
    (places : ∀ x ∈ l, (g x).isSome = (h x).isSome) :
    l.filterMap g = l.filterMap h ↔ ∀ x ∈ l, g x = h x := by
  induction l with
  | nil => simp
  | cons x l ih =>
    have rest := ih fun y mem => places y (List.mem_cons_of_mem _ mem)
    have here := places x List.mem_cons_self
    rw [List.forall_mem_cons, ← rest]
    cases gx : g x with
    | none =>
      rw [gx, eq_comm, Option.isSome_none, Option.isSome_eq_false_iff, Option.isNone_iff_eq_none] at here
      rw [List.filterMap_cons_none gx, List.filterMap_cons_none here, here]
      exact ⟨fun h => ⟨rfl, h⟩, And.right⟩
    | some y =>
      rw [gx, eq_comm, Option.isSome_some, Option.isSome_iff_exists] at here
      obtain ⟨z, hx⟩ := here
      rw [List.filterMap_cons_some gx, List.filterMap_cons_some hx, hx, List.cons.injEq,
        Option.some.injEq]

theorem output_eq_iff (ms : List (OsMatmul f E)) :
    output p f 0 (ms.flatMap (·.resultRows p)) = ms.flatMap (·.destination p) ↔
      ∀ m ∈ ms, m.writes p = true → 0 < m.rows p → m.Contiguous p := by
  have asked : ms.flatMap (·.destination p) =
      (ms.flatMap fun m => (List.range p.dim).map (m, ·)).filterMap fun x =>
        if x.1.writes p && decide (p.dim - 1 - x.2 < x.1.rows p) then
          some (x.1.rowWrite p (p.dim - 1 - x.2))
        else none := by
    rw [List.filterMap_flatMap]
    refine List.flatMap_congr fun m _ => ?_
    rw [List.filterMap_map]
    rfl
  have write (m : OsMatmul f E) (n : ℕ) : (m.resultRow p n).write p f n =
      if m.writes p && decide (p.dim - 1 - n < m.rows p) then
        some ⟨wAddress p f m.regs (m.addr p) p.dim n, m.cols p, m.block (p.dim - 1 - n)⟩
      else none := by
    rw [← writeThisRow_eq]
    rfl
  rw [output_stream, asked, filterMap_eq_iff]
  · simp only [write, List.mem_flatMap, List.mem_map, List.mem_range, forall_exists_index, and_imp]
    constructor
    · intro same m mem writes some'
      have last : p.dim - 1 < p.dim := by have := p.dim_pos; omega
      have here := same (m, p.dim - 1) m mem (p.dim - 1) last rfl
      rw [writes, Nat.sub_self, decide_eq_true some', Bool.and_self, if_pos rfl, if_pos rfl,
        Option.some.injEq, OsMatmul.rowWrite, RowWrite.mk.injEq] at here
      apply (wAddress_iff m last).mp
      rw [here.1, Nat.sub_self]
    · rintro contiguous _ m mem n lt rfl
      split_ifs with within
      · rw [Bool.and_eq_true, decide_eq_true_iff] at within
        have place := (wAddress_iff m lt).mpr
          (contiguous m mem within.1 (Nat.zero_lt_of_lt within.2))
        rw [place]
        rfl
      · rfl
  · rintro ⟨m, n⟩ -
    rw [write]
    split_ifs <;> rfl

/-! ### The functional model -/

/-- The row to which `compute` of the functional model moves row `i` of the results. -/
def functionalRow (s : Simulator.State) (i : ℕ) : ℕ := field s.outputAddr 0 29 + s.cStride * i

section Functional

variable {hw : Hw} {s : Simulator.State} {aAddr bdAddr : ℕ}

theorem multiply_frame {k : ℕ × ℕ}
    (other : ∀ i < s.outputRows, ∀ j < s.outputCols, k ≠ (functionalRow s i, j)) :
    (s.multiply hw aAddr bdAddr).accumulator k = s.accumulator k ∧
      (s.multiply hw aAddr bdAddr).spad k = s.spad k := by
  unfold Simulator.State.multiply
  dsimp only
  by_cases garbage : s.outputAddr = garbageAddr
  · rw [if_pos garbage]
    exact ⟨rfl, rfl⟩
  · rw [if_neg garbage]
    by_cases acc : flag s.outputAddr 31 = true
    · rw [if_pos acc]
      exact ⟨modifyGrid_of_ne other _ _, rfl⟩
    · rw [if_neg acc]
      exact ⟨rfl, modifyGrid_of_ne other _ _⟩

theorem multiply_row (os : s.mode = .os) (given : s.outputAddr ≠ garbageAddr)
    (stride : 0 < s.cStride) {i j : ℕ} (row : i < s.outputRows) (col : j < s.outputCols) :
    if flag s.outputAddr 31 then
      (s.multiply hw aAddr bdAddr).accumulator (functionalRow s i, j) =
        if flag s.outputAddr 30 then
          s.accumulator (functionalRow s i, j) + (s.multiply hw aAddr bdAddr).pe i j
        else (s.multiply hw aAddr bdAddr).pe i j
    else (s.multiply hw aAddr bdAddr).spad (functionalRow s i, j) =
      Simulator.State.applyActivation (s.shifted ((s.multiply hw aAddr bdAddr).pe i j)) s.sysAct := by
  have distinct : ∀ i' < s.outputRows, ∀ j' < s.outputCols,
      (functionalRow s i', j') = (functionalRow s i, j) → i' = i ∧ j' = j := by
    intro i' _ j' _ same
    rw [Prod.mk.injEq, functionalRow, functionalRow, Nat.add_left_cancel_iff] at same
    exact ⟨Nat.eq_of_mul_eq_mul_left stride same.1, same.2⟩
  unfold Simulator.State.multiply
  dsimp only
  rw [if_neg given]
  by_cases acc : flag s.outputAddr 31 = true
  · rw [if_pos acc, if_pos acc]
    refine (modifyGrid_at row col distinct _ _).trans ?_
    simp only [os, if_true, Simulator.State.require]
  · rw [if_neg acc, if_neg acc]
    refine (modifyGrid_at row col distinct _ _).trans ?_
    simp only [os, if_true, Simulator.State.require]

/-- The functional model has the sizes of the array, and the 29 bits of a row hold the garbage bit. -/
structure Matches (p : ArrayConfig) (hw : Hw) : Prop where
  dim : hw.dim = p.dim
  spad : hw.spadRows ≤ 2 ^ p.geometry.spAddrBits
  acc : hw.accRows ≤ 2 ^ p.geometry.accAddrBits
  narrow : p.geometry.maxAddrBits < 29

structure OsMatmul.At (m : OsMatmul f E) (s : Simulator.State) : Prop where
  robValid : m.robValid = true
  mode : s.mode = .os
  stride : s.cStride = m.regs.cAddrStride
  outputAddr : s.outputAddr = field m.word.toNat 0 32
  outputRows : s.outputRows = field m.word.toNat 48 16
  outputCols : s.outputCols = field m.word.toNat 32 16
  given : s.outputAddr ≠ garbageAddr

theorem rows_fit_of_ok (given : s.outputAddr ≠ garbageAddr)
    (ok : (s.multiply hw aAddr bdAddr).ok = true) {i : ℕ} (row : i < s.outputRows) :
    functionalRow s i < (if flag s.outputAddr 31 then hw.accRows else hw.spadRows) ∧
      i < hw.dim ∧ s.outputCols ≤ hw.dim := by
  unfold Simulator.State.multiply at ok
  dsimp only at ok
  rw [if_neg given] at ok
  by_cases acc : flag s.outputAddr 31 = true
  · rw [if_pos acc, Simulator.State.require, Bool.and_eq_true, decide_eq_true_iff] at ok
    rw [if_pos acc]
    exact ok.2 i row
  · rw [if_neg acc, Simulator.State.require, Bool.and_eq_true, decide_eq_true_iff] at ok
    rw [if_neg acc]
    exact ok.2 i row

theorem size_eq (sizes : Matches p hw) {x lo : ℕ} (le : field x lo 16 ≤ p.dim) :
    x / 2 ^ lo % 2 ^ log2Up (p.dim + 1) = field x lo 16 := by
  have wide : log2Up (p.dim + 1) ≤ 16 := by
    have small := hw.dim_lt
    have top : log2Up (2 ^ 16) = 16 := by decide
    rw [sizes.dim] at small
    exact top ▸ log2Up_mono small
  have below := le_two_pow_log2Up (p.dim + 1)
  rw [← Nat.mod_mod_of_dvd _ (Nat.pow_dvd_pow 2 wide)]
  apply Nat.mod_eq_of_lt
  exact lt_of_le_of_lt le (by omega)

theorem row_of_functional {m : OsMatmul f E} (sizes : Matches p hw) (at' : m.At s)
    (ok : (s.multiply hw aAddr bdAddr).ok = true) {i : ℕ} (row : i < s.outputRows) :
    m.writes p = true ∧ i < m.rows p ∧ m.cols p = s.outputCols ∧
      (m.rowWrite p i).addr.row p.geometry = functionalRow s i ∧
      (m.rowWrite p i).addr.isAccAddr = flag s.outputAddr 31 := by
  obtain ⟨fits, -, cols⟩ := rows_fit_of_ok at'.given ok row
  have block : s.outputRows ≤ p.dim := by
    have last := (rows_fit_of_ok at'.given ok (Nat.sub_one_lt_of_lt row)).2.1
    rw [sizes.dim] at last
    omega
  have base : functionalRow s i = m.word.toNat % 2 ^ 29 + i * m.regs.cAddrStride := by
    rw [functionalRow, at'.outputAddr, at'.stride, Nat.mul_comm]
    simp only [field, Nat.pow_zero, Nat.div_one]
    rw [Nat.mod_mod_of_dvd _ (by decide : 2 ^ 29 ∣ 2 ^ 32)]
  have acc : (m.addr p).isAccAddr = flag s.outputAddr 31 := by
    show m.word.toNat.testBit 31 = _
    rw [at'.outputAddr, Nat.testBit_eq_decide_div_mod_eq, flag, field, field,
      decide_eq_decide]
    omega
  have narrow := sizes.narrow
  -- the row is within the memory that the address names
  have small : functionalRow s i < 2 ^ p.geometry.addrBits (m.addr p).isAccAddr := by
    rw [acc, Geometry.addrBits]
    split_ifs at fits ⊢
    · exact fits.trans_le sizes.acc
    · exact fits.trans_le sizes.spad
  have le : p.geometry.addrBits (m.addr p).isAccAddr ≤ p.geometry.maxAddrBits := by
    rw [Geometry.addrBits]
    split_ifs
    · exact le_max_right _ _
    · exact le_max_left _ _
  have wide := Nat.pow_le_pow_right (show 0 < 2 by decide) le
  have low : m.word.toNat % 2 ^ 29 < 2 ^ p.geometry.maxAddrBits := by omega
  have data : (m.addr p).data = m.word.toNat % 2 ^ 29 := by
    show m.word.toNat / 2 ^ 0 % _ = _
    rw [Nat.pow_zero, Nat.div_one, ← Nat.mod_mod_of_dvd _ (Nat.pow_dvd_pow 2 narrow.le)]
    exact Nat.mod_eq_of_lt low
  have clean : (m.addr p).isGarbage p.geometry = false := by
    have bit : m.word.toNat.testBit p.geometry.maxAddrBits = false := by
      have same := Nat.testBit_mod_two_pow m.word.toNat 29 p.geometry.maxAddrBits
      rw [Nat.testBit_lt_two_pow low, decide_eq_true narrow, Bool.true_and] at same
      exact same.symm
    show (_ && m.word.toNat.testBit p.geometry.maxAddrBits) = false
    rw [bit, Bool.and_false]
  refine ⟨?_, ?_, ?_, ?_, acc⟩
  · rw [OsMatmul.writes, at'.robValid, clean]
    rfl
  · show i < m.word.toNat / 2 ^ 48 % _
    rw [at'.outputRows] at row block
    rw [size_eq sizes block]
    exact row
  · show m.word.toNat / 2 ^ 32 % _ = _
    rw [sizes.dim, at'.outputCols] at cols
    rw [size_eq sizes cols, at'.outputCols]
  · show ((m.addr p).data + i * m.regs.cAddrStride) % 2 ^ _ % 2 ^ _ = _
    rw [data, ← base, Nat.mod_eq_of_lt (small.trans_le wide)]
    exact Nat.mod_eq_of_lt small

end Functional

/-- The rows of a stream of output-stationary matmuls are written where the strides of their
destinations ask for, and no others, exactly if every destination with a row is contiguous.  The
functional model writes the rows of the destination, and nothing else. -/
theorem os_rows_written_iff (ms : List (OsMatmul f E)) :
    (output p f 0 (ms.flatMap (·.resultRows p)) = ms.flatMap (·.destination p) ↔
      ∀ m ∈ ms, m.writes p = true → 0 < m.rows p → m.Contiguous p) ∧
    ∀ m ∈ ms, ∀ hw, Matches p hw → ∀ s, m.At s → ∀ aAddr bdAddr,
      (s.multiply hw aAddr bdAddr).ok = true →
      (∀ k, (s.multiply hw aAddr bdAddr).accumulator k ≠ s.accumulator k ∨
          (s.multiply hw aAddr bdAddr).spad k ≠ s.spad k →
        ∃ r, m.rowWrite p r ∈ m.destination p ∧ k.1 = (m.rowWrite p r).addr.row p.geometry ∧
          k.2 < (m.rowWrite p r).cols) ∧
      (0 < s.cStride → ∀ r < s.outputRows, ∀ j < s.outputCols,
        if (m.rowWrite p r).addr.isAccAddr then
          (s.multiply hw aAddr bdAddr).accumulator ((m.rowWrite p r).addr.row p.geometry, j) =
            if flag s.outputAddr 30 then
              s.accumulator ((m.rowWrite p r).addr.row p.geometry, j) +
                (s.multiply hw aAddr bdAddr).pe r j
            else (s.multiply hw aAddr bdAddr).pe r j
        else (s.multiply hw aAddr bdAddr).spad ((m.rowWrite p r).addr.row p.geometry, j) =
          Simulator.State.applyActivation (s.shifted ((s.multiply hw aAddr bdAddr).pe r j))
            s.sysAct) := by
  refine ⟨output_eq_iff ms, ?_⟩
  intro m _ hw sizes s at' aAddr bdAddr ok
  constructor
  · intro k changed
    obtain ⟨i, row, j, col, rfl⟩ : ∃ i < s.outputRows, ∃ j < s.outputCols,
        k = (functionalRow s i, j) := by
      by_contra none'
      push Not at none'
      have frame : (s.multiply hw aAddr bdAddr).accumulator k = s.accumulator k ∧
          (s.multiply hw aAddr bdAddr).spad k = s.spad k := multiply_frame none'
      exact changed.elim (fun h => h frame.1) (fun h => h frame.2)
    obtain ⟨writes, within, cols, same, -⟩ := row_of_functional sizes at' ok row
    refine ⟨i, ?_, same.symm, ?_⟩
    · have lt : i < p.dim := by
        have := (rows_fit_of_ok at'.given ok row).2.1
        rwa [sizes.dim] at this
      refine List.mem_filterMap.mpr ⟨p.dim - 1 - i, List.mem_range.mpr (by omega), ?_⟩
      rw [show p.dim - 1 - (p.dim - 1 - i) = i by omega, writes, decide_eq_true within]
      rfl
    · show j < m.cols p
      rw [cols]
      exact col
  · intro stride r row j col
    obtain ⟨-, -, -, same, acc⟩ := row_of_functional sizes at' ok row
    rw [same, acc]
    exact multiply_row at'.mode at'.given stride row col

def strided : OsMatmul .both ℕ where
  regs := ⟨.os, false, false, 1, 2, false⟩
  word := ReservationStation.operand 4 4 (2 ^ 31 + 8)
  robValid := true
  block r _ := r
  os := rfl
  stride_lt := by decide

/-- The functional model before the compute of `strided`. -/
def stridedState : Simulator.State :=
  { Simulator.fresh with
    cStride := 2, outputAddr := 2 ^ 31 + 8, outputRows := 4, outputCols := 4, pe := fun i j => BitVec.ofNat 32 (10 * i + j) }

theorem strided_at : strided.At stridedState := by
  constructor <;> decide

theorem strided_rows_of_the_model :
    let s := stridedState.multiply Simulator.fourHw garbageAddr garbageAddr
    s.ok = true ∧ ∀ r < 4, ∀ j < 4, s.accumulator (8 + 2 * r, j) = s.pe r j := by
  have sizes : Matches fourArray Simulator.fourHw := by constructor <;> decide
  have ok : (stridedState.multiply Simulator.fourHw garbageAddr garbageAddr).ok = true := by decide
  have rows := ((os_rows_written_iff [strided]).2 strided (by simp) _ sizes _ strided_at _ _ ok).2
  refine ⟨ok, fun r hr j hj => ?_⟩
  have row := rows (by decide) r hr j hj
  interval_cases r <;> exact row

/-- The last row goes to row 11, not to row 14, and the first one to row 5, not to row 8. -/
theorem strided_rows_misplaced :
    (output fourArray .both 0 ([strided].flatMap (·.resultRows fourArray))).map
        (fun w => (w.data 0, w.addr.row fourArray.geometry)) = [(3, 11), (2, 9), (1, 7), (0, 5)] ∧
      ([strided].flatMap (·.destination fourArray)).map
        (fun w => (w.data 0, w.addr.row fourArray.geometry)) = [(3, 14), (2, 12), (1, 10), (0, 8)] := by
  decide

end Gemmini.Execute
