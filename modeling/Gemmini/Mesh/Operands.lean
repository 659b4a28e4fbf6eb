import Gemmini.Mesh.Requests

/-!
# Operands

Which rows of A, B and D meet in the array: every port hands its rows over in order, one for each row
that enters, and the transposer turns the rows it is fed into the columns of the block before.
-/

namespace Gemmini.Mesh

/-! ### The transposer -/

namespace Transposer

variable {α : Type} [Inhabited α] {n : ℕ}

/-- Element `v` of the row that is `u` rows away from the output. -/
def cell (s : Transposer α) (u v : ℕ) : α := if s.up then s.pes u v else s.pes v u

/-- A transposer that has been fed the rows `l`: what is left of the block before, by columns, then the
current rows. -/
structure Holds (n : ℕ) (s : Transposer α) (l : List (ℕ → α)) : Prop where
  started : n ≤ l.length
  counter : s.counter = l.length % n
  up : s.up = true ↔ l.length / n % 2 = 0
  cell : ∀ u < n, ∀ v < n, s.cell u v =
    if u + l.length % n < n then l.getD (n * (l.length / n - 1) + v) default (u + l.length % n)
    else l.getD (n * (l.length / n) + (u + l.length % n - n)) default v

omit [Inhabited α] in
theorem pes_push (s : Transposer α) (x : ℕ → α) (u v : ℕ) :
    (if s.up then (s.push n x).pes u v else (s.push n x).pes v u) =
      if u = n - 1 then x v else s.cell (u + 1) v := by
  unfold push cell
  cases s.up <;> simp

theorem getD_concat_of_lt {l : List (ℕ → α)} {m : ℕ} (h : m < l.length) (x : ℕ → α) :
    (l ++ [x]).getD m default = l.getD m default := by
  simp [List.getD, List.getElem?_append_left h]

theorem getD_concat_length (l : List (ℕ → α)) (x : ℕ → α) {m : ℕ} (h : m = l.length) :
    (l ++ [x]).getD m default = x := by
  subst h
  simp [List.getD]

variable {s : Transposer α} {l : List (ℕ → α)}

theorem Holds.push_within (h : s.Holds n l) (x : ℕ → α)
    (inside : l.length % n + 1 < n) : (s.push n x).Holds n (l ++ [x]) := by
  have len : (l ++ [x]).length = l.length + 1 := by simp
  have split := Nat.div_add_mod l.length n
  have mod : (l.length + 1) % n = l.length % n + 1 := by
    rw [Nat.add_mod, Nat.mod_eq_of_lt (a := 1) (by omega), Nat.mod_eq_of_lt inside]
  have div : (l.length + 1) / n = l.length / n := by
    have split' := Nat.div_add_mod (l.length + 1) n
    rw [mod] at split'
    exact Nat.eq_of_mul_eq_mul_left (by omega : 0 < n) (by omega)
  have blocks : n ≤ n * (l.length / n) := by
    have := Nat.div_pos h.started (by omega)
    exact Nat.le_mul_of_pos_right n this
  have before : n * (l.length / n - 1) + n = n * (l.length / n) := by
    rw [Nat.mul_sub_one]
    omega
  have turn : (s.push n x).up = s.up := by
    unfold push
    rw [if_neg (by rw [h.counter]; omega)]
  refine ⟨by rw [len]; have := h.started; omega, ?_, ?_, fun u hu v hv => ?_⟩
  · rw [len, mod, push, h.counter, wrappingAdd_eq (by omega) (by omega), Nat.mod_eq_of_lt inside]
  · rw [turn, len, div, h.up]
  · rw [Transposer.cell, turn, pes_push, len, mod, div]
    split_ifs with bottom old old
    · omega
    · rw [getD_concat_length _ _ (by omega)]
    · rw [h.cell _ (by omega) _ hv, if_pos (by omega), getD_concat_of_lt (by omega),
        show u + 1 + l.length % n = u + (l.length % n + 1) by omega]
    · rw [h.cell _ (by omega) _ hv, if_neg (by omega), getD_concat_of_lt (by omega),
        show u + 1 + l.length % n = u + (l.length % n + 1) by omega]

theorem Holds.push_last (h : s.Holds n l) (x : ℕ → α)
    (pos : 0 < n) (last : l.length % n + 1 = n) : (s.push n x).Holds n (l ++ [x]) := by
  have len : (l ++ [x]).length = l.length + 1 := by simp
  have rest : l.length % n = n - 1 := Nat.eq_sub_of_add_eq last
  have whole : l.length + 1 = n * (l.length / n) + n := by
    conv_lhs => rw [← Nat.div_add_mod l.length n, Nat.add_assoc, last]
  have mod : (l.length + 1) % n = 0 := by rw [whole, Nat.add_mod_right, Nat.mul_mod_right]
  have div : (l.length + 1) / n = l.length / n + 1 := by
    rw [whole, Nat.add_div_right _ pos, Nat.mul_div_cancel_left _ pos]
  have turn : (s.push n x).up = !s.up := by
    unfold push
    rw [if_pos (by rw [h.counter, rest])]
  refine ⟨by rw [len]; have := h.started; omega, ?_, ?_, fun u hu v hv => ?_⟩
  · rw [len, mod, push, h.counter]
    rcases Nat.eq_or_lt_of_le pos with rfl | two
    · rfl
    · rw [wrappingAdd_eq (by omega) two, last, Nat.mod_self]
  · rw [turn, len, div]
    have := h.up
    cases up : s.up
    · simp [up] at this ⊢
      omega
    · simp [up] at this ⊢
      omega
  · have flipped : (s.push n x).cell u v =
        if s.up then (s.push n x).pes v u else (s.push n x).pes u v := by
      rw [Transposer.cell, turn]
      cases s.up <;> rfl
    rw [flipped, pes_push, len, mod, div, if_pos (show u + 0 < n from hu), Nat.add_sub_cancel,
      Nat.add_zero u]
    split_ifs with bottom
    · rw [getD_concat_length _ _ (by omega)]
    · rw [h.cell _ (by omega) _ hu, rest, if_neg (by omega), getD_concat_of_lt (by omega),
        show v + 1 + (n - 1) - n = v by omega]

theorem Holds.push (pos : 0 < n) (h : s.Holds n l)
    (x : ℕ → α) : (s.push n x).Holds n (l ++ [x]) := by
  have := Nat.mod_lt l.length pos
  rcases Nat.lt_or_ge (l.length % n + 1) n with inside | last
  · exact h.push_within x inside
  · exact h.push_last x pos (by omega)

theorem Holds.init (pos : 0 < n) (counter : s.counter = 0)
    (left : s.up = false) : s.Holds n ((List.range n).map s.pes) where
  started := by simp
  counter := by simp [counter]
  up := by simp [left, Nat.div_self pos]
  cell u hu v hv := by
    simp [Transposer.cell, left, hu, Nat.div_self pos, List.getD, hv]

theorem Holds.outCol (h : s.Holds n l) {i : ℕ} (hi : i < n) :
    s.outCol i = l.getD (n * (l.length / n - 1) + i) default (l.length % n) := by
  have := h.cell 0 (by omega) i hi
  rw [if_pos (by have := Nat.mod_lt l.length (show 0 < n by omega); omega), Nat.zero_add] at this
  exact this

omit [Inhabited α]

/-- One cycle: a row is pushed, or `io.inRow` is not valid. -/
def cycle (dim : ℕ) (s : Transposer α) : Option (ℕ → α) → Transposer α
  | none => s
  | some row => s.push dim row

theorem Holds.cycles [Inhabited α] (pos : 0 < n)
    (h : s.Holds n l) (inputs : List (Option (ℕ → α))) :
    (inputs.foldl (cycle n) s).Holds n (l ++ inputs.filterMap id) := by
  induction inputs generalizing s l with
  | nil => simpa using h
  | cons x inputs ih =>
    cases x with
    | none => exact ih h
    | some row =>
      have pushed := ih (h.push pos row)
      rw [List.append_assoc] at pushed
      exact pushed

/-- The matrices `M 0`, `M 1`, … are pushed row by row, with idle cycles anywhere.  When row `j` of one
is pushed, column `j` of the one before is on the output. -/
theorem outputs_previous_column {s : Transposer α} (counter : s.counter = 0) (left : s.up = false)
    {M : ℕ → ℕ → ℕ → α} {m j : ℕ} (hj : j < n) {inputs : List (Option (ℕ → α))}
    (pushed : inputs.filterMap id =
      (List.range (n * (m + 1) + j)).map fun k => M (k / n) (k % n)) {i : ℕ} (hi : i < n) :
    (inputs.foldl (cycle n) s).outCol i = M m i j := by
  have : Inhabited α := ⟨s.pes 0 0⟩
  have pos : 0 < n := by omega
  have holds := (Holds.init pos counter left).cycles pos inputs
  rw [pushed] at holds
  have rest : (n + (n * (m + 1) + j)) % n = j := by
    rw [Nat.add_mod_left, Nat.mul_add_mod, Nat.mod_eq_of_lt hj]
  have blocks : (n + (n * (m + 1) + j)) / n - 1 = m + 1 := by
    rw [Nat.add_div_left _ pos, Nat.mul_add_div pos, Nat.div_eq_of_lt hj]
    rfl
  have place : n * (m + 1) + i = n + (n * m + i) := by ring
  have earlier : n * m + i < n * (m + 1) + j := by
    rw [Nat.mul_succ]
    omega
  rw [holds.outCol hi, List.length_append, List.length_map, List.length_map, List.length_range,
    List.length_range, rest, blocks, place]
  simp [List.getD, earlier, Nat.mul_add_div pos, Nat.div_eq_of_lt hi, Nat.mod_eq_of_lt hi]

def numbered (x row col : ℕ) : ℕ := 4 * x + 2 * row + col

/-- After an idle cycle within the first matrix and the first row of the second. -/
theorem second_column_of_numbered :
    (List.foldl (cycle 2) ⟨fun _ _ => 0, 0, false⟩
      [some (numbered 0 0), none, some (numbered 0 1), some (numbered 1 0)]).outCol 1 = 3 :=
  outputs_previous_column (M := numbered) (m := 0) (j := 1) rfl rfl (by decide) rfl (by decide)

end Transposer

/-! ### The operand ports -/

namespace Run

variable {P : DelayParams} {Tag : Type} {garbage : Tag} {accepts : Req Tag → Prop}
variable (τ : Run P garbage accepts)

/-- A row enters with operands of its own; the rows of a flush enter with whatever is buffered. -/
def consumes (t : ℕ) : Bool := τ.fire t && (τ.state t).req.flush = 0

/-- How many rows of each operand entered the array before cycle `t`. -/
def entered : ℕ → ℕ
  | 0 => 0
  | t + 1 => entered t + if τ.consumes t then 1 else 0

/-- The rows accepted on a port before cycle `t`. -/
def handed (port : State P Tag → Input P Tag → Option (Row P)) : ℕ → List (Row P)
  | 0 => []
  | t + 1 => handed port t ++ (port (τ.state t) (τ.input t)).toList

/-- A row that waits to enter stays: neither a flush nor the next row on its port takes its place. -/
def Stays (port : State P Tag → Input P Tag → Option (Row P)) (written : State P Tag → Bool) : Prop :=
  ∀ t, written (τ.state t) = true → τ.consumes t = false →
    τ.fire t = false ∧ port (τ.state t) (τ.input t) = none

/-- No operand row is lost on its way into the array. -/
structure Waits : Prop where
  a : τ.Stays State.aFire State.aWritten
  b : τ.Stays State.bFire State.bWritten
  d : τ.Stays State.dFire State.dWritten

variable {τ}

theorem fire_of_consumes {t : ℕ} (h : τ.consumes t = true) : τ.fire t = true := by
  rw [consumes, Bool.and_eq_true] at h
  exact h.1

theorem consumes_eq_fire (flushless : ∀ t, ∀ r ∈ (τ.input t).req, r.flush = 0) (t : ℕ) :
    τ.consumes t = τ.fire t := by
  have none : ∀ t, (τ.state t).reqValid = true → (τ.state t).req.flush = 0 := by
    intro t valid
    induction t with
    | zero => rw [τ.init.reqValid] at valid; cases valid
    | succ t ih =>
      have state : τ.state (t + 1) = (τ.state t).next (τ.input t) garbage := τ.step t
      rw [state] at valid ⊢
      unfold State.next at valid ⊢
      cases fires : (τ.state t).reqFire (τ.input t) with
      | some r =>
        unfold State.reqFire at fires
        split_ifs at fires
        exact flushless t r fires
      | none =>
        simp only [fires] at valid
        dsimp only
        by_cases last : (τ.state t).lastFire = true
        · have before := last
          rw [State.lastFire, Bool.and_eq_true] at before
          simp [last, ih (inputNextRow_valid before.2)] at valid
        · rw [if_neg last] at valid ⊢
          exact ih valid
  cases fires : τ.fire t with
  | false => simp [consumes, fires]
  | true => simp [consumes, fires, none t (inputNextRow_valid fires)]

theorem written_of_consumes {t : ℕ} (h : τ.consumes t = true) : (τ.state t).aWritten = true ∧
    (τ.state t).bWritten = true ∧ (τ.state t).dWritten = true := by
  simp only [consumes, fire, State.inputNextRow, Bool.and_eq_true, Bool.or_eq_true,
    decide_eq_true_eq] at h
  obtain ⟨⟨_, rows | flush⟩, none⟩ := h
  · tauto
  · omega

variable (τ) in
structure Buffered (port : State P Tag → Input P Tag → Option (Row P))
    (written : State P Tag → Bool) (buf : State P Tag → Row P) : Prop where
  start : written (τ.state 0) = false
  bufNext : ∀ t, buf (τ.state (t + 1)) = (port (τ.state t) (τ.input t)).getD (buf (τ.state t))
  writtenNext : ∀ t, written (τ.state (t + 1)) =
    ((port (τ.state t) (τ.input t)).isSome || (written (τ.state t) && !τ.fire t))
  full : ∀ t, τ.consumes t = true → written (τ.state t) = true
  stays : τ.Stays port written

variable {port : State P Tag → Input P Tag → Option (Row P)} {written : State P Tag → Bool}
  {buf : State P Tag → Row P}

theorem Buffered.handed_eq (h : τ.Buffered port written buf) (t : ℕ) :
    (τ.handed port t).length = τ.entered t + (if written (τ.state t) then 1 else 0) ∧
      (written (τ.state t) = true → (τ.handed port t)[τ.entered t]? = some (buf (τ.state t))) := by
  induction t with
  | zero => simp [handed, entered, h.start]
  | succ t ih =>
    obtain ⟨len, row⟩ := ih
    simp only [handed, entered, h.bufNext, h.writtenNext]
    cases takes : τ.consumes t with
    | true =>
      rw [h.full t takes, if_pos rfl] at len
      rw [fire_of_consumes takes]
      cases new : port (τ.state t) (τ.input t) with
      | none => simpa using len
      | some x => simp [len]
    | false =>
      cases waiting : written (τ.state t) with
      | true =>
        obtain ⟨quiet, none⟩ := h.stays t waiting takes
        rw [waiting] at len
        rw [none, quiet]
        exact ⟨by simpa using len, fun _ => by simpa using row waiting⟩
      | false =>
        rw [waiting] at len
        simp only [Bool.false_eq_true, if_false, Nat.add_zero] at len
        cases new : port (τ.state t) (τ.input t) with
        | none => simpa using len
        | some x =>
          rw [← len]
          simp

variable (τ) in
/-- What a port and its buffer send into the array: the next row, or in a flush what is left in the
buffer. -/
def operand (port : State P Tag → Input P Tag → Option (Row P)) (buf : State P Tag → Row P)
    (t : ℕ) : Row P :=
  if τ.consumes t then (τ.handed port t).getD (τ.entered t) default else buf (τ.state t)

theorem Buffered.buf_eq (h : τ.Buffered port written buf) (t : ℕ) :
    buf (τ.state t) = τ.operand port buf t := by
  unfold operand
  split_ifs with takes
  · rw [List.getD, (h.handed_eq t).2 (h.full t takes), Option.getD_some]
  · rfl

variable (waits : τ.Waits)

include waits in
theorem buffers_eq (t : ℕ) : (τ.state t).aBuf = τ.operand State.aFire State.aBuf t ∧
    (τ.state t).bBuf = τ.operand State.bFire State.bBuf t ∧
    (τ.state t).dBuf = τ.operand State.dFire State.dBuf t := by
  have a : τ.Buffered State.aFire State.aWritten State.aBuf :=
    ⟨τ.init.aWritten, fun t => by rw [τ.step]; rfl, fun t => by rw [τ.step]; rfl,
      fun t h => (written_of_consumes h).1, waits.a⟩
  have b : τ.Buffered State.bFire State.bWritten State.bBuf :=
    ⟨τ.init.bWritten, fun t => by rw [τ.step]; rfl, fun t => by rw [τ.step]; rfl,
      fun t h => (written_of_consumes h).2.1, waits.b⟩
  have d : τ.Buffered State.dFire State.dWritten State.dBuf :=
    ⟨τ.init.dWritten, fun t => by rw [τ.step]; rfl, fun t => by rw [τ.step]; rfl,
      fun t h => (written_of_consumes h).2.2, waits.d⟩
  exact ⟨a.buf_eq t, b.buf_eq t, d.buf_eq t⟩

/-! ### Through the transposer -/

variable (τ) in
/-- The row that enters at `t` is exchanged in the transposer. -/
def transposes (t : ℕ) : Bool :=
  τ.fire t && ((τ.state t).aIsFromTransposer || (τ.state t).bIsFromTransposer ||
    (τ.state t).dIsFromTransposer)

variable (τ) in
/-- The row fed to the transposer at `t`: B, D from its last column on, or A. -/
def transposed (t : ℕ) : Row P := fun i =>
  if (τ.state t).bIsFromTransposer then τ.operand State.bFire State.bBuf t i
  else if (τ.state t).dIsFromTransposer then
    τ.operand State.dFire State.dBuf t (P.blockSize - 1 - i)
  else τ.operand State.aFire State.aBuf t i

variable (τ) in
/-- The rows fed to the transposer before cycle `t`, after the contents it started from. -/
def fed : ℕ → List (Row P)
  | 0 => (List.range P.blockSize).map (τ.state 0).transposer.pes
  | t + 1 => fed t ++ if τ.transposes t then [τ.transposed t] else []

variable (τ) in
/-- The column that the transposer gives out after `p` rows of the current block: column `p` of the one
before. -/
def column (t i : ℕ) : BitVec P.elemW :=
  (τ.fed t).getD (P.blockSize * ((τ.fed t).length / P.blockSize - 1) + i) default
    ((τ.fed t).length % P.blockSize)

include waits in
theorem transposer_holds (t : ℕ) : (τ.state t).transposer.Holds P.blockSize (τ.fed t) := by
  have pos : 0 < P.blockSize := Nat.zero_lt_of_lt P.two_le
  induction t with
  | zero => exact Transposer.Holds.init pos τ.init.counter τ.init.dir
  | succ t ih =>
    have step : (τ.state (t + 1)).transposer =
        if τ.transposes t then (τ.state t).transposer.push P.blockSize (τ.state t).transposerIn
        else (τ.state t).transposer := by
      rw [τ.step]
      rfl
    have row : (τ.state t).transposerIn = τ.transposed t := by
      obtain ⟨a, b, d⟩ := buffers_eq waits t
      funext i
      rw [State.transposerIn, transposed, a, b, d]
    rw [step, fed, row]
    cases τ.transposes t with
    | false => simpa using ih
    | true => exact ih.push pos _

variable (τ) in
/-- The row of A that enters at `t`. -/
def rowA (t i : ℕ) : BitVec P.elemW :=
  if (τ.state t).aIsFromTransposer then τ.column t i else τ.operand State.aFire State.aBuf t i

variable (τ) in
/-- The row of B that enters at `t`. -/
def rowB (t j : ℕ) : BitVec P.elemW :=
  if (τ.state t).bIsFromTransposer then τ.column t j else τ.operand State.bFire State.bBuf t j

variable (τ) in
/-- The row of D that enters at `t`. -/
def rowD (t j : ℕ) : BitVec P.elemW :=
  if (τ.state t).dIsFromTransposer then τ.column t (P.blockSize - 1 - j)
  else τ.operand State.dFire State.dBuf t j

include waits in
theorem rows_eq (t : ℕ) {i : ℕ} (hi : i < P.blockSize) :
    (τ.state t).aRow i = τ.rowA t i ∧ (τ.state t).bRow i = τ.rowB t i ∧
      (τ.state t).dRow i = τ.rowD t i := by
  obtain ⟨a, b, d⟩ := buffers_eq waits t
  have turned := transposer_holds waits t
  rw [State.aRow, State.bRow, State.dRow, a, b, d, turned.outCol hi,
    turned.outCol (show P.blockSize - 1 - i < P.blockSize by omega)]
  exact ⟨rfl, rfl, rfl⟩

end Run

/-! ### Runs out of a cleared state -/

section Cleared

variable {P : DelayParams} {Tag : Type}

def Down.cleared : Down :=
  ⟨fun _ => 0, fun _ => 0, fun _ => ⟨.os, false, 0⟩, fun _ => false, fun _ => 0, fun _ => false⟩

def State.cleared (P : DelayParams) (garbage : Tag) : State P Tag where
  reqValid := false
  req := ⟨⟨.os, false, 0⟩, false, false, 0, garbage, 0⟩
  matmulId := 0
  fireCounter := 0
  aBuf _ := 0
  bBuf _ := 0
  dBuf _ := 0
  aWritten := false
  bWritten := false
  dWritten := false
  inProp := false
  resultShift := 0
  transposer := ⟨fun _ _ => 0, 0, false⟩
  skewA _ _ _ := 0
  skewDown _ _ := Down.cleared
  grid := ⟨fun _ _ _ _ => ⟨0, 0, false⟩, fun _ _ _ _ => 0, fun _ _ _ => Down.cleared,
    fun _ _ => Down.cleared⟩
  skewData _ _ _ := 0
  skewMark _ := ⟨false, false, 0⟩
  tagq := ⟨fun _ => ⟨garbage, 0⟩, 0, 0, 0⟩
  totalRowsQ := []

theorem State.cleared_init (garbage : Tag) : (State.cleared P garbage).Init := by
  constructor <;> intros <;> rfl

def Input.idle : Input P Tag := ⟨none, none, none, none⟩

def Run.ofInputs {garbage : Tag} {accepts : Req Tag → Prop} (inputs : List (Input P Tag))
    (legal : ∀ inp ∈ inputs, ∀ r ∈ inp.req, accepts r) : Run P garbage accepts where
  state := Machine.Trace.ofInputs (machine P garbage accepts) (State.cleared P garbage)
    fun t => inputs.getD t Input.idle
  input t := inputs.getD t Input.idle
  init := State.cleared_init garbage
  legal t r hr := by
    rcases Nat.lt_or_ge t inputs.length with inside | outside
    · refine legal _ (List.getElem_mem inside) r ?_
      simpa [List.getD, inside] using hr
    · simp [List.getD, outside, Input.idle] at hr
  step _ := rfl

/-- No row is lost in a run without flushes in which every row enters in the cycle after it was handed
over, as long as there are any. -/
theorem Run.waits_of_idle {garbage : Tag} {accepts : Req Tag → Prop} {τ : Run P garbage accepts}
    (flushless : ∀ t, ∀ r ∈ (τ.input t).req, r.flush = 0) (n : ℕ)
    (early : ∀ t < n, τ.consumes t = true ∨ (τ.state t).aWritten = false ∧
      (τ.state t).bWritten = false ∧ (τ.state t).dWritten = false)
    (idle : ∀ t, n ≤ t → τ.input t = Input.idle) : τ.Waits := by
  have late : ∀ t, n ≤ t → (τ.state t).aFire (τ.input t) = none ∧
      (τ.state t).bFire (τ.input t) = none ∧ (τ.state t).dFire (τ.input t) = none := by
    intro t ht
    rw [idle t ht]
    exact ⟨ite_self none, ite_self none, ite_self none⟩
  constructor
  all_goals
    intro t written takes
    refine ⟨by rw [← consumes_eq_fire flushless]; exact takes, ?_⟩
    rcases Nat.lt_or_ge t n with before | after
    · have := early t before
      simp_all
    · simp [late t after]

end Cleared

end Gemmini.Mesh
