import Gemmini.Mesh.Operands

/-!
# Weight-stationary products

Each column keeps the weights in one of two registers while the other takes in the next weights, row by
row from the top.  A row comes out as its product with the weights that were shifted in last with the
other `propagate` bit, plus the row of B.
-/

namespace Gemmini.Mesh

open Finset

/-! ### Products of a tile -/

section Products

variable {P : Params} {ctl : PEControl}

def PE.weight (P : Params) (s : PE) (ctl : PEControl) : ℤ :=
  asType P.cW P.elemW (s.computed ctl)

theorem outB_ws (ws : P.mode ctl.dataflow = .ws) (wide : P.outW ≤ P.macW) (s : PE) (a b : ℤ) :
    s.outB P ctl a b = sint P.outW (b + a * s.weight P ctl) := by
  unfold PE.outB
  rw [ws]
  show mac P (sint P.macW b) a (s.weight P ctl) = _
  unfold mac
  rw [sint_eq_iff]
  calc sint (max (P.elemW + P.elemW) P.macW) (a * s.weight P ctl + sint P.macW b)
      ≡ a * s.weight P ctl + sint P.macW b [ZMOD 2 ^ P.outW] :=
        sint_modEq_of_le (wide.trans (le_max_right _ _)) _
    _ ≡ a * s.weight P ctl + b [ZMOD 2 ^ P.outW] :=
        Int.ModEq.add_left _ (sint_modEq_of_le wide b)
    _ = b + a * s.weight P ctl := by ring

theorem pairSums_modEq (w : ℕ) : ∀ xs : List ℤ, (pairSums w xs).sum ≡ xs.sum [ZMOD 2 ^ w]
  | [] => Int.ModEq.rfl
  | [_] => Int.ModEq.rfl
  | a :: b :: rest => by
    simp only [pairSums, List.sum_cons]
    rw [← add_assoc]
    exact (sint_modEq w (a + b)).add (pairSums_modEq w rest)

theorem length_pairSums (w : ℕ) : ∀ xs : List ℤ, (pairSums w xs).length = (xs.length + 1) / 2
  | [] => by simp [pairSums]
  | [_] => by simp [pairSums]
  | a :: b :: rest => by
    simp only [pairSums, List.length_cons, length_pairSums w rest]
    omega

theorem length_level (w : ℕ) (xs : List ℤ) (many : 2 ≤ xs.length) :
    (pairSums w (xs ++ List.replicate (2 ^ log2Ceil xs.length - xs.length) 0)).length <
      xs.length := by
  have low := Nat.log2_self_le (n := xs.length - 1) (by omega)
  have high := Nat.lt_log2_self (n := xs.length - 1)
  have ceil : log2Ceil xs.length = Nat.log2 (xs.length - 1) + 1 := by
    rw [log2Ceil, if_neg (by omega)]
  rw [length_pairSums, List.length_append, List.length_replicate, ceil]
  rw [Nat.pow_succ] at high ⊢
  omega

theorem accumulateTree_modEq (w n : ℕ) (xs : List ℤ) (enough : xs.length ≤ n + 1) :
    accumulateTree w n xs ≡ xs.sum [ZMOD 2 ^ w] := by
  induction n generalizing xs with
  | zero =>
    match xs, enough with
    | [], _ => exact Int.ModEq.rfl
    | [x], _ => simp [accumulateTree]
  | succ n ih =>
    match xs, enough with
    | [], _ => exact Int.ModEq.rfl
    | [x], _ => simp [accumulateTree]
    | x :: y :: rest, enough =>
      have shorter := length_level w (x :: y :: rest) (by simp)
      refine (ih _ (by omega)).trans ((pairSums_modEq w _).trans ?_)
      simp

theorem pairSums_normal {w : ℕ} : ∀ {xs : List ℤ}, (∀ x ∈ xs, sint w x = x) →
    ∀ x ∈ pairSums w xs, sint w x = x
  | [], normal => normal
  | [_], normal => normal
  | a :: b :: rest, normal => by
    intro x hx
    rcases List.mem_cons.mp hx with rfl | later
    · exact sint_sint w _
    · exact pairSums_normal (fun y hy => normal y (by simp [hy])) x later

theorem accumulateTree_normal {w n : ℕ} {xs : List ℤ} (normal : ∀ x ∈ xs, sint w x = x) :
    sint w (accumulateTree w n xs) = accumulateTree w n xs := by
  induction n generalizing xs with
  | zero =>
    match xs, normal with
    | [], _ => simp [accumulateTree, sint]
    | x :: [], normal => exact normal x (by simp)
    | x :: _ :: _, normal => exact normal x (by simp)
  | succ n ih =>
    match xs, normal with
    | [], _ => simp [accumulateTree, sint]
    | x :: [], normal => exact normal x (by simp)
    | x :: y :: rest, normal =>
      refine ih (pairSums_normal fun z hz => ?_)
      rcases List.mem_append.mp hz with own | zero
      · exact normal z own
      · rw [List.eq_of_mem_replicate zero]
        simp [sint]

theorem sum_sint_modEq (w n : ℕ) (f : ℕ → ℤ) :
    ((List.range n).map fun r => sint w (f r)).sum ≡ ∑ r ∈ range n, f r [ZMOD 2 ^ w] := by
  induction n with
  | zero => exact Int.ModEq.rfl
  | succ n ih =>
    rw [List.range_succ, List.map_append, List.sum_append, sum_range_succ]
    simpa using ih.add (sint_modEq w (f n))

theorem tileOutB_ws {pe : ℕ → ℕ → PE} {x : Down} {a : ℕ → ℤ} {c : ℕ}
    (ws : P.mode (x.control c).dataflow = .ws) (wide : P.outW ≤ P.macW)
    (normal : sint P.outW (x.b c) = x.b c) :
    Tile.outB P pe x a c = sint P.outW
      (x.b c + ∑ r ∈ range P.tileRows, a r * (pe r c).weight P (x.control c)) := by
  unfold Tile.outB
  cases tree : P.treeReduction with
  | false =>
    have chain : ∀ n, Tile.inB P pe x a c n = sint P.outW
        (x.b c + ∑ r ∈ range n, a r * (pe r c).weight P (x.control c)) := by
      intro n
      induction n with
      | zero => simp [Tile.inB, tree, normal]
      | succ n ih =>
        rw [Tile.inB, tree, if_neg (by decide), outB_ws ws wide, ih, sum_range_succ, ← add_assoc,
          sint_eq_iff]
        exact Int.ModEq.add_right _ (sint_modEq _ _)
    simpa using chain P.tileRows
  | true =>
    simp only [if_true, outB_ws ws wide, zero_add]
    rw [← accumulateTree_normal, sint_eq_iff]
    · refine (accumulateTree_modEq _ _ _ (by simp)).trans ?_
      rw [List.sum_append, List.sum_singleton, add_comm]
      exact Int.ModEq.add_left _ (sum_sint_modEq _ _ _)
    · intro y hy
      rcases List.mem_append.mp hy with product | above
      · obtain ⟨r, _, rfl⟩ := List.mem_map.mp product
        exact sint_sint _ _
      · rw [List.mem_singleton.mp above]
        exact normal

theorem flow_b_ws {G : Elements} {top : Down} {a : ℕ → ℕ → ℤ} {C c : ℕ}
    (ws : P.mode (top.control c).dataflow = .ws) (wide : P.outW ≤ P.macW)
    (normal : sint P.outW (top.b c) = top.b c) (R : ℕ) :
    (flow P G top a C R).b c = sint P.outW (top.b c +
      ∑ R' ∈ range R, ∑ r ∈ range P.tileRows, a R' r * (G R' C r c).weight P (top.control c)) := by
  induction R with
  | zero => simpa [flow] using normal.symm
  | succ R ih =>
    show Tile.outB P (G R C) (flow P G top a C R) (a R) c = _
    rw [tileOutB_ws (by rw [flow_control]; exact ws) wide (by rw [ih, sint_sint]), flow_control, ih,
      sum_range_succ, ← add_assoc, sint_eq_iff]
    exact Int.ModEq.add_right _ (sint_modEq _ _)

end Products

/-! ### The weights that have been shifted in -/

def Params.pass (P : Params) (x : ℤ) : ℤ := sint P.cW (sint P.outW x)

theorem next_reg_ws {P : Params} {ctl : PEControl} (ws : P.mode ctl.dataflow = .ws) (s : PE)
    (a b d : ℤ) (q : Bool) :
    (s.next P ctl true a b d).reg q = if ctl.propagate = q then sint P.cW d else s.reg q := by
  simp only [PE.next, ws, if_true, PE.reg, PE.computed]
  cases ctl.propagate <;> cases q <;> simp

section Weights

variable {P : DelayParams} {Tag : Type} {garbage : Tag} {accepts : Req Tag → Prop}
variable {τ : Run P garbage accepts}

theorem inD_at (G : Elements) (s : State P Tag) (i j : ℕ) :
    Tile.inD P.toParams (G (i / P.tileRows) (j / P.tileColumns))
        (flow P.toParams G (s.rowDown (j / P.tileColumns)) s.rowA (j / P.tileColumns) (i / P.tileRows))
        (j % P.tileColumns) (i % P.tileRows) =
      if i = 0 then (s.rowDown (j / P.tileColumns)).d (j % P.tileColumns)
      else (G.at P.toParams (i - 1) j).outC P.toParams
        ((s.rowDown (j / P.tileColumns)).control (j % P.tileColumns)) := by
  have passed := inD_eq (P := P.toParams) G (s.rowDown (j / P.tileColumns)) s.rowA (R := i / P.tileRows)
    (C := j / P.tileColumns) (Nat.mod_lt i P.tileRows_pos) (Nat.mod_lt j P.tileColumns_pos)
  rwa [Nat.div_add_mod', Nat.div_add_mod'] at passed

theorem absorb_reg_ws {G : Elements} {s : State P Tag}
    (ws : P.mode s.req.control.dataflow = .ws) (i j : ℕ) (q : Bool) :
    ((absorb P.toParams G s.rowDown s.rowA).at P.toParams i j).reg q =
      if s.inProp = q then
        if i = 0 then P.pass (s.dRow j).toInt else P.pass ((G.at P.toParams (i - 1) j).reg q)
      else (G.at P.toParams i j).reg q := by
  show (PE.next P.toParams _ _ true _ _ _).reg q = _
  rw [next_reg_ws (by rw [flow_control]; exact ws), flow_control, inD_at]
  show (if s.inProp = q then _ else _) = _
  split_ifs with bit top
  · show sint P.cW (sint P.outW (s.dRow _).toInt) = _
    rw [Nat.div_add_mod']
    rfl
  · rw [PE.outC, show P.mode (((s.rowDown (j / P.tileColumns)).control (j % P.tileColumns)).dataflow)
      = .ws from ws]
    show sint P.cW (sint P.outW _) = _
    rw [← bit]
    rfl
  · rfl

theorem pass_pass (P : Params) (x : ℤ) : P.pass (P.pass x) = P.pass x := by
  unfold Params.pass
  rcases Nat.le_total P.outW P.cW with narrow | wide
  · simp only [sint_of_narrow narrow, sint_sint]
  · rw [sint_eq_iff]
    exact (sint_modEq_of_le wide _).trans (sint_modEq _ _)

theorem asType_pass_modEq {P : Params} (wide : P.outW ≤ P.macW) (x : BitVec P.elemW) :
    asType P.cW P.elemW (P.pass x.toInt) ≡ x.toInt [ZMOD 2 ^ P.outW] := by
  have register : P.cW = P.elemW ∨ P.outW ≤ P.cW := by
    unfold Params.macW at wide
    unfold Params.cW
    by_cases only : P.df = .ws
    · simp [only]
    · simp only [only, if_false] at wide ⊢
      exact Or.inr wide
  rcases Nat.le_total P.elemW P.outW with fits | long
  · -- the element fits everywhere and comes back unchanged
    have holds : P.elemW ≤ P.cW := by omega
    have passed : P.pass x.toInt = x.toInt := by
      rw [Params.pass, ← sint_toInt P.elemW x, sint_of_narrow fits, sint_of_narrow holds]
    have back : asType P.cW P.elemW x.toInt = x.toInt := by
      conv_rhs => rw [← sint_toInt P.elemW x]
      rw [asType, sint_eq_iff]
      exact Int.emod_emod_of_dvd _ (pow_dvd_pow 2 holds)
    rw [passed, back]
  · have holds : P.outW ≤ P.cW := by omega
    calc asType P.cW P.elemW (P.pass x.toInt)
        ≡ P.pass x.toInt [ZMOD 2 ^ P.outW] := asType_modEq holds long _
      _ ≡ sint P.outW x.toInt [ZMOD 2 ^ P.outW] := sint_modEq_of_le holds _
      _ ≡ x.toInt [ZMOD 2 ^ P.outW] := sint_modEq _ _

namespace Run

variable (τ) in
/-- The cycles before `t` in which a row with `propagate` bit `q` entered, the latest first. -/
def pushes (q : Bool) : ℕ → List ℕ
  | 0 => []
  | t + 1 => if τ.fire t = true ∧ (τ.state t).inProp = q then t :: pushes q t else pushes q t

variable (τ) in
/-- What is left of the contents of the registers out of reset after `n` rows. -/
def powerOn (q : Bool) (n i j : ℕ) : ℤ :=
  let x := (Elements.at P.toParams (τ.state 0).grid.pe (i - n) j).reg q
  if n = 0 then x else P.pass x

theorem wave_reg (ws : ∀ t, τ.fire t = true → P.mode (τ.state t).req.control.dataflow = .ws)
    (q : Bool) (t i j : ℕ) :
    ((τ.wave t).at P.toParams i j).reg q =
      match (τ.pushes q t)[i]? with
      | some s => P.pass ((τ.state s).dRow j).toInt
      | none => τ.powerOn q (τ.pushes q t).length i j := by
  induction t generalizing i with
  | zero => rw [wave_zero]; rfl
  | succ t ih =>
    rw [wave_succ]
    by_cases fires : τ.fire t = true
    · rw [if_pos fires, absorb_reg_ws (ws t fires)]
      by_cases bit : (τ.state t).inProp = q
      · have pushed : τ.pushes q (t + 1) = t :: τ.pushes q t := if_pos ⟨fires, bit⟩
        rw [if_pos bit, pushed]
        cases i with
        | zero => rfl
        | succ i =>
          rw [if_neg (Nat.succ_ne_zero i), Nat.succ_sub_one, ih, List.getElem?_cons_succ,
            List.length_cons]
          cases (τ.pushes q t)[i]? with
          | some s => exact pass_pass _ _
          | none =>
            simp only [powerOn, Nat.add_sub_add_right, Nat.succ_ne_zero, if_false]
            split_ifs with first
            · rw [first]
            · exact pass_pass _ _
      · rw [if_neg bit, show τ.pushes q (t + 1) = τ.pushes q t from if_neg fun h => bit h.2]
        exact ih i
    · rw [if_neg fires, show τ.pushes q (t + 1) = τ.pushes q t from if_neg fun h => fires h.1]
      exact ih i

variable (τ) in
/-- The weight in row `i` and column `j` for the row entering at `t`: the rows of D that entered with
the other `propagate` bit, the latest first. -/
def weight (t i j : ℕ) : ℤ :=
  match (τ.pushes (!(τ.state t).inProp) t)[i]? with
  | some s => (τ.rowD s j).toInt
  | none => asType P.cW P.elemW
      (τ.powerOn (!(τ.state t).inProp) (τ.pushes (!(τ.state t).inProp) t).length i j)

theorem weight_modEq (waits : τ.Waits)
    (ws : ∀ t, τ.fire t = true → P.mode (τ.state t).req.control.dataflow = .ws)
    (wide : P.outW ≤ P.macW) (t i : ℕ) {j : ℕ} (hj : j < P.blockSize) (ctl : PEControl)
    (bit : ctl.propagate = (τ.state t).inProp) :
    ((τ.wave t).at P.toParams i j).weight P.toParams ctl ≡ τ.weight t i j [ZMOD 2 ^ P.outW] := by
  have register : ∀ s : PE, s.computed ctl = s.reg (!(τ.state t).inProp) := by
    intro s
    rw [PE.computed, PE.reg, bit]
    cases (τ.state t).inProp <;> rfl
  rw [PE.weight, register, wave_reg ws, weight]
  cases row : (τ.pushes (!(τ.state t).inProp) t)[i]? with
  | none => exact Int.ModEq.rfl
  | some s =>
    simp only [← (rows_eq waits s hj).2.2]
    exact asType_pass_modEq wide _

theorem sum_tiles (m n : ℕ) (f : ℕ → ℤ) :
    ∑ R ∈ range m, ∑ r ∈ range n, f (R * n + r) = ∑ i ∈ range (m * n), f i := by
  induction m with
  | zero => simp
  | succ m ih => rw [sum_range_succ, ih, Nat.add_mul, Nat.one_mul, sum_range_add]

theorem respData_ws (waits : τ.Waits)
    (ws : ∀ t, τ.fire t = true → P.mode (τ.state t).req.control.dataflow = .ws)
    (wide : P.outW ≤ P.macW) {t : ℕ} (fires : τ.fire t = true)
    (kept : ∀ u, t ≤ u → (τ.state u).req.control.dataflow = .ws) {j : ℕ} (hj : j < P.blockSize) :
    (τ.state (t + P.depth)).respData j = sint P.outW
      ((τ.rowB t j).toInt + ∑ i ∈ range P.blockSize, (τ.rowA t i).toInt * τ.weight t i j) := by
  have hc := Nat.mod_lt j P.tileColumns_pos
  have place := Nat.div_add_mod' j P.tileColumns
  have out := τ.respData_wave fires kept hj
  simp only [flowAt] at out
  have mode : P.mode (((τ.state t).rowDown (j / P.tileColumns)).control
      (j % P.tileColumns)).dataflow = .ws := ws t fires
  have normal : sint P.outW (((τ.state t).rowDown (j / P.tileColumns)).b (j % P.tileColumns)) =
      ((τ.state t).rowDown (j / P.tileColumns)).b (j % P.tileColumns) := sint_sint _ _
  rw [flow_b_ws mode wide normal] at out
  rw [out, sint_eq_iff, DelayParams.blockSize, ← sum_tiles]
  refine Int.ModEq.add ?_ (Int.ModEq.sum fun R hR => Int.ModEq.sum fun r hr => ?_)
  · show sint P.outW ((τ.state t).bRow _).toInt ≡ _ [ZMOD 2 ^ P.outW]
    rw [place, (rows_eq waits t hj).2.1]
    exact sint_modEq _ _
  · have hr := mem_range.mp hr
    have row : R * P.tileRows + r < P.blockSize := by
      have : (R + 1) * P.tileRows ≤ P.meshRows * P.tileRows :=
        Nat.mul_le_mul_right _ (mem_range.mp hR)
      rw [Nat.add_mul, Nat.one_mul] at this
      unfold DelayParams.blockSize
      omega
    have element := Elements.at_tile (P := P.toParams) (τ.wave t) (R := R) (C := j / P.tileColumns)
      hr hc
    rw [place] at element
    rw [← element, ← (rows_eq waits t row).1]
    exact Int.ModEq.mul_left _ (weight_modEq waits ws wide t _ hj _ rfl)

end Run

end Weights

/-! ### Delivered rows -/

structure Req.Ws {Tag : Type} (P : DelayParams) (r : Req Tag) : Prop extends r.Plain P where
  ws : r.control.dataflow = .ws

namespace Run

/-- A row comes out exactly `depth` cycles after one entered.  It is the row of A times the weights
plus the row of B, modulo the output type; with it come the number of rows of its request, whether
it is the last of them, and the tag of the request before. -/
theorem ws_row_delivered {P : DelayParams} {Tag : Type} {garbage : Tag} (supports : P.df ≠ .os)
    (wide : P.outW ≤ P.macW) (τ : Run P garbage (Req.Ws P)) (waits : τ.Waits) (T : ℕ) :
    (((τ.state T).resp garbage).valid = true ↔ ∃ t, T = t + P.depth ∧ τ.fire t = true) ∧
    ∀ t, T = t + P.depth → τ.fire t = true →
      ∃ r, (τ.accepted t)[τ.finished t]? = some r ∧
        (∀ j < P.blockSize, ((τ.state T).resp garbage).data j = sint P.outW
          ((τ.rowB t j).toInt + ∑ i ∈ range P.blockSize, (τ.rowA t i).toInt * τ.weight t i j)) ∧
        ((τ.state T).resp garbage).totalRows = r.totalRows ∧
        (((τ.state T).resp garbage).last = true ↔
          τ.rowsOf (τ.finished t) t + 1 = r.totalRows) ∧
        (τ.finished t = 0 → ((τ.state T).resp garbage).tag = garbage) ∧
        ∀ k r', τ.finished t = k + 1 → (τ.accepted t)[k]? = some r' →
          ((τ.state T).resp garbage).tag = r'.tag := by
  have plain : ∀ r : Req Tag, r.Ws P → r.Plain P := fun r h => h.toPlain
  have ws : ∀ t, τ.fire t = true → P.mode (τ.state t).req.control.dataflow = .ws := by
    intro t fires
    rw [dataflow_of_valid (fun _ h => h.ws) t (inputNextRow_valid fires), Params.mode]
    cases df : P.df with
    | os => exact absurd df supports
    | ws => rfl
    | both => rfl
  refine ⟨⟨fun valid => ?_, ?_⟩, ?_⟩
  · obtain ⟨t, time, fires, _⟩ := mark_of_valid plain valid
    exact ⟨t, time, fires⟩
  · rintro ⟨t, rfl, fires⟩
    show (τ.state (t + P.depth)).mark.valid = true
    rw [mark_wave]
    exact fires
  · rintro t rfl fires
    have valid : (τ.state (t + P.depth)).mark.valid = true := by rw [mark_wave]; exact fires
    have pend := pending (τ := τ) plain t
    have requested := inputNextRow_valid fires
    have queues := queues (τ := τ) plain (fun _ h => h.ws) (t + P.depth)
    obtain ⟨nonempty, first, hfirst, head⟩ := queues.tag_head plain valid
    have matching := queues.tagMatches_iff plain valid
    rw [Nat.add_sub_cancel] at hfirst matching
    refine ⟨(τ.state t).req, pend.req requested, fun j hj => ?_, ?_, ?_, fun zero => ?_,
      fun k r' number hr' => ?_⟩
    · exact respData_ws waits ws wide fires (dataflow_kept (fun _ h => h.ws) requested) hj
    · obtain ⟨s, rest, time, _, _, queue⟩ := queues.totalRows_head plain valid
      obtain rfl : t = s := by omega
      simp [State.resp, queue]
    · show (τ.state (t + P.depth)).mark.last = true ↔ _
      rw [mark_wave, pend.lastFire_iff, rowsOf_finished plain]
      exact and_iff_right fires
    · have differs : (τ.state (t + P.depth)).tagMatches = false := by
        rw [← Bool.not_eq_true, matching]
        omega
      simp [State.resp, differs]
    · have same : first = r' := by
        obtain ⟨rest, whole⟩ := accepted_mono (τ := τ) (Nat.le_add_right t P.depth)
        have later : (τ.accepted (t + P.depth))[k]? = some r' := by
          rw [← whole, List.getElem?_append_left (List.getElem?_eq_some_iff.mp hr').1, hr']
        rw [number, Nat.add_sub_cancel, later] at hfirst
        exact (Option.some.inj hfirst).symm
      have matched : (τ.state (t + P.depth)).tagMatches = true := matching.mpr (by omega)
      simp [State.resp, nonempty, matched, head, same]

/-! ### Small runs -/

def smallArray (df : Support) (outW accW : ℕ) : DelayParams where
  elemW := 8
  outW := outW
  accW := accW
  df := df
  treeReduction := false
  tileLatency := 0
  outputDelay := 0
  tileRows := 2
  tileColumns := 2
  meshRows := 1
  meshColumns := 1
  treeReduction_ws h := by cases h
  matmuls := 5
  matmuls_ge := le_rfl
  square := rfl
  two_le := le_rfl

def oneRow (tag : ℕ) : Req ℕ := ⟨⟨.ws, true, 0⟩, false, false, 1, tag, 0⟩

def operands {P : DelayParams} (a b d : ℕ) (req : Option (Req ℕ)) : Input P ℕ :=
  ⟨some fun _ => BitVec.ofNat _ a, some fun _ => BitVec.ofNat _ b, some fun _ => BitVec.ofNat _ d, req⟩

def oneRowRun {df : Support} {outW accW : ℕ} (inputs : List (Input (smallArray df outW accW) ℕ))
    (legal : ∀ inp ∈ inputs, ∀ r ∈ inp.req, ∃ tag, r = oneRow tag) :
    Run (smallArray df outW accW) 0 (Req.Ws (smallArray df outW accW)) :=
  Run.ofInputs inputs fun inp hinp r hr => by
    obtain ⟨tag, rfl⟩ := legal inp hinp r hr
    exact ⟨⟨rfl, Nat.le_refl 1, Nat.le_succ 1⟩, rfl⟩

def twoProducts (df : Support) (outW accW : ℕ) :
    Run (smallArray df outW accW) 0 (Req.Ws (smallArray df outW accW)) :=
  oneRowRun [operands 3 2 100 (oneRow 7), operands 1 100 5 (oneRow 8)] (by
    simp [operands])

theorem twoProducts_waits (df : Support) (outW accW : ℕ) : (twoProducts df outW accW).Waits := by
  refine waits_of_idle (fun t r hr => ((twoProducts df outW accW).legal t r hr).flush) 2 ?_ ?_
  · rintro (_ | _ | t) before
    · exact .inr ⟨rfl, rfl, rfl⟩
    · exact .inl rfl
    · omega
  · rintro (_ | _ | t) after
    · omega
    · omega
    · rfl

theorem second_product_delivered :
    let τ := twoProducts .both 20 32
    τ.fire 2 = true ∧ ((τ.state 3).resp 0).valid = true ∧ ((τ.state 3).resp 0).data 0 = 200 ∧
      ((τ.state 3).resp 0).tag = 7 := by
  have fires : (twoProducts .both 20 32).fire 2 = true := by decide
  have delivered := ws_row_delivered (by decide) (by decide) (twoProducts .both 20 32)
    (twoProducts_waits .both 20 32) 3
  obtain ⟨r, _, data, _, _, _, tag⟩ := delivered.2 2 rfl fires
  refine ⟨fires, delivered.1.mpr ⟨2, rfl, fires⟩, (data 0 (by decide)).trans (by decide), ?_⟩
  exact tag 0 (oneRow 7) (by decide) rfl

def replacedRow : Run (smallArray .both 20 32) 0 (Req.Ws (smallArray .both 20 32)) :=
  oneRowRun [operands 3 2 5 none, operands 3 9 5 (oneRow 7)] (by simp [operands])

/-- The row of the second product comes with the tag of the first.  A row of B is lost if another
one is handed over before the request.  With accumulators narrower than the output type the sum
wraps on its way down. -/
theorem delivered_with_previous_tag :
    ((twoProducts .both 20 32).Waits ∧ (twoProducts .both 20 32).fire 2 = true ∧
      ((twoProducts .both 20 32).accepted 2)[(twoProducts .both 20 32).finished 2]? =
        some (oneRow 8) ∧
      (((twoProducts .both 20 32).state 3).resp 0).valid = true ∧
      (((twoProducts .both 20 32).state 3).resp 0).tag ≠ 8) ∧
    (replacedRow.fire 2 = true ∧ ((replacedRow.state 3).resp 0).data 0 ≠ sint 20
      ((replacedRow.rowB 2 0).toInt +
        ∑ i ∈ range 2, (replacedRow.rowA 2 i).toInt * replacedRow.weight 2 i 0)) ∧
    (twoProducts .both 16 8).Waits ∧ (twoProducts .both 16 8).fire 2 = true ∧
      (((twoProducts .both 16 8).state 3).resp 0).data 0 ≠ sint 16
        (((twoProducts .both 16 8).rowB 2 0).toInt + ∑ i ∈ range 2,
          ((twoProducts .both 16 8).rowA 2 i).toInt * (twoProducts .both 16 8).weight 2 i 0) :=
  ⟨⟨twoProducts_waits .both 20 32, by decide, rfl, by decide, by decide⟩,
    by decide, twoProducts_waits .both 16 8, by decide⟩

end Run

end Gemmini.Mesh
