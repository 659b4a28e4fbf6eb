import Gemmini.Mesh.WeightStationary

/-!
# Output-stationary products

Each processing element adds up one element of the result in one of its two registers, while the
other register passes the previous result down, rounded and saturated, and takes in the next D.
-/

namespace Gemmini.Mesh

open Finset

/-! ### Saturation -/

/-- The nearest value of a `w`-bit word. -/
def saturate (w : ℕ) (x : ℤ) : ℤ := max (-2 ^ (w - 1)) (min (2 ^ (w - 1) - 1) x)

/-- A value of a `w`-bit word. -/
def Representable (w : ℕ) (x : ℤ) : Prop := -2 ^ (w - 1) ≤ x ∧ x ≤ 2 ^ (w - 1) - 1

instance (w : ℕ) (x : ℤ) : Decidable (Representable w x) := inferInstanceAs (Decidable (_ ∧ _))

theorem two_pow_pred {w : ℕ} (pos : 1 ≤ w) : (2 : ℕ) ^ w = 2 * 2 ^ (w - 1) := by
  obtain ⟨v, rfl⟩ : ∃ v, w = v + 1 := ⟨w - 1, by omega⟩
  rw [Nat.add_sub_cancel, Nat.pow_succ, Nat.mul_comm]

theorem Representable.sint_eq {w : ℕ} {x : ℤ} (pos : 1 ≤ w) (h : Representable w x) :
    sint w x = x := by
  have half := two_pow_pred pos
  obtain ⟨low, high⟩ := h
  have cast : ((2 ^ (w - 1) : ℕ) : ℤ) = 2 ^ (w - 1) := by push_cast; rfl
  unfold sint
  apply Int.bmod_eq_of_le
  · omega
  · omega

theorem representable_sint {w : ℕ} (pos : 1 ≤ w) (x : ℤ) : Representable w (sint w x) := by
  have half := two_pow_pred pos
  have low := Int.le_bmod (x := x) (m := 2 ^ w) (by positivity)
  have high := Int.bmod_lt (x := x) (m := 2 ^ w) (by positivity)
  have cast : ((2 ^ (w - 1) : ℕ) : ℤ) = 2 ^ (w - 1) := by push_cast; rfl
  unfold sint
  constructor
  · omega
  · omega

theorem representable_saturate (w : ℕ) (x : ℤ) : Representable w (saturate w x) := by
  have pos : (0 : ℤ) < 2 ^ (w - 1) := by positivity
  unfold saturate Representable
  constructor
  · exact le_max_left _ _
  · exact max_le (by omega) (min_le_left _ _)

theorem Representable.saturate_eq {w : ℕ} {x : ℤ} (h : Representable w x) : saturate w x = x := by
  rw [saturate, min_eq_right h.2, max_eq_right h.1]

theorem clipped_eq {w : ℕ} (pos : 1 ≤ w) (le : w ≤ 32) (x : ℤ) : clipped w x = saturate w x := by
  have bounds : sint 32 (sint 32 (2 ^ ((w - 1) % 32)) - 1) = 2 ^ (w - 1) - 1 ∧
      sint 32 (-sint 32 (2 ^ ((w - 1) % 32))) = -2 ^ (w - 1) := by
    interval_cases w <;> decide
  have inside := (representable_saturate w x).sint_eq pos
  have half : (0 : ℤ) < 2 ^ (w - 1) := by positivity
  rw [clipped, bounds.1, bounds.2, ← inside]
  congr 1
  unfold saturate
  split_ifs with above below
  · rw [min_eq_left (by omega), max_eq_right (by omega)]
  · rw [min_eq_right (by omega), max_eq_left (by omega)]
  · rw [min_eq_right (by omega), max_eq_right (by omega)]

theorem roundingShift_zero (x : ℤ) : roundingShift x 0 = x := by
  simp [roundingShift]

theorem roundingShift_between (x : ℤ) (u : ℕ) :
    min x 0 ≤ roundingShift x u ∧ roundingShift x u ≤ max x 0 := by
  rcases Nat.eq_zero_or_pos u with rfl | pos
  · rw [roundingShift_zero]
    exact ⟨min_le_left _ _, le_max_left _ _⟩
  have two : (2 : ℤ) ≤ 2 ^ u := by
    calc (2 : ℤ) = 2 ^ 1 := by norm_num
      _ ≤ 2 ^ u := pow_le_pow_right₀ (by norm_num) pos
  have split := Int.mul_ediv_add_emod x (2 ^ u)
  have low := Int.emod_nonneg x (show (2 : ℤ) ^ u ≠ 0 by positivity)
  have high := Int.emod_lt_of_pos x (show (0 : ℤ) < 2 ^ u by positivity)
  rcases lt_trichotomy x 0 with neg | rfl | pos
  · have below : x / 2 ^ u ≤ -1 := by
      have := Int.ediv_neg_of_neg_of_pos neg (show (0 : ℤ) < 2 ^ u by positivity)
      omega
    have above : x ≤ x / 2 ^ u := by nlinarith
    rw [min_eq_left neg.le, max_eq_right neg.le]
    unfold roundingShift
    dsimp only
    split_ifs <;> omega
  · simp [roundingShift]
  · have quotient : 0 ≤ x / 2 ^ u := Int.ediv_nonneg pos.le (by positivity)
    have below : 2 * (x / 2 ^ u) ≤ x := by nlinarith
    rw [min_eq_right pos.le, max_eq_left pos.le]
    unfold roundingShift
    dsimp only
    split_ifs <;> omega

theorem Representable.roundingShift {w : ℕ} {x : ℤ} (h : Representable w x) (u : ℕ) :
    Representable w (roundingShift x u) := by
  have between := roundingShift_between x u
  unfold Representable at *
  omega

/-! ### One column of the array -/

namespace Params

variable (P : Params)

/-- The width of the sums: that of the register, but no more than the output type, which each sum passes
through. -/
def sumW : ℕ := min P.outW P.cW

variable {P}

theorem sint_outW_cW (x : ℤ) : sint P.cW (sint P.outW x) = sint P.sumW x := by
  unfold sumW
  rcases Nat.le_total P.outW P.cW with narrow | wide
  · rw [sint_of_narrow narrow, min_eq_left narrow]
  · rw [min_eq_right wide, sint_eq_iff]
    exact sint_modEq_of_le wide _

theorem asType_outW_modEq (x : BitVec P.elemW) :
    asType P.outW P.elemW (sint P.outW x.toInt) ≡ x.toInt [ZMOD 2 ^ P.outW] := by
  rcases Nat.le_total P.elemW P.outW with fits | long
  · have same : sint P.outW x.toInt = x.toInt := by
      rw [← sint_toInt P.elemW x, sint_of_narrow fits]
    have back : asType P.outW P.elemW x.toInt = x.toInt := by
      conv_rhs => rw [← sint_toInt P.elemW x]
      rw [asType, sint_eq_iff]
      exact Int.emod_emod_of_dvd _ (pow_dvd_pow 2 fits)
    rw [same, back]
  · exact (asType_modEq le_rfl long _).trans (sint_modEq _ _)

theorem mac_os (support : P.df ≠ .ws) (c a : ℤ) (b : BitVec P.elemW) :
    sint P.cW (mac P c a (asType P.outW P.elemW (sint P.outW b.toInt))) =
      sint P.sumW (c + a * b.toInt) := by
  have register : P.macW = P.cW := by simp [macW, cW, support]
  rw [mac, sint_outW_cW, sint_eq_iff, register]
  have toOut : P.sumW ≤ P.outW := min_le_left _ _
  have toRegister : P.sumW ≤ P.cW := min_le_right _ _
  calc sint (max (P.elemW + P.elemW) P.cW) (a * asType P.outW P.elemW (sint P.outW b.toInt) + c)
      ≡ a * asType P.outW P.elemW (sint P.outW b.toInt) + c [ZMOD 2 ^ P.sumW] :=
        sint_modEq_of_le (toRegister.trans (le_max_right _ _)) _
    _ ≡ a * b.toInt + c [ZMOD 2 ^ P.sumW] :=
        ((modEq_of_width_le toOut (asType_outW_modEq b)).mul_left a).add_right c
    _ = c + a * b.toInt := by ring

end Params

section Column

variable {P : Params} {G : Elements} {top : Down} {a : ℕ → ℕ → ℤ} {C c : ℕ}

theorem no_tree (support : P.df ≠ .ws) : P.treeReduction = false := by
  by_contra tree
  exact support (P.treeReduction_ws (by simpa using tree))

theorem inB_os {pe : ℕ → ℕ → PE} {x : Down} {a : ℕ → ℤ} (support : P.df ≠ .ws)
    (os : P.mode (x.control c).dataflow = .os) (r : ℕ) : Tile.inB P pe x a c r = x.b c := by
  induction r with
  | zero => simp [Tile.inB, no_tree support]
  | succ r ih =>
    rw [Tile.inB, no_tree support, if_neg (by decide), PE.outB, os]
    exact ih

theorem flow_b_os (support : P.df ≠ .ws) (os : P.mode (top.control c).dataflow = .os) (R : ℕ) :
    (flow P G top a C R).b c = top.b c := by
  induction R with
  | zero => rfl
  | succ R ih =>
    show Tile.outB P (G R C) (flow P G top a C R) (a R) c = _
    rw [Tile.outB, no_tree support, if_neg (by decide),
      inB_os support (by rw [flow_control]; exact os), ih]

theorem next_reg_os {ctl : PEControl} (os : P.mode ctl.dataflow = .os) (s : PE) (a b d : ℤ)
    (q : Bool) :
    (s.next P ctl true a b d).reg q = if ctl.propagate = q then sint P.cW d
      else sint P.cW (mac P (s.reg q) a (asType P.outW P.elemW b)) := by
  simp only [PE.next, os, if_true, PE.reg, PE.computed]
  cases ctl.propagate <;> cases q <;> simp

end Column

section Row

variable {P : DelayParams} {Tag : Type} {garbage : Tag} {accepts : Req Tag → Prop}

/-- What the element above row `i` passes down in a row that enters in state `s`. -/
def passedDown (G : Elements) (s : State P Tag) (i j : ℕ) : ℤ :=
  (G.at P.toParams i j).outC P.toParams ⟨s.req.control.dataflow, s.inProp, s.resultShift⟩

variable {G : Elements} {s : State P Tag}

theorem absorb_reg_os (support : P.df ≠ .ws) (os : P.mode s.req.control.dataflow = .os) (i j : ℕ) (q : Bool) :
    ((absorb P.toParams G s.rowDown s.rowA).at P.toParams i j).reg q =
      if s.inProp = q then
        if i = 0 then sint P.sumW (s.dRow j).toInt else sint P.cW (passedDown G s (i - 1) j)
      else sint P.sumW ((G.at P.toParams i j).reg q + (s.aRow i).toInt * (s.bRow j).toInt) := by
  have hj := Nat.div_add_mod' j P.tileColumns
  have mode := os
  have down : ∀ R, (flow P.toParams G (s.rowDown (j / P.tileColumns)) s.rowA (j / P.tileColumns) R).b
      (j % P.tileColumns) = sint P.outW (s.bRow j).toInt := by
    intro R
    rw [flow_b_os support mode]
    show sint P.outW (s.bRow _).toInt = _
    rw [hj]
  show (PE.next P.toParams _ _ true _ _ _).reg q = _
  rw [next_reg_os (by rw [flow_control]; exact os), inB_os support (by rw [flow_control]; exact os),
    flow_control, inD_at, down]
  show (if s.inProp = q then _ else sint P.cW (mac P.toParams _ (s.aRow _).toInt _)) = _
  rw [Nat.div_add_mod']
  split_ifs with bit top
  · show sint P.cW (sint P.outW (s.dRow _).toInt) = _
    rw [hj, Params.sint_outW_cW]
  · rfl
  · exact Params.mac_os support _ _ _

theorem absorb_lastS (i j : ℕ) :
    ((absorb P.toParams G s.rowDown s.rowA).at P.toParams i j).lastS = s.inProp := by
  show (PE.next P.toParams _ _ true _ _ _).lastS = _
  rw [flow_control]
  rfl

theorem passedDown_os (pos : 1 ≤ P.outW) (le : P.outW ≤ 32) (os : P.mode s.req.control.dataflow = .os)
    (i j : ℕ) :
    passedDown G s i j = saturate P.outW (roundingShift ((G.at P.toParams i j).reg s.inProp)
      (if (G.at P.toParams i j).lastS = s.inProp then 0 else s.resultShift)) := by
  rw [passedDown, PE.outC, show P.mode (PEControl.dataflow ⟨s.req.control.dataflow, s.inProp,
    s.resultShift⟩) = .os from os, clipped_eq pos le, PE.shiftOffset, ite_not]
  rfl

end Row

/-! ### Rows with the same `propagate` bit -/

namespace Run

variable {P : DelayParams} {Tag : Type} {garbage : Tag} {accepts : Req Tag → Prop}
variable {τ : Run P garbage accepts}

variable (τ) in
/-- The cycles before `t` in which a row entered and `p` held, the latest first. -/
def times (p : ℕ → Bool) : ℕ → List ℕ
  | 0 => []
  | t + 1 => if τ.fire t && p t then t :: times p t else times p t

variable (τ) in
/-- The cycles from `t₀` on, before `t`, in which a row entered. -/
def since (t₀ t : ℕ) : List ℕ := τ.times (fun u => t₀ ≤ u) t

theorem times_congr {p p' : ℕ → Bool} {t : ℕ} (h : ∀ u < t, τ.fire u = true → p u = p' u) :
    τ.times p t = τ.times p' t := by
  induction t with
  | zero => rfl
  | succ t ih =>
    have earlier := ih fun u hu => h u (by omega)
    rw [times, times, earlier]
    cases fires : τ.fire t with
    | false => rfl
    | true => rw [h t (Nat.lt_succ_self t) fires]

theorem times_none {p : ℕ → Bool} {t : ℕ} (h : ∀ u < t, p u = false) : τ.times p t = [] := by
  induction t with
  | zero => rfl
  | succ t ih =>
    rw [times, h t (Nat.lt_succ_self t), Bool.and_false, if_neg (by decide)]
    exact ih fun u hu => h u (by omega)

theorem since_self (t : ℕ) : τ.since t t = [] := times_none fun u hu => by simpa using hu

theorem since_succ {t₀ t : ℕ} (le : t₀ ≤ t) :
    τ.since t₀ (t + 1) = if τ.fire t then t :: τ.since t₀ t else τ.since t₀ t := by
  rw [since, times, decide_eq_true le, Bool.and_true]
  rfl

theorem since_ne_nil {t₀ t : ℕ} (fires : τ.fire t₀ = true) (later : t₀ + 1 ≤ t) :
    τ.since t₀ t ≠ [] := by
  induction t, later using Nat.le_induction with
  | base => simp [since_succ, fires]
  | succ t later ih =>
    rw [since_succ (by omega)]
    split_ifs
    · exact List.cons_ne_nil _ _
    · exact ih

section Registers

variable (support : P.df ≠ .ws) (pos : 1 ≤ P.outW) (le : P.outW ≤ 32)
variable (os : ∀ t, τ.fire t = true → P.mode (τ.state t).req.control.dataflow = .os)

/-- The rows from `t₀` on, before `t`, have `propagate` bit `q`. -/
def SameBit (τ : Run P garbage accepts) (q : Bool) (t₀ t : ℕ) : Prop :=
  ∀ s, t₀ ≤ s → s < t → τ.fire s = true → (τ.state s).inProp = q

theorem SameBit.of_succ {q : Bool} {t₀ t : ℕ} (h : τ.SameBit q t₀ (t + 1)) : τ.SameBit q t₀ t :=
  fun s low high => h s low (by omega)

theorem wave_lastS {q : Bool} {t₀ t : ℕ} (from_le : t₀ ≤ t) (same : τ.SameBit q t₀ t)
    (some : τ.since t₀ t ≠ []) (i j : ℕ) : ((τ.wave t).at P.toParams i j).lastS = q := by
  induction t, from_le using Nat.le_induction with
  | base => exact absurd (since_self t₀) some
  | succ t le ih =>
    rw [wave_succ]
    by_cases fires : τ.fire t = true
    · rw [if_pos fires, absorb_lastS]
      exact same t le (Nat.lt_succ_self t) fires
    · rw [since_succ le, if_neg fires] at some
      rw [if_neg fires]
      exact ih same.of_succ some

include support os in
theorem wave_accumulates {q : Bool} {t₀ t : ℕ} (from_le : t₀ ≤ t) (same : τ.SameBit (!q) t₀ t)
    (i j : ℕ) (start : sint P.sumW (((τ.wave t₀).at P.toParams i j).reg q) =
      ((τ.wave t₀).at P.toParams i j).reg q) :
    ((τ.wave t).at P.toParams i j).reg q = sint P.sumW (((τ.wave t₀).at P.toParams i j).reg q +
      ∑ s ∈ Ico t₀ t, if τ.fire s then ((τ.state s).aRow i).toInt * ((τ.state s).bRow j).toInt
        else 0) := by
  induction t, from_le using Nat.le_induction with
  | base => rw [Ico_self, sum_empty, add_zero, start]
  | succ t le ih =>
    have before := ih same.of_succ
    rw [wave_succ, sum_Ico_succ_top le]
    by_cases fires : τ.fire t = true
    · have other : ¬(τ.state t).inProp = q := by
        rw [same t le (Nat.lt_succ_self t) fires]
        cases q <;> decide
      rw [if_pos fires, if_pos fires, absorb_reg_os support (os t fires), if_neg other, before,
        ← add_assoc, sint_eq_iff]
      exact Int.ModEq.add_right _ (sint_modEq _ _)
    · rw [if_neg fires, if_neg fires, add_zero]
      exact before

theorem one_le_sumW {P : Params} (pos : 1 ≤ P.outW) (acc : 1 ≤ P.cW) : 1 ≤ P.sumW :=
  le_min pos acc

include pos in
theorem pass_of_sumW (x : ℤ) :
    sint P.cW (saturate P.outW (sint P.sumW x)) = sint P.sumW x := by
  have fits : Representable P.outW (sint P.sumW x) := by
    rw [← sint_of_narrow (show P.sumW ≤ P.outW from min_le_left _ _)]
    exact representable_sint pos _
  rw [fits.saturate_eq, sint_of_narrow (show P.sumW ≤ P.cW from min_le_right _ _)]

include support pos le os in
theorem wave_loaded {q : Bool} {t₀ t : ℕ} (from_le : t₀ ≤ t) (same : τ.SameBit q t₀ t)
    {i s : ℕ} (row : (τ.since t₀ t)[i]? = some s) (j : ℕ) :
    ((τ.wave t).at P.toParams i j).reg q = sint P.sumW ((τ.state s).dRow j).toInt := by
  induction t, from_le using Nat.le_induction generalizing i with
  | base => simp [since_self] at row
  | succ t from_le ih =>
    rw [since_succ from_le] at row
    rw [wave_succ]
    by_cases fires : τ.fire t = true
    · have bit := same t from_le (Nat.lt_succ_self t) fires
      rw [if_pos fires] at row
      rw [if_pos fires, absorb_reg_os support (os t fires), if_pos bit]
      cases i with
      | zero =>
        obtain rfl : t = s := by simpa using row
        rfl
      | succ i =>
        have row : (τ.since t₀ t)[i]? = some s := by simpa using row
        have some : τ.since t₀ t ≠ [] := by
          rintro none
          rw [none] at row
          cases row
        rw [if_neg (Nat.succ_ne_zero i), Nat.succ_sub_one, passedDown_os pos le (os t fires),
          wave_lastS from_le same.of_succ some, if_pos bit.symm, roundingShift_zero, bit,
          ih same.of_succ row, pass_of_sumW pos]
    · rw [if_neg fires] at row ⊢
      exact ih same.of_succ row

variable (acc : 1 ≤ P.cW)

def rounded (P : Params) (x : ℤ) (shift : ℕ) : ℤ := saturate P.outW (roundingShift x shift)

include pos acc in
theorem pass_rounded {x : ℤ} (h : sint P.sumW x = x) (shift : ℕ) :
    sint P.cW (rounded P.toParams x shift) = rounded P.toParams x shift := by
  have fits : Representable P.sumW (roundingShift x shift) := by
    rw [← h]
    exact (representable_sint (one_le_sumW pos acc) _).roundingShift shift
  have kept := fits.sint_eq (one_le_sumW pos acc)
  rw [rounded, ← kept, pass_of_sumW pos]
  have out : Representable P.outW (sint P.sumW (roundingShift x shift)) := by
    rw [← sint_of_narrow (show P.sumW ≤ P.outW from min_le_left _ _)]
    exact representable_sint pos _
  rw [out.saturate_eq]

include support pos le os acc in
theorem wave_drains {t₀ t i : ℕ} {x : ℤ} (fires : τ.fire t₀ = true)
    (flip : ∀ i j, ((τ.wave t₀).at P.toParams i j).lastS ≠ (τ.state t₀).inProp)
    (from_le : t₀ + 1 ≤ t) (same : τ.SameBit (τ.state t₀).inProp t₀ t) (j : ℕ)
    (start : ((τ.wave t₀).at P.toParams i j).reg (τ.state t₀).inProp = x)
    (normal : sint P.sumW x = x) :
    ((τ.wave t).at P.toParams (i + (τ.since t₀ t).length) j).reg (τ.state t₀).inProp =
      rounded P.toParams x (τ.state t₀).resultShift := by
  induction t, from_le using Nat.le_induction with
  | base =>
    rw [wave_succ, if_pos fires, since_succ le_rfl, since_self, if_pos fires,
      absorb_reg_os support (os t₀ fires), if_pos rfl, if_neg (by simp), passedDown_os pos le
      (os t₀ fires), if_neg (flip _ _)]
    show sint P.cW (rounded P.toParams (((τ.wave t₀).at P.toParams i j).reg _) _) = _
    rw [start, pass_rounded pos acc normal]
  | succ t later ih =>
    have since : t₀ ≤ t := by omega
    have before := ih same.of_succ
    have some : τ.since t₀ t ≠ [] := since_ne_nil fires (by omega)
    rw [wave_succ, since_succ since]
    by_cases now : τ.fire t = true
    · have bit := same t since (Nat.lt_succ_self t) now
      rw [if_pos now, if_pos now, absorb_reg_os support (os t now), if_pos bit, List.length_cons,
        if_neg (by omega), ← Nat.add_assoc, Nat.add_sub_cancel, passedDown_os pos le (os t now),
        wave_lastS since same.of_succ some, if_pos bit.symm, roundingShift_zero, bit, before]
      rw [show saturate P.outW (rounded P.toParams x (τ.state t₀).resultShift) =
        rounded P.toParams x (τ.state t₀).resultShift from (representable_saturate _ _).saturate_eq,
        pass_rounded pos acc normal]
    · rw [if_neg now, if_neg now]
      exact before

theorem respData_os {t : ℕ} (fires : τ.fire t = true)
    (kept : ∀ u, t ≤ u → (τ.state u).req.control.dataflow = .os) {j : ℕ} (hj : j < P.blockSize) :
    (τ.state (t + P.depth)).respData j =
      passedDown (τ.wave t) (τ.state t) (P.blockSize - 1) j := by
  have bottom := inD_eq (P := P.toParams) (τ.wave t) ((τ.state t).rowDown (j / P.tileColumns))
    (τ.state t).rowA (R := P.meshRows) (C := j / P.tileColumns) P.tileRows_pos
    (Nat.mod_lt j P.tileColumns_pos)
  have two := P.two_le
  rw [Nat.div_add_mod', if_neg (by omega), Nat.add_zero] at bottom
  exact (τ.respData_wave fires kept hj).trans bottom

include support pos le os acc in
/-- The result added up from `t₁` to `t₂`, on the D loaded from `t₀` to `t₁`, comes out with the rows
from `t₂` on, last row first. -/
theorem respData_flush {q : Bool} {t₀ t₁ t₂ t i s : ℕ} (load : t₀ ≤ t₁) (loadBit : τ.SameBit q t₀ t₁)
    (row : (τ.since t₀ t₁)[i]? = some s) (add : t₁ ≤ t₂) (addBit : τ.SameBit (!q) t₁ t₂)
    (some : τ.since t₁ t₂ ≠ []) (first : τ.fire t₂ = true) (drain : t₂ ≤ t)
    (drainBit : τ.SameBit q t₂ (t + 1)) (fires : τ.fire t = true)
    (kept : ∀ u, t ≤ u → (τ.state u).req.control.dataflow = .os)
    (place : i + (τ.since t₂ t).length = P.blockSize - 1) {j : ℕ} (hj : j < P.blockSize) :
    (τ.state (t + P.depth)).respData j = rounded P.toParams
      (sint P.sumW (((τ.state s).dRow j).toInt + ∑ u ∈ Ico t₁ t₂, if τ.fire u then
        ((τ.state u).aRow i).toInt * ((τ.state u).bRow j).toInt else 0))
      (τ.state t₂).resultShift := by
  have loaded := wave_loaded support pos le os load loadBit row j
  have added := wave_accumulates support os add addBit i j (by rw [loaded, sint_sint])
  have bit : (τ.state t₂).inProp = q := drainBit t₂ le_rfl (by omega) first
  have flip : ∀ i j, ((τ.wave t₂).at P.toParams i j).lastS ≠ (τ.state t₂).inProp := by
    intro i j
    rw [wave_lastS add addBit some, bit]
    cases q <;> decide
  rw [loaded, sint_eq_iff.mpr (Int.ModEq.add_right _ (sint_modEq _ _))] at added
  rw [respData_os fires kept hj, ← place, passedDown_os pos le (os t fires),
    drainBit t drain (Nat.lt_succ_self t) fires]
  rcases Nat.eq_or_lt_of_le drain with rfl | later
  · rw [if_neg (bit ▸ flip _ _), since_self, List.length_nil, Nat.add_zero, added]
    rfl
  · rw [wave_lastS drain drainBit.of_succ (since_ne_nil first later), if_pos rfl,
      roundingShift_zero]
    rw [← bit] at added drainBit ⊢
    rw [wave_drains support pos le os acc first flip later drainBit.of_succ j added (sint_sint _ _)]
    exact (representable_saturate _ _).saturate_eq

end Registers

end Run

end Gemmini.Mesh
