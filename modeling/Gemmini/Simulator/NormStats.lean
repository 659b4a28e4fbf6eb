import Gemmini.Simulator.Effects
import Gemmini.Simulator.Trace

/-!
# The statistics of a normalization

Every `mvout` without pooling hands its rows to `apply_norm`, which keeps statistics under the current
`norm_stat_id`.  A command that finishes a pass leaves a flag behind, and the next one on the same
statistics clears them first.
-/

namespace Gemmini.Simulator

/-! ### One call of `apply_norm` -/

structure ExpConst where
  qb : BitVec 32
  qc : BitVec 32
  qln2 : BitVec 32
  qln2Inv : BitVec 32
  deriving DecidableEq

def ExpConst.exp (k : ExpConst) (q : BitVec 32) : BitVec 32 :=
  State.applyIexp q k.qb k.qc k.qln2 k.qln2Inv

def State.expConst (s : State) : ExpConst := ⟨s.igeluQb, s.igeluQc, s.qln2, s.qln2Inv⟩

/-- A call of `apply_norm`: some elements of a row, with the statistics and the constants in force. -/
structure Call where
  statId : ℕ
  cmd : NormCmd
  elems : List (BitVec 32)
  const : ExpConst
  deriving DecidableEq

/-- The least value of `acc_t`. -/
def least : BitVec 32 := BitVec.ofInt 32 (-2147483648)

/-- The larger one of two values of `acc_t`. -/
def larger (most x : BitVec 32) : BitVec 32 := if x.toInt > most.toInt then x else most

namespace Norm

variable (n : Norm)

def cleared : Norm := if n.reset then { n with sum := 0, count := 0, runningMax := least } else n

def add (f : BitVec 32 → BitVec 32) (xs : List (BitVec 32)) : Norm :=
  { n with sum := n.sum + (xs.map f).sum }

def counting (xs : List (BitVec 32)) : Norm := { n with count := n.count + BitVec.ofNat 32 xs.length }

end Norm

def deviation (mean x : BitVec 32) : BitVec 32 := (x - mean) * (x - mean)

namespace Call

variable (sc : Scaling) (c : Call)

def update (n : Norm) : Norm :=
  let n := { n.cleared with reset := decide (c.cmd = .reset ∨ c.cmd = .mean ∨ c.cmd = .invStddev) }
  match c.cmd with
  | .reset => n
  | .sum => (n.add id c.elems).counting c.elems
  | .mean =>
    let n := (n.add id c.elems).counting c.elems
    { n with mean := n.sum.sdiv n.count }
  | .variance => (n.add (deviation n.mean) c.elems).counting c.elems
  | .invStddev =>
    let n := (n.add (deviation n.mean) c.elems).counting c.elems
    { n with invStddev := sc.invStddev (n.sum.sdiv n.count) }
  | .max => { n with runningMax := c.elems.foldl larger n.runningMax }
  | .sumExp => { n.add (fun x => c.const.exp (x - n.runningMax)) c.elems with max := n.runningMax }
  | .invSumExp =>
    let n := { n.add (fun x => c.const.exp (x - n.runningMax)) c.elems with max := n.runningMax }
    { n with runningMax := least, invSumExp := sc.invSumExp n.sum }

def apply (norm : ℕ → Norm) : ℕ → Norm := modify c.statId (c.update sc) norm

end Call

open Call (update)

theorem forRange_eq_foldl {σ β : Type*} (g : σ → β → σ) (x : ℕ → β) (n : ℕ) (s : σ) :
    forRange n (fun i s => g s (x i)) s = ((List.range n).map x).foldl g s := by
  induction n with
  | zero => rfl
  | succ n ih => rw [forRange_succ, ih, List.range_succ, List.map_append, List.foldl_append]; rfl

theorem foldl_add_eq {β : Type*} (f : β → BitVec 32) (xs : List β) (a : BitVec 32) :
    xs.foldl (fun s x => s + f x) a = a + (xs.map f).sum := by
  induction xs generalizing a with
  | nil => simp
  | cons x xs ih => rw [List.foldl_cons, ih, List.map_cons, List.sum_cons, add_assoc]

theorem State.applyNorm_eq (sc : Scaling) (s : State) (stats : Norm) (x : ℕ → BitVec 32) (len : ℕ)
    (cmd : NormCmd) (statId : ℕ) : s.applyNorm sc stats x len cmd =
      (Call.mk statId cmd ((List.range len).map x) s.expConst).update sc stats := by
  have sums (f : BitVec 32 → BitVec 32) (a : BitVec 32) : forRange len (fun i sum => sum + f (x i)) a =
      a + (((List.range len).map x).map f).sum := by
    rw [forRange_eq_foldl (fun sum y => sum + f y) x, foldl_add_eq]
  have plain (a : BitVec 32) : forRange len (fun i sum => sum + x i) a =
      a + (((List.range len).map x).map id).sum := sums id a
  have maxima (a : BitVec 32) : forRange len (fun i most => if (x i).toInt > most.toInt then x i else most) a =
      ((List.range len).map x).foldl larger a := forRange_eq_foldl larger x len a
  have start : (if stats.reset then
      { stats with sum := 0, count := 0, runningMax := BitVec.ofInt 32 (-2147483648) } else stats) =
      stats.cleared := rfl
  cases cmd <;> simp only [State.applyNorm, update, Norm.add, Norm.counting, List.length_map,
    List.length_range, maxima, plain, start] <;>
    first
    | rfl
    | rw [sums fun y => (y - stats.cleared.mean) * (y - stats.cleared.mean)]; rfl
    | rw [sums fun y => State.applyIexp (y - stats.cleared.runningMax) s.igeluQb s.igeluQc s.qln2 s.qln2Inv]; rfl

/-! ### Passes over a row -/

section Pass

variable (sc : Scaling)

def updates (calls : List Call) (n : Norm) : Norm := calls.foldl (fun n c => c.update sc n) n

def elements (calls : List Call) : List (BitVec 32) := calls.flatMap Call.elems

/-- Calls that go over a row: the last one has the command that finishes the pass. -/
structure IsPass (first last : NormCmd) (xs : List (BitVec 32)) (calls : List Call) : Prop where
  split : ∃ init c, calls = init ++ [c] ∧ (∀ d ∈ init, Call.cmd d = first) ∧ c.cmd = last
  elements : elements calls = xs

variable {sc} {n : Norm} {c : Call} {calls : List Call} {xs : List (BitVec 32)}

theorem updates_append (first second : List Call) (n : Norm) :
    updates sc (first ++ second) n = updates sc second (updates sc first n) := List.foldl_append

theorem updates_snoc (first : List Call) (c : Call) (n : Norm) :
    updates sc (first ++ [c]) n = c.update sc (updates sc first n) := by
  rw [updates_append]
  rfl

theorem elements_snoc (first : List Call) (c : Call) :
    elements (first ++ [c]) = elements first ++ c.elems := by
  simp [elements]

theorem Norm.cleared_of_reset (reset : n.reset = true) :
    n.cleared = { n with sum := 0, count := 0, runningMax := least } := if_pos reset

theorem Norm.cleared_of_not_reset (reset : n.reset = false) : n.cleared = n :=
  if_neg (by rw [reset]; decide)

theorem Norm.cleared_mean (n : Norm) : n.cleared.mean = n.mean := by
  unfold Norm.cleared
  split_ifs <;> rfl

theorem ofNat_length_append (xs ys : List (BitVec 32)) : BitVec.ofNat 32 (xs ++ ys).length =
    BitVec.ofNat 32 xs.length + BitVec.ofNat 32 ys.length := by
  rw [List.length_append, BitVec.ofNat_add]

theorem updates_adding (sc : Scaling) (calls : List Call) (n : Norm) (f : BitVec 32 → BitVec 32)
    {P : Norm → Prop} (holds : P n.cleared)
    (step : ∀ c ∈ calls, ∀ n : Norm, P n.cleared →
      (update sc c n).cleared.sum = n.cleared.sum + (c.elems.map f).sum ∧
        P (update sc c n).cleared) :
    (updates sc calls n).cleared.sum = n.cleared.sum + ((elements calls).map f).sum ∧
      P (updates sc calls n).cleared := by
  induction calls using List.reverseRecOn with
  | nil => simpa [updates, elements] using holds
  | append_singleton calls c ih =>
    obtain ⟨sum, keeps⟩ := ih fun d mem => step d (by simp [mem])
    obtain ⟨sum', keeps'⟩ := step c (by simp) _ keeps
    rw [updates_snoc, elements_snoc, sum', sum, List.map_append, List.sum_append, add_assoc]
    exact ⟨rfl, keeps'⟩

theorem updates_counting (sc : Scaling) (calls : List Call) (n : Norm) (step : ∀ c ∈ calls, ∀ n : Norm,
      (update sc c n).cleared.count = n.cleared.count + BitVec.ofNat 32 c.elems.length) :
    (updates sc calls n).cleared.count = n.cleared.count + BitVec.ofNat 32 (elements calls).length := by
  induction calls using List.reverseRecOn with
  | nil => simp [updates, elements]
  | append_singleton calls c ih =>
    have count := ih fun d mem => step d (by simp [mem])
    rw [updates_snoc, elements_snoc, step c (by simp), count, ofNat_length_append, add_assoc]

theorem cleared_update_sum (cmd : c.cmd = .sum) :
    (c.update sc n).cleared = { (n.cleared.add id c.elems).counting c.elems with reset := false } := by
  rw [Norm.cleared_of_not_reset] <;> simp [update, cmd, Norm.add, Norm.counting]

theorem cleared_update_variance (cmd : c.cmd = .variance) : (c.update sc n).cleared =
    { (n.cleared.add (deviation n.cleared.mean) c.elems).counting c.elems with reset := false } := by
  rw [Norm.cleared_of_not_reset] <;> simp [update, cmd, Norm.add, Norm.counting]

theorem cleared_update_max (cmd : c.cmd = .max) : (c.update sc n).cleared =
    { n.cleared with runningMax := c.elems.foldl larger n.cleared.runningMax, reset := false } := by
  rw [Norm.cleared_of_not_reset] <;> simp [update, cmd]

theorem cleared_update_sumExp (cmd : c.cmd = .sumExp) : (c.update sc n).cleared =
    { n.cleared.add (fun x => c.const.exp (x - n.cleared.runningMax)) c.elems with
      max := n.cleared.runningMax, reset := false } := by
  rw [Norm.cleared_of_not_reset] <;> simp [update, cmd, Norm.add]

theorem IsPass.mean (sc : Scaling) (pass : IsPass .sum .mean xs calls) (fresh : n.reset = true) :
    (updates sc calls n).mean = xs.sum.sdiv (BitVec.ofNat 32 xs.length) ∧
      (updates sc calls n).reset = true := by
  obtain ⟨⟨init, c, rfl, commands, last⟩, rfl⟩ := pass
  obtain ⟨sum, -⟩ := updates_adding sc init n id (P := fun _ => True) trivial fun d mem m _ => by
    rw [cleared_update_sum (commands d mem)]
    exact ⟨rfl, trivial⟩
  have count := updates_counting sc init n fun d mem m => by
    rw [cleared_update_sum (commands d mem)]
    rfl
  rw [Norm.cleared_of_reset fresh] at sum count
  rw [updates_snoc, elements_snoc, ofNat_length_append, List.sum_append]
  simp [update, last, Norm.add, Norm.counting, sum, count]

theorem IsPass.invStddev (sc : Scaling) (pass : IsPass .variance .invStddev xs calls) (fresh : n.reset = true) :
    (updates sc calls n).mean = n.mean ∧ (updates sc calls n).sum = (xs.map (deviation n.mean)).sum ∧
      (updates sc calls n).count = BitVec.ofNat 32 xs.length ∧ (updates sc calls n).reset = true := by
  obtain ⟨⟨init, c, rfl, commands, last⟩, rfl⟩ := pass
  obtain ⟨sum, mean⟩ := updates_adding sc init n (deviation n.mean) (P := fun m => m.mean = n.mean)
    n.cleared_mean fun d mem m same => by
      rw [cleared_update_variance (commands d mem), same]
      exact ⟨rfl, same⟩
  have count := updates_counting sc init n fun d mem m => by
    rw [cleared_update_variance (commands d mem)]
    rfl
  rw [Norm.cleared_of_reset fresh] at sum count
  rw [updates_snoc, elements_snoc, ofNat_length_append, List.map_append, List.sum_append]
  simp [update, last, Norm.add, Norm.counting, sum, count, mean]

theorem IsPass.max (sc : Scaling) (pass : IsPass .max .max xs calls) (fresh : n.reset = true) :
    (updates sc calls n).runningMax = xs.foldl larger least ∧ (updates sc calls n).sum = 0 ∧
      (updates sc calls n).reset = false := by
  obtain ⟨⟨init, c, rfl, commands, last⟩, rfl⟩ := pass
  have before : (updates sc init n).cleared.runningMax = (Simulator.elements init).foldl larger least ∧
      (updates sc init n).cleared.sum = 0 := by
    induction init using List.reverseRecOn with
    | nil => simp [updates, Simulator.elements, Norm.cleared_of_reset fresh]
    | append_singleton init d ih =>
      obtain ⟨most, sum⟩ := ih fun e mem => commands e (by simp [mem])
      rw [updates_snoc, elements_snoc, cleared_update_max (commands d (by simp)), List.foldl_append, ← most]
      exact ⟨rfl, sum⟩
  rw [updates_snoc, elements_snoc, List.foldl_append, ← before.1]
  simp [update, last, before.2]

theorem IsPass.invSumExp (sc : Scaling) {k : ExpConst} (pass : IsPass .sumExp .invSumExp xs calls)
    (consts : ∀ d ∈ calls, Call.const d = k) (going : n.reset = false) :
    (updates sc calls n).max = n.runningMax ∧
      (updates sc calls n).sum = n.sum + (xs.map fun x => k.exp (x - n.runningMax)).sum := by
  obtain ⟨⟨init, c, rfl, commands, last⟩, rfl⟩ := pass
  have same : n.cleared = n := Norm.cleared_of_not_reset going
  obtain ⟨sum, most⟩ := updates_adding sc init n (fun x => k.exp (x - n.runningMax))
    (P := fun m => m.runningMax = n.runningMax)
    (by rw [same]) fun d mem m same => by
      rw [cleared_update_sumExp (commands d mem), consts d (by simp [mem]), same]
      exact ⟨rfl, same⟩
  rw [same] at sum
  rw [updates_snoc, elements_snoc, List.map_append, List.sum_append]
  simp [update, last, Norm.add, sum, most, consts c (by simp), add_assoc]

theorem reset_updates_of_stores (stores : ∀ d ∈ calls, Call.cmd d = .reset)
    (some : calls ≠ [] ∨ n.reset = true) : (updates sc calls n).reset = true := by
  induction calls using List.reverseRecOn with
  | nil => exact some.resolve_left (by simp)
  | append_singleton calls c _ =>
    rw [updates_snoc]
    simp [update, stores c (by simp)]

end Pass

/-! ### The calls of a program -/

section Calls

variable (hw : Hw) (sc : Scaling) (s : State)

/-- The call for a block of row `i` of an `mvout`. -/
def State.blockCall (base cols i : ℕ) (cmd : NormCmd) (block : ℕ) : Call where
  statId := s.normStatId
  cmd := if block * hw.dim + hw.dim ≥ cols then cmd else State.nonTerminating cmd
  elems := (List.range (if cols - block * hw.dim > hw.dim then hw.dim else cols - block * hw.dim)).map
    fun k => s.accumulator (base + block * hw.dim + i, k)
  const := s.expConst

/-- The calls for row `i` of an `mvout`. -/
def State.rowCalls (base cols i : ℕ) (cmd : NormCmd) : List Call :=
  (List.range ((cols + hw.dim - 1) / hw.dim)).map (s.blockCall hw base cols i cmd)

/-- The calls of an `mvout`. -/
def State.mvoutCalls (spAddr : ℕ) : List Call :=
  if s.pool.stride = 0 then
    (List.range (field spAddr 48 16)).flatMap fun i =>
      s.rowCalls hw (field spAddr 0 26) (field spAddr 32 16) i (NormCmd.decode (field spAddr 26 3))
  else []

def callsAlong {α : Type} (step : State → α → State) (calls : State → α → List Call) :
    State → List α → List Call
  | _, [] => []
  | s, a :: as => calls s a ++ callsAlong step calls (step s a) as

def State.opCalls : Op → List Call
  | .mvout m => s.mvoutCalls hw (packed m.rows m.cols m.addr)
  | _ => []

def State.instrCalls (insn : Instr) : List Call :=
  match insn.funct with
  | .mvout => s.mvoutCalls hw insn.rs2
  | .loopWs =>
    let p := LoopArgs.decode insn.rs1 insn.rs2
    callsAlong (State.perform hw sc p) (fun s op => s.opCalls hw op) s (p.issued hw s.loopWs)
  | _ => []

def State.programCalls (program : List Instr) : List Call :=
  callsAlong (State.execute hw sc) (State.instrCalls hw sc) s program

def applied (calls : List Call) (norm : ℕ → Norm) : ℕ → Norm := calls.foldl (fun norm c => c.apply sc norm) norm

variable {hw sc s}

theorem applied_append (first second : List Call) (norm : ℕ → Norm) :
    applied sc (first ++ second) norm = applied sc second (applied sc first norm) := List.foldl_append

theorem applied_eq_updates (calls : List Call) (norm : ℕ → Norm) (statId : ℕ) :
    applied sc calls norm statId = updates sc (calls.filter (·.statId = statId)) (norm statId) := by
  induction calls using List.reverseRecOn with
  | nil => rfl
  | append_singleton calls c ih =>
    rw [applied_append, List.filter_append, updates_append, ← ih]
    by_cases here : c.statId = statId
    · subst here
      rw [List.filter_cons_of_pos (by simp), List.filter_nil]
      exact modify_same _ _ _
    · rw [List.filter_cons_of_neg (by simpa using here), List.filter_nil]
      exact modify_of_ne (Ne.symm here) _ _

theorem callsAlong_norm {α : Type} {step : State → α → State} {calls : State → α → List Call}
    (each : ∀ s a, (step s a).norm = applied sc (calls s a) s.norm) (as : List α) (s : State) :
    (as.foldl step s).norm = applied sc (callsAlong step calls s as) s.norm := by
  induction as generalizing s with
  | nil => rfl
  | cons a as ih => rw [List.foldl_cons, ih, callsAlong, applied_append, each]

def Leaves (s : State) (norm : ℕ → Norm) (t : State) : Prop :=
  ∃ dram ok, t = { s with norm := norm, dram := dram, ok := ok }

theorem mvoutNorm_calls (hw : Hw) (sc : Scaling) (s : State) (base cols i : ℕ) (cmd : NormCmd) :
    Leaves s (applied sc (s.rowCalls hw base cols i cmd) s.norm)
      (s.mvoutNorm hw sc base cols i cmd).1 := by
  unfold State.mvoutNorm State.rowCalls
  refine forRange_inv (fun n (x : State × Bool) => Leaves s
    (applied sc ((List.range n).map (s.blockCall hw base cols i cmd)) s.norm) x.1)
    ⟨s.dram, s.ok, rfl⟩ fun n _ x before => ?_
  obtain ⟨t, written⟩ := x
  obtain ⟨dram, ok, rfl⟩ := before
  refine ⟨dram, ok && decide (base + n * hw.dim + i < hw.accRows), ?_⟩
  rw [List.range_succ, List.map_append, applied_append]
  dsimp only
  rw [State.applyNorm_eq sc _ _ _ _ _ s.normStatId]
  rfl

theorem mvoutElem_leaves {t : State} {norm : ℕ → Norm} (left : Leaves s norm t) (dramAddr base i j : ℕ)
    (acc full : Bool) : Leaves s norm (t.mvoutElem hw sc dramAddr base i j acc full) := by
  obtain ⟨dram, ok, rfl⟩ := left
  unfold State.mvoutElem
  split
  · exact ⟨_, _, rfl⟩
  · exact ⟨_, _, rfl⟩

theorem mvout_calls (hw : Hw) (sc : Scaling) (s : State) (dramAddr spAddr : ℕ) :
    Leaves s (applied sc (s.mvoutCalls hw spAddr) s.norm) (s.mvout hw sc dramAddr spAddr) := by
  unfold State.mvout State.mvoutCalls
  split
  · refine forRange_inv (fun n (t : State) => Leaves s (applied sc ((List.range n).flatMap fun i =>
      s.rowCalls hw (field spAddr 0 26) (field spAddr 32 16) i (NormCmd.decode (field spAddr 26 3))) s.norm) t)
      ⟨s.dram, s.ok, rfl⟩ fun i _ t before => ?_
    obtain ⟨dram, ok, rfl⟩ := before
    rw [List.range_succ, List.flatMap_append, List.flatMap_singleton, applied_append]
    -- the calls of the row only read what the rows before it leave alone
    obtain ⟨dram', ok', row⟩ := mvoutNorm_calls hw sc
      { s with
        norm := applied sc ((List.range i).flatMap fun i =>
          s.rowCalls hw (field spAddr 0 26) (field spAddr 32 16) i (NormCmd.decode (field spAddr 26 3))) s.norm
        dram := dram
        ok := ok } (field spAddr 0 26) (field spAddr 32 16) i (NormCmd.decode (field spAddr 26 3))
    dsimp only
    rw [row]
    split
    · exact forRange_inv (fun _ (t : State) => Leaves s _ t) ⟨dram', ok', rfl⟩ fun j _ u left =>
        mvoutElem_leaves left _ _ _ _ _ _
    · exact ⟨dram', ok', rfl⟩
  · refine forRange_inv (fun _ (t : State) => Leaves s s.norm t) ⟨s.dram, s.ok, rfl⟩ fun _ _ t left => ?_
    refine forRange_inv (fun _ (t : State) => Leaves s s.norm t) left fun _ _ t left => ?_
    refine forRange_inv (fun _ (t : State) => Leaves s s.norm t) left fun _ _ t left => ?_
    obtain ⟨dram, ok, rfl⟩ := left
    exact ⟨_, _, rfl⟩

theorem mvout_norm (dramAddr spAddr : ℕ) :
    (s.mvout hw sc dramAddr spAddr).norm = applied sc (s.mvoutCalls hw spAddr) s.norm := by
  obtain ⟨dram, ok, left⟩ := mvout_calls hw sc s dramAddr spAddr
  rw [left]

theorem mvin_norm (dramAddr spAddr id : ℕ) : (s.mvin hw sc dramAddr spAddr id).norm = s.norm := by
  unfold State.mvin
  split <;> rfl

theorem compute_norm (aAddr bdAddr : ℕ) (preloaded : Bool) :
    (s.compute hw aAddr bdAddr preloaded).norm = s.norm := by
  have multiply (t : State) : (t.multiply hw aAddr bdAddr).norm = t.norm := by
    unfold State.multiply
    dsimp only
    split
    · rfl
    · split <;> rfl
  unfold State.compute
  dsimp only [State.require]
  rw [multiply]
  split <;> rfl

theorem config_norm (rs1 rs2 : ℕ) : (s.config rs1 rs2).norm = s.norm := by
  unfold State.config
  split
  · unfold State.configEx
    dsimp only [State.require]
    split <;> rfl
  · rfl
  · rfl
  · unfold State.configNorm
    dsimp only
    split <;> rfl

theorem perform_norm (p : LoopArgs) (s : State) (op : Op) :
    (s.perform hw sc p op).norm = applied sc (s.opCalls hw op) s.norm := by
  cases op with
  | mvin id m => exact mvin_norm _ _ _
  | mvout m => exact mvout_norm _ _
  | compute k j i => exact compute_norm _ _ _
  | config statId => exact config_norm _ _

theorem execute_norm (s : State) (insn : Instr) :
    (s.execute hw sc insn).norm = applied sc (s.instrCalls hw sc insn) s.norm := by
  obtain ⟨funct, rs1, rs2⟩ := insn
  cases funct with
  | mvin | mvin2 | mvin3 => exact mvin_norm _ _ _
  | mvout => exact mvout_norm _ _
  | config => exact config_norm _ _
  | computePreloaded | computeAccumulated => exact compute_norm _ _ _
  | loopWs =>
    obtain ⟨ok, issues⟩ := loopWsRun_issues hw sc (LoopArgs.decode rs1 rs2) s
    have runs : (s.execute hw sc ⟨.loopWs, rs1, rs2⟩) = s.loopWsRun hw sc (LoopArgs.decode rs1 rs2) := rfl
    rw [runs, issues]
    exact callsAlong_norm (perform_norm _) _ _
  | _ => rfl

theorem run_norm (program : List Instr) (statId : ℕ) : (s.run hw sc program).norm statId =
    updates sc ((s.programCalls hw sc program).filter (·.statId = statId)) (s.norm statId) := by
  rw [← applied_eq_updates]
  exact congrFun (callsAlong_norm execute_norm program s) statId

end Calls

/-! ### Rows -/

inductive Kind
  | layernorm
  | softmax
  deriving DecidableEq

/-- The command that gathers the statistics of a pass, and the one that finishes the pass. -/
def Kind.first : Kind → NormCmd × NormCmd
  | .layernorm => (.sum, .mean)
  | .softmax => (.max, .max)

def Kind.second : Kind → NormCmd × NormCmd
  | .layernorm => (.variance, .invStddev)
  | .softmax => (.sumExp, .invSumExp)

/-- The calls for a row.  Each pass cuts the row into blocks as it likes; the constants stay while the
exponentials are added up. -/
structure Row where
  kind : Kind
  elems : List (BitVec 32)
  const : ExpConst
  first : List Call
  second : List Call
  stores : List Call
  isFirst : IsPass kind.first.1 kind.first.2 elems first
  isSecond : IsPass kind.second.1 kind.second.2 elems second
  isConst : kind = .softmax → ∀ c ∈ second, c.const = const
  isStore : ∀ c ∈ stores, c.cmd = .reset

namespace Row

variable (row : Row)

def gathering : List Call := row.first ++ row.second

def calls : List Call := row.gathering ++ row.stores

def Stored : Prop := row.kind = .softmax → row.stores ≠ []

def mean : BitVec 32 := row.elems.sum.sdiv (BitVec.ofNat 32 row.elems.length)

def most : BitVec 32 := row.elems.foldl larger least

def Gathered (n : Norm) : Prop :=
  (row.kind = .layernorm → n.mean = row.mean ∧ n.sum = (row.elems.map (deviation row.mean)).sum ∧
      n.count = BitVec.ofNat 32 row.elems.length) ∧
    (row.kind = .softmax → n.max = row.most ∧
      n.sum = (row.elems.map fun x => row.const.exp (x - row.most)).sum)

instance (n : Norm) : Decidable (row.Gathered n) := inferInstanceAs (Decidable (_ ∧ _))

variable {row} {sc : Scaling} {n : Norm}

theorem gathered (fresh : n.reset = true) : row.Gathered (updates sc row.gathering n) := by
  have isFirst := row.isFirst
  have isSecond := row.isSecond
  rw [gathering, updates_append]
  refine ⟨fun kind => ?_, fun kind => ?_⟩
  · rw [kind] at isFirst isSecond
    obtain ⟨mean, flagged⟩ := isFirst.mean sc fresh
    obtain ⟨same, sum, count, -⟩ := isSecond.invStddev sc flagged
    rw [mean] at same sum
    exact ⟨same, sum, count⟩
  · rw [kind] at isFirst isSecond
    obtain ⟨most, zero, going⟩ := isFirst.max sc fresh
    obtain ⟨max, sum⟩ := isSecond.invSumExp sc (row.isConst kind) going
    rw [most] at max sum
    rw [zero, zero_add] at sum
    exact ⟨max, sum⟩

theorem reset_calls (fresh : n.reset = true) (stored : row.Stored) :
    (updates sc row.calls n).reset = true := by
  unfold calls
  rw [updates_append]
  apply reset_updates_of_stores row.isStore
  cases kind : row.kind with
  | softmax => exact .inl (stored kind)
  | layernorm =>
    right
    have isFirst := row.isFirst
    have isSecond := row.isSecond
    rw [kind] at isFirst isSecond
    rw [gathering, updates_append]
    exact (isSecond.invStddev sc (isFirst.mean sc fresh).2).2.2.2

theorem reset_rows {rows : List Row} (fresh : n.reset = true) (stored : ∀ r ∈ rows, r.Stored) :
    (updates sc (rows.flatMap calls) n).reset = true := by
  induction rows using List.reverseRecOn with
  | nil => exact fresh
  | append_singleton rows row ih =>
    rw [List.flatMap_append, List.flatMap_singleton, updates_append]
    exact reset_calls (ih fun r mem => stored r (by simp [mem])) (stored row (by simp))

end Row

/-- Whatever else a program does, and however it interleaves rows under different ids, the statistics of
a row are those of its elements when they are finished, provided that the softmaxes before it under the
same id were stored. -/
theorem gathered_of_stored (hw : Hw) (sc : Scaling) (s : State) (program : List Instr) (statId : ℕ)
    (earlier : List Row) (row : Row) (fresh : (s.norm statId).reset = true)
    (stored : ∀ r ∈ earlier, r.Stored)
    (onId : (s.programCalls hw sc program).filter (·.statId = statId) =
      earlier.flatMap Row.calls ++ row.gathering) :
    row.Gathered ((s.run hw sc program).norm statId) := by
  rw [run_norm, onId, updates_append]
  apply Row.gathered
  apply Row.reset_rows fresh stored

/-! ### Two programs -/

theorem IsPass.single {first last : NormCmd} {xs : List (BitVec 32)} {c : Call} (cmd : c.cmd = last)
    (elems : c.elems = xs) : IsPass first last xs [c] :=
  ⟨⟨[], c, rfl, fun _ mem => absurd mem List.not_mem_nil, cmd⟩, (List.append_nil _).trans elems⟩

theorem IsPass.cons {first last : NormCmd} {xs ys : List (BitVec 32)} {calls : List Call} {c : Call}
    (cmd : c.cmd = first) (elems : c.elems = ys) (pass : IsPass first last xs calls) :
    IsPass first last (ys ++ xs) (c :: calls) := by
  obtain ⟨⟨init, d, rfl, commands, last⟩, rfl⟩ := pass
  obtain rfl := elems
  refine ⟨⟨c :: init, d, rfl, ?_, last⟩, rfl⟩
  rintro e (_ | ⟨_, mem⟩)
  · exact cmd
  · exact commands e mem

/-- A fresh accelerator whose accumulator has `c` in column `c`. -/
def columns : State := { fresh with accumulator := fun cell => BitVec.ofNat 32 cell.2, igeluQb := 1 }

/-- Hand `cols` elements over, from row `base` on. -/
def handOver (cmd base cols : ℕ) : Instr := ⟨.mvout, 0, packed 1 cols (1 <<< 31 ||| cmd <<< 26 ||| base)⟩

def selectStats (statId : ℕ) : Instr := ⟨.config, 1 <<< 17 ||| statId <<< 8 ||| 3, 0⟩

def firstColumns (len : ℕ) : List (BitVec 32) := (List.range len).map (BitVec.ofNat 32)

/-- The call for a block of `columns`. -/
def block (cmd : NormCmd) (len : ℕ) : Call := ⟨0, cmd, firstColumns len, columns.expConst⟩

def softmaxRow (stores : List Call) (isStore : ∀ c ∈ stores, Call.cmd c = .reset) : Row where
  kind := .softmax
  elems := firstColumns 2
  const := columns.expConst
  first := [block .max 2]
  second := [block .invSumExp 2]
  stores := stores
  isFirst := .single rfl rfl
  isSecond := .single rfl rfl
  isConst := fun _ _ mem => List.mem_singleton.mp mem ▸ rfl
  isStore := isStore

theorem nothing_stored : ∀ c ∈ ([] : List Call), c.cmd = .reset := fun _ mem => absurd mem List.not_mem_nil

theorem one_stored : ∀ c ∈ [block .reset 2], c.cmd = .reset := fun _ mem => List.mem_singleton.mp mem ▸ rfl

def layernormRow : Row where
  kind := .layernorm
  elems := firstColumns 16 ++ firstColumns 4
  const := columns.expConst
  first := [block .sum 16, block .mean 4]
  second := [block .variance 16, block .invStddev 4]
  stores := []
  isFirst := .cons rfl rfl (.single rfl rfl)
  isSecond := .cons rfl rfl (.single rfl rfl)
  isConst := fun softmax => Kind.noConfusion softmax
  isStore := nothing_stored

/-- A softmax that is stored, then a layer normalization, with another row in between. -/
def interleaved : List Instr :=
  [handOver 5 0 2, selectStats 1, handOver 1 0 16, selectStats 0, handOver 7 0 2, handOver 0 0 2,
    selectStats 1, handOver 2 0 2, selectStats 0, handOver 2 0 20, selectStats 1, handOver 4 0 18,
    selectStats 0, handOver 3 0 16, handOver 4 16 4]

theorem gathered_interleaved :
    (columns.programCalls gemminiParams unscaled interleaved).filter (·.statId = 0) =
        [softmaxRow [block .reset 2] one_stored].flatMap Row.calls ++ layernormRow.gathering ∧
      layernormRow.Gathered ((columns.run gemminiParams unscaled interleaved).norm 0) := by
  have onId : (columns.programCalls gemminiParams unscaled interleaved).filter (·.statId = 0) =
      [softmaxRow [block .reset 2] one_stored].flatMap Row.calls ++ layernormRow.gathering := by
    decide
  refine ⟨onId, gathered_of_stored _ _ _ _ _ _ _ rfl ?_ onId⟩
  rintro r mem -
  rw [List.mem_singleton.mp mem]
  exact List.cons_ne_nil _ _

/-- Two softmaxes of the same elements, the first of which is not stored: the second one starts with the
sum that the first one left. -/
theorem softmax_not_cleared :
    let program := [handOver 5 0 2, handOver 7 0 2, handOver 5 0 2, handOver 7 0 2]
    let row := softmaxRow [] nothing_stored
    (columns.norm 0).reset = true ∧
      (columns.programCalls gemminiParams unscaled program).filter (·.statId = 0) =
        [row].flatMap Row.calls ++ row.gathering ∧
      ((columns.run gemminiParams unscaled (program.take 2)).norm 0).sum = 1 ∧
      ((columns.run gemminiParams unscaled program).norm 0).sum = 2 ∧
      ¬row.Gathered ((columns.run gemminiParams unscaled program).norm 0) := by
  decide

end Gemmini.Simulator
