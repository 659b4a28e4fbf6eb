import Gemmini.Simulator.LoopWs

/-!
# The operations of `loop_ws`

`loop_ws` runs a list of operations that only depends on its registers: moves of blocks, computations, and
for a normalization the choice of the statistics.
-/

namespace Gemmini.Simulator

/-- The operands of an `mvin` or `mvout`. -/
structure Move where
  dram : ℕ
  rows : ℕ
  cols : ℕ
  addr : ℕ
  deriving DecidableEq, Repr

inductive Op
  | mvin (id : ℕ) (m : Move)
  | mvout (m : Move)
  | compute (k j i : ℕ)
  /-- `config` of a `norm_stat_id` alone. -/
  | config (statId : ℕ)
  deriving DecidableEq, Repr

def State.perform (hw : Hw) (sc : Scaling) (p : LoopArgs) (s : State) : Op → State
  | .mvin id m => s.mvin hw sc m.dram (packed m.rows m.cols m.addr) id
  | .mvout m => s.mvout hw sc m.dram (packed m.rows m.cols m.addr)
  | .compute k j i => s.computeBlock hw p k j i
  | .config statId => s.config (1 <<< 17 ||| statId <<< 8 ||| 3) 0

namespace LoopArgs

variable (hw : Hw) (p : LoopArgs) (l : LoopWs)

def moveA (i k : ℕ) : Move :=
  if p.aTranspose then
    ⟨l.A + (k * l.strideA + i) * hw.dim, side hw l.K l.padK k, side hw l.I l.padI i, p.aSpAddr hw l i k⟩
  else
    ⟨l.A + (i * l.strideA + k) * hw.dim, side hw l.I l.padI i, side hw l.K l.padK k, p.aSpAddr hw l i k⟩

def moveB (k j : ℕ) : Move :=
  if p.bTranspose then
    ⟨l.B + (j * l.strideB + k) * hw.dim, side hw l.J l.padJ j, side hw l.K l.padK k, p.bSpAddr hw l k j⟩
  else
    ⟨l.B + (k * l.strideB + j) * hw.dim, side hw l.K l.padK k, side hw l.J l.padJ j, p.bSpAddr hw l k j⟩

def moveD (i j : ℕ) : Move :=
  ⟨l.D + (i * l.strideD + j) * hw.dim * p.sizeofD, side hw l.I l.padI i, side hw l.J l.padJ j,
    1 <<< 31 + (i * l.J + j) * hw.dim⟩

def moveC (i j : ℕ) : Move :=
  ⟨p.cDramAddr hw l i j, side hw l.I l.padI i, side hw l.J l.padJ j, p.cSpAddr hw l i j⟩

/-- Row `r` of the block `(i, j)` of C, with a command of a normalization. -/
def moveNorm (act : Activation) (cmd i j r : ℕ) : Move :=
  let cmds := normCmds act cmd
  ⟨p.cDramAddr hw l i j + r * l.strideC * p.sizeofC, 1, side hw l.J l.padJ j,
    (p.cSpAddr hw l i j + r) ||| (if j + 1 = l.J then cmds.2 else cmds.1) <<< 26⟩

/-- The stores of the blocks `(i, _)` with the commands of a normalization. -/
def normOps (act : Activation) (i : ℕ) : List Op :=
  let rows := side hw l.I l.padI i
  (List.range ((rows + hw.normStatIds - 1) / hw.normStatIds)).flatMap fun group =>
    (List.range 3).flatMap fun cmd =>
      (List.range (min hw.normStatIds (rows - group * hw.normStatIds))).flatMap fun statId =>
        .config statId ::
          (List.range l.J).flatMap fun j =>
            [.mvout (p.moveNorm hw l act cmd i j (group * hw.normStatIds + statId))]

/-- The moves out of the block `(i, j)`, or of the blocks `(i, _)` with the last of them. -/
def storeOps (j i : ℕ) : List Op :=
  if p.act = Activation.layernorm.toNat then
    if j = l.J - 1 then p.normOps hw l .layernorm i else []
  else if p.act = Activation.softmax.toNat then
    if j = l.J - 1 then p.normOps hw l .softmax i else []
  else [.mvout (p.moveC hw l i j)]

def bodyOps (k j i : ℕ) : List Op :=
  (if j = 0 ∧ l.A ≠ 0 then [.mvin 0 (p.moveA hw l i k)] else []) ++
    (if i = 0 ∧ l.B ≠ 0 then [.mvin 1 (p.moveB hw l k j)] else []) ++ [.compute k j i] ++
    if l.C ≠ 0 ∧ k = l.K - 1 then p.storeOps hw l j i else []

def ops : List Op :=
  (if l.D ≠ 0 then
      (List.range l.I).flatMap fun i => (List.range l.J).flatMap fun j => [.mvin 2 (p.moveD hw l i j)]
    else []) ++
    (List.range l.K).flatMap fun k => (List.range l.J).flatMap fun j => (List.range l.I).flatMap fun i =>
      p.bodyOps hw l k j i

/-- The operations on the block `(i, j)` of a residual addition. -/
def resaddBlockOps (i j : ℕ) : List Op :=
  let block := (i * l.J + j) * hw.dim
  let rows := side hw l.I l.padI i
  let cols := side hw l.J l.padJ j
  [.mvin 0 ⟨l.A + (i * l.strideA + j) * hw.dim, rows, cols, 1 <<< 31 + block⟩,
      .mvin 1 ⟨l.B + (i * l.strideB + j) * hw.dim, rows, cols, 3 <<< 30 + block⟩] ++
    if l.C ≠ 0 then [.mvout (p.moveC hw l i j)] else []

def resaddOps : List Op :=
  (List.range l.I).flatMap fun i => (List.range l.J).flatMap fun j => p.resaddBlockOps hw l i j

/-- The operations that `loop_ws` issues. -/
def issued : List Op :=
  if ¬Accepts hw l then []
  else if p.isResadd then p.resaddOps hw l
  else p.ops hw l

end LoopArgs

section Run

variable {hw : Hw} {sc : Scaling} {p : LoopArgs} {s : State}

theorem State.mvin_loopWs (dram spAddr id : ℕ) : (s.mvin hw sc dram spAddr id).loopWs = s.loopWs := by
  unfold State.mvin
  split <;> rfl

theorem State.mvoutNorm_loopWs (base cols i : ℕ) (cmd : NormCmd) :
    (s.mvoutNorm hw sc base cols i cmd).1.loopWs = s.loopWs := by
  unfold State.mvoutNorm
  exact forRange_inv (fun _ (x : State × Bool) => x.1.loopWs = s.loopWs) rfl fun _ _ _ same => same

theorem State.mvoutElem_loopWs (dram base i j : ℕ) (acc full : Bool) :
    (s.mvoutElem hw sc dram base i j acc full).loopWs = s.loopWs := by
  unfold State.mvoutElem
  split <;> rfl

theorem State.mvout_loopWs (dram spAddr : ℕ) : (s.mvout hw sc dram spAddr).loopWs = s.loopWs := by
  unfold State.mvout
  split
  · refine forRange_inv (fun _ (x : State) => x.loopWs = s.loopWs) rfl fun i _ x same => ?_
    have norm : (x.mvoutNorm hw sc (field spAddr 0 26) (field spAddr 32 16) i
        (NormCmd.decode (field spAddr 26 3))).1.loopWs = x.loopWs := State.mvoutNorm_loopWs _ _ _ _
    dsimp only
    split
    · exact forRange_inv (fun _ (x : State) => x.loopWs = s.loopWs) (norm.trans same) fun j _ y kept =>
        (State.mvoutElem_loopWs _ _ _ _ _ _).trans kept
    · exact norm.trans same
  · refine forRange_inv (fun _ (x : State) => x.loopWs = s.loopWs) rfl fun i _ x same => ?_
    refine forRange_inv (fun _ (x : State) => x.loopWs = s.loopWs) same fun j _ x same => ?_
    exact forRange_inv (fun _ (x : State) => x.loopWs = s.loopWs) same fun _ _ x same => same

theorem State.multiply_loopWs (aAddr bdAddr : ℕ) : (s.multiply hw aAddr bdAddr).loopWs = s.loopWs := by
  unfold State.multiply
  dsimp only
  split
  · rfl
  · split <;> rfl

theorem State.computeBlock_loopWs (k j i : ℕ) : (s.computeBlock hw p k j i).loopWs = s.loopWs := by
  unfold State.computeBlock State.compute
  dsimp only [State.require]
  rw [State.multiply_loopWs]
  split <;> rfl

theorem State.config_loopWs (rs1 rs2 : ℕ) : (s.config rs1 rs2).loopWs = s.loopWs := by
  unfold State.config
  split
  · unfold State.configEx
    dsimp only [State.require]
    split <;> rfl
  · rfl
  · rfl
  · unfold State.configNorm
    dsimp only
    split <;> rfl

theorem State.perform_loopWs (op : Op) : (s.perform hw sc p op).loopWs = s.loopWs := by
  cases op with
  | mvin id m => exact State.mvin_loopWs _ _ _
  | mvout m => exact State.mvout_loopWs _ _
  | compute k j i => exact State.computeBlock_loopWs k j i
  | config statId => exact State.config_loopWs _ _

theorem State.performs_loopWs (ops : List Op) :
    (ops.foldl (State.perform hw sc p) s).loopWs = s.loopWs := by
  induction ops generalizing s with
  | nil => rfl
  | cons op ops ih => exact ih.trans (State.perform_loopWs op)

/-- Where the registers of the loop are `l`, a step runs the operations. -/
def Performs (hw : Hw) (sc : Scaling) (p : LoopArgs) (l : LoopWs) (f : State → State) (ops : List Op) :
    Prop :=
  ∀ s : State, s.loopWs = l → f s = ops.foldl (State.perform hw sc p) s

namespace Performs

variable {l : LoopWs} {f g : State → State} {ops ops' : List Op}

theorem append (first : Performs hw sc p l f ops) (second : Performs hw sc p l g ops') :
    Performs hw sc p l (fun s => g (f s)) (ops ++ ops') := by
  intro s here
  rw [List.foldl_append, ← first s here]
  apply second
  rw [first s here]
  exact (State.performs_loopWs _).trans here

theorem onlyIf (c : Prop) [Decidable c] (step : Performs hw sc p l f ops) :
    Performs hw sc p l (fun s => if c then f s else s) (if c then ops else []) := by
  intro s here
  split
  · exact step s here
  · rfl

theorem loop {n : ℕ} {body : ℕ → State → State} {L : ℕ → List Op}
    (each : ∀ i, Performs hw sc p l (body i) (L i)) :
    Performs hw sc p l (forRange n body) ((List.range n).flatMap L) := by
  intro s here
  induction n with
  | zero => rfl
  | succ n ih =>
    rw [forRange_succ, ih, List.range_succ, List.flatMap_append, List.foldl_append,
      List.flatMap_singleton]
    exact each n _ ((State.performs_loopWs _).trans here)

end Performs

open Performs (loop)

variable {l : LoopWs}

theorem loadA_performs (i k : ℕ) :
    Performs hw sc p l (fun s => s.loadA hw sc p i k) [.mvin 0 (p.moveA hw l i k)] := by
  rintro s rfl
  unfold State.loadA LoopArgs.moveA
  split <;> rfl

theorem loadB_performs (k j : ℕ) :
    Performs hw sc p l (fun s => s.loadB hw sc p k j) [.mvin 1 (p.moveB hw l k j)] := by
  rintro s rfl
  unfold State.loadB LoopArgs.moveB
  split <;> rfl

theorem loadD_performs (i j : ℕ) :
    Performs hw sc p l (fun s => s.loadD hw sc p i j) [.mvin 2 (p.moveD hw l i j)] := by
  rintro s rfl
  rfl

theorem storeNormalized_performs (act : Activation) (i : ℕ) :
    Performs hw sc p l (fun s => s.storeNormalized hw sc p act i) (p.normOps hw l act i) := by
  -- the stores of one row
  have row : ∀ group cmd statId, Performs hw sc p l (fun s => forRange l.J (fun j s =>
      s.mvout hw sc (p.cDramAddr hw s.loopWs i j + (group + statId) * s.loopWs.strideC * p.sizeofC)
        (packed 1 (side hw s.loopWs.J s.loopWs.padJ j) ((p.cSpAddr hw s.loopWs i j + (group + statId)) |||
          (if j + 1 = s.loopWs.J then (normCmds act cmd).2 else (normCmds act cmd).1) <<< 26))) s)
      ((List.range l.J).flatMap fun j => [.mvout (p.moveNorm hw l act cmd i j (group + statId))]) := by
    intro group cmd statId
    refine loop fun j => ?_
    rintro s rfl
    rfl
  rintro s rfl
  refine loop (fun group => ?_) s rfl
  refine loop fun cmd => ?_
  refine loop fun statId => ?_
  intro s₁ here
  have kept := (State.config_loopWs (s := s₁) (1 <<< 17 ||| statId <<< 8 ||| 3) 0).trans here
  rw [List.foldl_cons]
  dsimp only
  rw [kept]
  exact row (group * hw.normStatIds) cmd statId _ kept

theorem storeOps_performs (j i : ℕ) :
    Performs hw sc p l (fun s =>
      if p.act = Activation.layernorm.toNat then
        if j = l.J - 1 then s.storeNormalized hw sc p .layernorm i else s
      else if p.act = Activation.softmax.toNat then
        if j = l.J - 1 then s.storeNormalized hw sc p .softmax i else s
      else s.storeC hw sc p i j) (p.storeOps hw l j i) := by
  intro s here
  unfold LoopArgs.storeOps
  split
  · exact (storeNormalized_performs _ _).onlyIf _ s here
  · split
    · exact (storeNormalized_performs _ _).onlyIf _ s here
    · subst here
      rfl

theorem loopBody_performs (k j i : ℕ) :
    Performs hw sc p l (fun s => s.loopBody hw sc p k j i) (p.bodyOps hw l k j i) := by
  have compute : Performs hw sc p l (fun s => s.computeBlock hw p k j i) [.compute k j i] := fun _ _ => rfl
  have loads : Performs hw sc p l _ _ :=
    ((loadA_performs i k).onlyIf (j = 0 ∧ l.A ≠ 0)).append ((loadB_performs k j).onlyIf (i = 0 ∧ l.B ≠ 0))
  have stores : Performs hw sc p l _ _ := (storeOps_performs j i).onlyIf (l.C ≠ 0 ∧ k = l.K - 1)
  rintro s rfl
  exact ((loads.append compute).append stores) s rfl

theorem loopWsRun_performs (accepted : LoopArgs.Accepts hw s.loopWs) (matmul : p.isResadd = false) :
    s.loopWsRun hw sc p = (p.ops hw s.loopWs).foldl (State.perform hw sc p) s := by
  have bias : Performs hw sc p s.loopWs (fun t => if s.loopWs.D ≠ 0 then
      forRange s.loopWs.I (fun i => forRange s.loopWs.J fun j t => t.loadD hw sc p i j) t else t) _ :=
    (loop fun i => loop fun j => loadD_performs i j).onlyIf _
  have blocks : Performs hw sc p s.loopWs (forRange s.loopWs.K fun k => forRange s.loopWs.J fun j =>
      forRange s.loopWs.I fun i t => t.loopBody hw sc p k j i) _ :=
    loop fun k => loop fun j => loop fun i => loopBody_performs k j i
  unfold State.loopWsRun
  rw [if_neg (not_not.mpr accepted), matmul, if_neg Bool.false_ne_true]
  exact (bias.append blocks) s rfl

theorem resaddBlock_performs (i j : ℕ) :
    Performs hw sc p l (fun s => s.resaddBlock hw sc p i j) (p.resaddBlockOps hw l i j) := by
  rintro s rfl
  unfold State.resaddBlock LoopArgs.resaddBlockOps
  dsimp only
  split <;> rfl

theorem loopWsRun_issues (hw : Hw) (sc : Scaling) (p : LoopArgs) (s : State) : ∃ ok, s.loopWsRun hw sc p =
    { (p.issued hw s.loopWs).foldl (State.perform hw sc p) s with ok := ok } := by
  by_cases accepted : LoopArgs.Accepts hw s.loopWs
  · rw [LoopArgs.issued, if_neg (not_not.mpr accepted)]
    cases kind : p.isResadd with
    | false => exact ⟨_, loopWsRun_performs accepted kind⟩
    | true =>
      have blocks : Performs hw sc p s.loopWs (forRange s.loopWs.I fun i => forRange s.loopWs.J fun j t =>
          t.resaddBlock hw sc p i j) (p.resaddOps hw s.loopWs) :=
        loop fun i => loop fun j => resaddBlock_performs i j
      have runs : s.loopWsRun hw sc p = (p.resaddOps hw s.loopWs).foldl (State.perform hw sc p) s := by
        rw [State.loopWsRun, if_neg (not_not.mpr accepted), kind, if_pos rfl]
        exact blocks s rfl
      exact ⟨_, runs⟩
  · refine ⟨false, ?_⟩
    rw [State.loopWsRun, LoopArgs.issued, if_pos accepted, if_pos accepted]
    rfl

end Run

/-! ### The moves of each operand -/

/-- The move of an `mvin` with the given `id`. -/
def Op.moved (id : ℕ) : Op → Option Move
  | .mvin id' m => if id' = id then some m else none
  | _ => none

/-- The move of an `mvout`. -/
def Op.stored : Op → Option Move
  | .mvout m => some m
  | _ => none

section Moves

variable {hw : Hw} {p : LoopArgs} {l : LoopWs}

theorem flatMap_range_at {α : Type*} {n a : ℕ} (inside : a < n) (L : List α) :
    ((List.range n).flatMap fun i => if i = a then L else []) = L := by
  induction n with
  | zero => omega
  | succ n ih =>
    rw [List.range_succ, List.flatMap_append, List.flatMap_singleton]
    rcases Nat.eq_or_lt_of_le (Nat.le_of_lt_succ inside) with rfl | earlier
    · have none_before : ((List.range a).flatMap fun i => if i = a then L else []) = [] := by
        rw [List.flatMap_eq_nil_iff]
        intro i mem
        exact if_neg (List.mem_range.mp mem).ne
      rw [none_before, if_pos rfl, List.nil_append]
    · rw [ih earlier, if_neg (by omega), List.append_nil]

theorem normOps_moved (id : ℕ) (act : Activation) (i : ℕ) :
    (p.normOps hw l act i).filterMap (Op.moved id) = [] := by
  simp only [List.filterMap_eq_nil_iff, LoopArgs.normOps, List.mem_flatMap, List.mem_cons,
    List.not_mem_nil, or_false]
  rintro op ⟨_, _, _, _, _, _, rfl | ⟨_, _, rfl⟩⟩ <;> rfl

theorem storeOps_moved (id j i : ℕ) : (p.storeOps hw l j i).filterMap (Op.moved id) = [] := by
  unfold LoopArgs.storeOps
  split_ifs <;> simp [normOps_moved, Op.moved]

theorem mvin_moved (c : Prop) [Decidable c] (id id' : ℕ) (m : Move) :
    (if c then [Op.mvin id' m] else []).filterMap (Op.moved id) = if c ∧ id' = id then [m] else [] := by
  by_cases holds : c <;> by_cases same : id' = id <;> simp [holds, same, Op.moved]

theorem bodyOps_moved (id k j i : ℕ) : (p.bodyOps hw l k j i).filterMap (Op.moved id) =
    (if (j = 0 ∧ l.A ≠ 0) ∧ 0 = id then [p.moveA hw l i k] else []) ++
      if (i = 0 ∧ l.B ≠ 0) ∧ 1 = id then [p.moveB hw l k j] else [] := by
  have stores : (if l.C ≠ 0 ∧ k = l.K - 1 then p.storeOps hw l j i else []).filterMap (Op.moved id) = [] := by
    split
    · exact storeOps_moved id j i
    · rfl
  have compute : [Op.compute k j i].filterMap (Op.moved id) = [] := rfl
  rw [LoopArgs.bodyOps, List.filterMap_append, List.filterMap_append, List.filterMap_append, stores, compute,
    mvin_moved, mvin_moved, List.append_nil, List.append_nil]

theorem biasOps_moved (id : ℕ) : (if l.D ≠ 0 then (List.range l.I).flatMap fun i =>
      (List.range l.J).flatMap fun j => [Op.mvin 2 (p.moveD hw l i j)] else []).filterMap (Op.moved id) =
    if l.D ≠ 0 ∧ 2 = id then (List.range l.I).flatMap fun i => (List.range l.J).map fun j => p.moveD hw l i j
    else [] := by
  by_cases none_given : l.D = 0
  · simp [none_given]
  · by_cases same : 2 = id
    · subst same
      simp [none_given, List.filterMap_flatMap, Op.moved, List.map_eq_flatMap]
    · simp [none_given, same, List.filterMap_flatMap, Op.moved]

theorem moves_A (posJ : 0 < l.J) : (p.ops hw l).filterMap (Op.moved 0) =
    if l.A = 0 then []
    else (List.range l.K).flatMap fun k => (List.range l.I).map fun i => p.moveA hw l i k := by
  rw [LoopArgs.ops, List.filterMap_append, biasOps_moved, if_neg (by simp), List.nil_append]
  simp only [List.filterMap_flatMap, bodyOps_moved, and_true, Nat.one_ne_zero, and_false, if_false,
    List.append_nil]
  split_ifs with none_given
  · simp [none_given]
  · apply List.flatMap_congr
    intro k _
    rw [← flatMap_range_at posJ ((List.range l.I).map fun i => p.moveA hw l i k)]
    apply List.flatMap_congr
    intro j _
    by_cases first : j = 0 <;> simp [none_given, first, List.map_eq_flatMap]

theorem moves_D : (p.ops hw l).filterMap (Op.moved 2) =
    if l.D = 0 then []
    else (List.range l.I).flatMap fun i => (List.range l.J).map fun j => p.moveD hw l i j := by
  rw [LoopArgs.ops, List.filterMap_append, biasOps_moved]
  simp only [List.filterMap_flatMap, bodyOps_moved]
  by_cases none_given : l.D = 0 <;> simp [none_given]

section Stores

variable {α : Type*} {f : Op → Option α} (noMvin : ∀ id m, f (.mvin id m) = none)
  (noCompute : ∀ k j i, f (.compute k j i) = none) (posK : 0 < l.K)

include noMvin noCompute posK

/-- What comes of the blocks that the last step of each sum stores. -/
theorem filterMap_ops : (p.ops hw l).filterMap f =
    if l.C = 0 then []
    else (List.range l.J).flatMap fun j => (List.range l.I).flatMap fun i =>
      (p.storeOps hw l j i).filterMap f := by
  have loads (c : Prop) [Decidable c] (id m) : (if c then [Op.mvin id m] else []).filterMap f = [] := by
    split <;> simp [noMvin]
  have bias : (if l.D ≠ 0 then (List.range l.I).flatMap fun i =>
      (List.range l.J).flatMap fun j => [Op.mvin 2 (p.moveD hw l i j)] else []).filterMap f = [] := by
    split <;> simp [List.filterMap_flatMap, noMvin]
  have body (k j i) : (p.bodyOps hw l k j i).filterMap f =
      (if l.C ≠ 0 ∧ k = l.K - 1 then p.storeOps hw l j i else []).filterMap f := by
    rw [LoopArgs.bodyOps, List.filterMap_append, List.filterMap_append, List.filterMap_append, loads, loads]
    simp [noCompute]
  rw [LoopArgs.ops, List.filterMap_append, bias, List.nil_append]
  simp only [List.filterMap_flatMap, body]
  refine .trans ?_ (flatMap_range_at (show l.K - 1 < l.K by omega) _)
  apply List.flatMap_congr
  intro k _
  by_cases last : k = l.K - 1 <;> by_cases none_given : l.C = 0 <;> simp [last, none_given]

theorem stores_norm (posJ : 0 < l.J) {act : Activation} (normal : act = .layernorm ∨ act = .softmax)
    (same : p.act = act.toNat) (given : l.C ≠ 0) :
    (p.ops hw l).filterMap f = (List.range l.I).flatMap fun i => (p.normOps hw l act i).filterMap f := by
  have stores (j i) : p.storeOps hw l j i = if j = l.J - 1 then p.normOps hw l act i else [] := by
    rcases normal with rfl | rfl <;> simp [LoopArgs.storeOps, same, Activation.toNat]
  rw [filterMap_ops noMvin noCompute posK, if_neg given]
  refine .trans ?_ (flatMap_range_at (show l.J - 1 < l.J by omega) _)
  apply List.flatMap_congr
  intro j _
  by_cases lastJ : j = l.J - 1 <;> simp [lastJ, stores]

end Stores

theorem stores_C (posK : 0 < l.K) (plain : p.act ≠ Activation.layernorm.toNat ∧
      p.act ≠ Activation.softmax.toNat) : (p.ops hw l).filterMap Op.stored =
    if l.C = 0 then []
    else (List.range l.J).flatMap fun j => (List.range l.I).map fun i => p.moveC hw l i j := by
  rw [filterMap_ops (fun _ _ => rfl) (fun _ _ _ => rfl) posK]
  simp [LoopArgs.storeOps, plain, Op.stored, List.map_eq_flatMap]

end Moves

end Gemmini.Simulator
