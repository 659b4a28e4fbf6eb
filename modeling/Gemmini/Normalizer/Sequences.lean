import Gemmini.LoopMatmul.Normalized
import Gemmini.Normalizer.Tracked

/-!
# The command sequences of StC

Each id gets the rows that StC names it for one after the other, and for each row the three passes over its
blocks, so that the commands of an id follow each other as the statistics need it.
-/

namespace Gemmini.Normalizer

open LoopMatmul (NormStep normSweep normCmd StCReq RowsInMemory normStatIds layernorm)
open Gemmini.Walker (steps)

def NormCmd.ofCode : ℕ → NormCmd
  | 0 => .reset
  | 1 => .sum
  | 2 => .mean
  | 3 => .variance
  | 4 => .invStddev
  | 5 => .max
  | 6 => .sumExp
  | _ => .invSumExp

open NormCmd (ofCode)

def walk : NormCmd → List NormCmd → Option NormCmd
  | last, [] => some last
  | last, c :: cs => if last.follows c then walk c cs else none

/-- The commands that an id gets; `cur` is the id that was named last. -/
def commandsOf (id : ℕ) : ℕ → List NormStep → List NormCmd
  | _, [] => []
  | _, .config statId :: rest => commandsOf id statId rest
  | cur, .store _ norm :: rest =>
    if cur = id then ofCode norm :: commandsOf id cur rest else commandsOf id cur rest

theorem walk_append (last : NormCmd) (cs ds : List NormCmd) :
    walk last (cs ++ ds) = (walk last cs).bind fun c => walk c ds := by
  induction cs generalizing last with
  | nil => rfl
  | cons c cs ih =>
    rw [List.cons_append, walk, walk]
    split_ifs
    · exact ih c
    · rfl

theorem walk_flatMap {α : Type} {last : NormCmd} {l : List α} {f : α → List NormCmd}
    (back : ∀ a ∈ l, walk last (f a) = some last) : walk last (l.flatMap f) = some last := by
  induction l with
  | nil => rfl
  | cons a l ih =>
    rw [List.flatMap_cons, walk_append, back a (by simp)]
    exact ih fun b mem => back b (List.mem_cons_of_mem a mem)

theorem walk_pass {start a b : NormCmd} (first : start.follows a = true) (again : a.follows a = true)
    (last : a.follows b = true) (only : start.follows b = true) {n : ℕ} (pos : 0 < n) :
    walk start ((List.range n).map fun j => if j + 1 = n then b else a) = some b := by
  obtain ⟨k, rfl⟩ : ∃ k, n = k + 1 := ⟨n - 1, by omega⟩
  have before : ((List.range k).map fun j => if j + 1 = k + 1 then b else a) = List.replicate k a := by
    refine List.eq_replicate_iff.2 ⟨by simp, fun c mem => ?_⟩
    obtain ⟨j, below, rfl⟩ := List.mem_map.1 mem
    have := List.mem_range.1 below
    exact if_neg (by omega)
  have repeated : ∀ k start, start.follows a = true → start.follows b = true →
      walk start (List.replicate k a ++ [b]) = some b := by
    intro k
    induction k with
    | zero =>
      intro start _ only
      simp [walk, only]
    | succ k ih =>
      intro start first _
      rw [List.replicate_succ, List.cons_append, walk, if_pos first]
      exact ih a again last
  rw [List.range_succ, List.map_append, before]
  simpa using repeated k start first only

/-- The commands of a row of `n` blocks. -/
def rowCommands (act n : ℕ) : List NormCmd :=
  (List.range 3).flatMap fun cmd =>
    (List.range n).map fun j => ofCode (normCmd act cmd (j + 1 = n))

theorem walk_rowCommands (act : ℕ) {n : ℕ} (pos : 0 < n) :
    walk .reset (rowCommands act n) = some .reset := by
  have codes (cmd : ℕ) : ((List.range n).map fun j => ofCode (normCmd act cmd (j + 1 = n))) =
      (List.range n).map fun j => if j + 1 = n then ofCode (normCmd act cmd true)
        else ofCode (normCmd act cmd false) := by
    apply List.map_congr_left
    intro j _
    by_cases last : j + 1 = n <;> simp [last]
  have three : List.range 3 = [0, 1, 2] := rfl
  rw [rowCommands, three]
  simp only [List.flatMap_cons, List.flatMap_nil, codes, walk_append, List.append_nil]
  by_cases layer : act = layernorm
  all_goals
    simp only [normCmd, layer, if_true, if_false, ofCode, Bool.false_eq_true]
    iterate 2 rw [walk_pass (by rfl) (by rfl) (by rfl) (by rfl) pos, Option.bind_some]
    exact walk_pass rfl rfl rfl rfl pos

/-! ## The commands of an id -/

/-- Whatever the id named before, these steps give an id these commands. -/
def Gives (id : ℕ) (l : List NormStep) (cs : List NormCmd) : Prop :=
  ∀ cur rest, ∃ cur', commandsOf id cur (l ++ rest) = cs ++ commandsOf id cur' rest

theorem Gives.flatMap {α : Type} {id : ℕ} {l : List α} {f : α → List NormStep} {g : α → List NormCmd}
    (gives : ∀ a ∈ l, Gives id (f a) (g a)) : Gives id (l.flatMap f) (l.flatMap g) := by
  induction l with
  | nil => exact fun cur rest => ⟨cur, rfl⟩
  | cons a l ih =>
    intro cur rest
    obtain ⟨next, first⟩ := gives a (by simp) cur (l.flatMap f ++ rest)
    obtain ⟨last, others⟩ := ih (fun b mem => gives b (List.mem_cons_of_mem a mem)) next rest
    refine ⟨last, ?_⟩
    rw [List.flatMap_cons, List.flatMap_cons, List.append_assoc, first, others, List.append_assoc]

theorem gives_pass (id statId n : ℕ) (x : ℕ → LoopMatmul.Piece) (norm : ℕ → ℕ) :
    Gives id (.config statId :: (List.range n).map fun j => .store (x j) (norm j))
      (if statId = id then (List.range n).map fun j => ofCode (norm j) else []) := by
  intro cur rest
  refine ⟨statId, ?_⟩
  rw [List.cons_append, commandsOf]
  induction List.range n with
  | nil => simp
  | cons j js ih =>
    rw [List.map_cons, List.cons_append, commandsOf, ih]
    split_ifs <;> rfl

theorem flatMap_range_ite {α : Type} (k id : ℕ) (l : List α) :
    ((List.range k).flatMap fun i => if i = id then l else []) = if id < k then l else [] := by
  induction k with
  | zero => simp
  | succ k ih =>
    rw [List.range_succ, List.flatMap_append, ih, List.flatMap_singleton]
    by_cases before : id < k
    · simp [before, show k ≠ id by omega, show id < k + 1 by omega]
    · by_cases here : k = id
      · simp [here]
      · simp [before, here, show ¬ id < k + 1 by omega]

theorem normSweep_follows (id cur n maxI maxJ act : ℕ) (rows : ℕ → ℕ)
    (x : ℕ → ℕ → ℕ → LoopMatmul.Piece) (pos : 0 < maxJ) :
    walk .reset (commandsOf id cur
      (normSweep n maxI maxJ rows (fun cmd j => normCmd act cmd (j + 1 = maxJ)) x)) = some .reset := by
  have gives : Gives id
      (normSweep n maxI maxJ rows (fun cmd j => normCmd act cmd (j + 1 = maxJ)) x)
      ((List.range maxI).flatMap fun i => (steps n (rows i)).flatMap fun row =>
        (List.range 3).flatMap fun cmd => (List.range (min n (rows i - row))).flatMap fun statId =>
          if statId = id then
            (List.range maxJ).map fun j => ofCode (normCmd act cmd (j + 1 = maxJ))
          else []) := by
    apply Gives.flatMap
    intro i _
    apply Gives.flatMap
    intro row _
    apply Gives.flatMap
    intro cmd _
    apply Gives.flatMap
    intro statId _
    apply gives_pass
  obtain ⟨last, commands⟩ := gives cur []
  rw [List.append_nil] at commands
  rw [commands, commandsOf, List.append_nil]
  apply walk_flatMap
  intro i _
  apply walk_flatMap
  intro row _
  -- an id has the row that it is named for, or none of these rows
  simp only [flatMap_range_ite]
  by_cases named : id < min n (rows i - row)
  · simp only [named, if_true]
    exact walk_rowCommands act pos
  · simp only [named, if_false]
    rfl

theorem stC_commands_follow {p : LoopMatmul.Params} {req : StCReq}
    (sized : (req.grid p).Sized p (req.len p) p.mvoutRowsBits p.mvoutColsBits)
    (memory : RowsInMemory p req.dramAddr req.dramStride req.maxI req.maxJ)
    (blocks : 0 < req.maxBlocks p) (pos : 0 < req.maxJ) (id cur : ℕ) :
    walk .reset (commandsOf id cur
      ((req.normStream p).flatMap (LoopMatmul.OutCmd.normSteps p.blockSize (req.grid p).bytes))) =
      some .reset := by
  rw [StCReq.normStream_steps sized memory blocks]
  apply normSweep_follows
  exact pos

/-- In every run StC hands out, for a normalization, commands that the statistics can follow. -/
theorem stC_streams_follow {p : LoopMatmul.Params} {hw : Simulator.Hw} {c : LoopMatmul.Cfg} {base : ℕ}
    (same : p.Matches hw) (wide : p.Wide) (halves : c.InHalves p) (base_le : base ≤ p.maxAccAddr / 2)
    (normal : c.act = layernorm ∨ c.act = LoopMatmul.softmax) (given : c.cDramAddr ≠ 0)
    (memory : RowsInMemory p c.cDramAddr c.cDramStride c.maxI c.maxJ) :
    ∃ es, (LoopMatmul.stC p).Streams (c.stCReq p false base) es ∧ ∀ id cur,
      walk .reset (commandsOf id cur (es.flatMap (LoopMatmul.OutCmd.normSteps p.blockSize
        ((c.stCReq p false base).grid p).bytes))) = some .reset := by
  refine ⟨_, LoopMatmul.norm_streams same wide halves base_le normal given, fun id cur => ?_⟩
  apply stC_commands_follow (halves.sizedC wide base_le) memory
  · exact LoopMatmul.stC_blocks_pos wide halves base_le
  · exact halves.posJ

theorem softmaxCfg_follows :
    ∃ es, (LoopMatmul.stC (.ofArray fourArray)).Streams
        (LoopMatmul.softmaxCfg.stCReq (.ofArray fourArray) false 16) es ∧
      ∀ id cur, walk .reset (commandsOf id cur (es.flatMap (LoopMatmul.OutCmd.normSteps 4 1))) = some .reset :=
  stC_streams_follow LoopMatmul.fourArray_matches LoopMatmul.fourArray_wide LoopMatmul.softmaxCfg_halves
    (by decide) (.inr rfl) (by decide) (by decide)

end Gemmini.Normalizer
