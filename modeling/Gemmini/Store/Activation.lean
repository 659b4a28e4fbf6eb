import Gemmini.Simulator.Effects

/-!
# The activation of a store

`CONFIG_ST` gives two bits of the activation, `CONFIG_NORM` the third, which stands for softmax.  The
store controller keeps the three bits as last given, the functional model the activation itself.
-/

namespace Gemmini.Store

open Simulator

/-- A `CONFIG_ST` or a `CONFIG_NORM`. -/
structure ConfigCmd where
  rs1 : ℕ
  rs2 : ℕ
  kind : field rs1 0 2 = 2 ∨ field rs1 0 2 = 3

namespace ConfigCmd

variable (c : ConfigCmd)

def isSt : Bool := field c.rs1 0 2 == 2

/-- The activation bits of `CONFIG_ST`. -/
def activation : ℕ := field c.rs1 2 2

def setStatsIdOnly : Bool := flag c.rs1 17

def actMsb : Bool := flag c.rs1 16

/-- A `CONFIG_NORM` that is about more than the statistics. -/
def configures : Bool := !c.isSt && !c.setStatsIdOnly

end ConfigCmd

/-- The register `activation` after a command.  Without normalizations `CONFIG_NORM` is no
configuration. -/
def configActivation (hasNormalizations : Bool) (activation : ℕ) (c : ConfigCmd) : ℕ :=
  if c.isSt then c.activation
  else if hasNormalizations && !c.setStatsIdOnly then c.actMsb.toNat * 2 ^ 2 + field activation 0 2
  else activation

def storeActivation (hasNormalizations : Bool) (activation : ℕ) (cmds : List ConfigCmd) : ℕ :=
  cmds.foldl (configActivation hasNormalizations) activation

def configs (s : State) (cmds : List ConfigCmd) : State :=
  cmds.foldl (fun s c => s.config c.rs1 c.rs2) s

open ConfigCmd (isSt configures actMsb)

section Commands

variable {s : State} {c : ConfigCmd}

theorem config_of_isSt (st : c.isSt = true) : s.config c.rs1 c.rs2 = s.configSt c.rs1 c.rs2 := by
  have kind : field c.rs1 0 2 = 2 := by simpa [isSt] using st
  simp only [State.config, kind]

theorem config_of_not_isSt (norm : c.isSt = false) : s.config c.rs1 c.rs2 = s.configNorm c.rs1 c.rs2 := by
  have other : field c.rs1 0 2 ≠ 2 := by simpa [isSt] using norm
  have kind : field c.rs1 0 2 = 3 := c.kind.resolve_left other
  simp only [State.config, kind]

theorem accAct_config_of_isSt (st : c.isSt = true) :
    (s.config c.rs1 c.rs2).accAct = s.selectAct c.activation := by
  rw [config_of_isSt st]
  rfl

theorem accAct_config_of_norm (norm : c.isSt = false) : (s.config c.rs1 c.rs2).accAct =
    if c.configures && c.actMsb then .softmax else s.accAct := by
  rw [config_of_not_isSt norm, State.configNorm]
  cases only : c.setStatsIdOnly with
  | true =>
    have set : flag c.rs1 17 = true := only
    rw [if_pos set]
    simp [configures, only]
  | false =>
    have unset : flag c.rs1 17 = false := only
    rw [if_neg (by rw [unset]; decide)]
    simp only [configures, norm, only, actMsb, State.require]
    rfl

theorem ok_config_of_norm (norm : c.isSt = false) (ok : (s.config c.rs1 c.rs2).ok = true) :
    s.ok = true ∧ ((c.configures && c.actMsb) = true → s.accAct = .none ∨ s.accAct = .softmax) := by
  rw [config_of_not_isSt norm, State.configNorm] at ok
  cases only : c.setStatsIdOnly with
  | true =>
    have set : flag c.rs1 17 = true := only
    rw [if_pos set] at ok
    refine ⟨ok, ?_⟩
    simp [configures, only]
  | false =>
    have unset : flag c.rs1 17 = false := only
    rw [if_neg (by rw [unset]; decide)] at ok
    simp only [State.require, Bool.and_eq_true, decide_eq_true_eq] at ok
    refine ⟨ok.1, fun sets => ok.2 ?_⟩
    rw [Bool.and_eq_true] at sets
    exact sets.2

end Commands

/-! ### After the latest `CONFIG_ST` -/

/-- The softmax bit that the last of some `CONFIG_NORM` commands gives. -/
def softmaxBit (norms : List ConfigCmd) : Option Bool :=
  (norms.filter configures).getLast?.map actMsb

def AsksSoftmax (norms : List ConfigCmd) : Prop := ∃ c ∈ norms, (c.configures && c.actMsb) = true

theorem softmaxBit_append (norms : List ConfigCmd) (c : ConfigCmd) :
    softmaxBit (norms ++ [c]) = if c.configures then some c.actMsb else softmaxBit norms := by
  unfold softmaxBit
  rw [List.filter_append]
  split_ifs with configures
  · simp [List.filter_cons_of_pos, configures]
  · simp [configures]

theorem asksSoftmax_append (norms : List ConfigCmd) (c : ConfigCmd) :
    AsksSoftmax (norms ++ [c]) ↔ AsksSoftmax norms ∨ (c.configures && c.actMsb) = true := by
  simp [AsksSoftmax, or_and_right, exists_or]

theorem asksSoftmax_of_softmaxBit {norms : List ConfigCmd} (bit : softmaxBit norms = some true) :
    AsksSoftmax norms := by
  obtain ⟨c, last, msb⟩ := Option.map_eq_some_iff.mp bit
  obtain ⟨mem, configures⟩ := List.mem_filter.mp (List.mem_of_getLast? last)
  exact ⟨c, mem, by rw [configures, msb]; rfl⟩

/-- `act` and the register `reg` of the hardware after a `CONFIG_ST` with `bits` and some `CONFIG_NORM`;
`stale` says that softmax was set before. -/
structure Following (hasNormalizations : Bool) (bits : ℕ) (stale : Prop) (norms : List ConfigCmd)
    (act : Activation) (reg : ℕ) : Prop where
  bits_lt : bits < 4
  asked : AsksSoftmax norms → bits = 0
  softmax : act = .softmax ↔ bits = 0 ∧ (stale ∨ AsksSoftmax norms)
  plain : act ≠ .softmax → act.toNat = bits
  reg_eq : reg = (hasNormalizations && (softmaxBit norms == some true)).toNat * 4 + bits

namespace Following

variable {hasNormalizations : Bool} {bits : ℕ} {stale : Prop} {norms : List ConfigCmd}
  {act : Activation} {reg : ℕ}

theorem eq_iff (h : Following hasNormalizations bits stale norms act reg) : act.toNat = reg ↔
    (bits = 0 ∧ stale ∨ AsksSoftmax norms →
      hasNormalizations = true ∧ softmaxBit norms = some true) := by
  have expected : (hasNormalizations && (softmaxBit norms == some true)) = true ↔
      hasNormalizations = true ∧ softmaxBit norms = some true := by simp
  by_cases softmax : act = .softmax
  · obtain ⟨zero, why⟩ := h.softmax.mp softmax
    rw [h.reg_eq, softmax, zero, ← expected]
    cases hasNormalizations && (softmaxBit norms == some true) with
    | true => simp [Activation.toNat]
    | false =>
      have differs : ¬(0 = 0 ∧ stale ∨ AsksSoftmax norms → false = true) := fun all =>
        Bool.false_ne_true (all (why.imp_left fun old => ⟨rfl, old⟩))
      exact iff_of_false (by decide) differs
  · have never : ¬(bits = 0 ∧ stale ∨ AsksSoftmax norms) := by
      rintro (⟨zero, old⟩ | asks)
      · exact softmax (h.softmax.mpr ⟨zero, .inl old⟩)
      · exact softmax (h.softmax.mpr ⟨h.asked asks, .inr asks⟩)
    have cleared : (hasNormalizations && (softmaxBit norms == some true)) = false := by
      rw [Bool.eq_false_iff]
      intro set
      exact never (.inr (asksSoftmax_of_softmaxBit (expected.mp set).2))
    rw [h.reg_eq, h.plain softmax, cleared]
    simp [never]

theorem start {s : State} {c : ConfigCmd} :
    Following hasNormalizations c.activation (s.accAct = .softmax) [] (s.selectAct c.activation)
      c.activation where
  bits_lt := Nat.mod_lt _ (by decide)
  asked := by simp [AsksSoftmax]
  softmax := by
    have lt : c.activation < 4 := Nat.mod_lt _ (by decide)
    interval_cases c.activation <;> simp [State.selectAct, AsksSoftmax]
  plain := by
    have lt : c.activation < 4 := Nat.mod_lt _ (by decide)
    interval_cases c.activation
    · by_cases old : s.accAct = .softmax <;> simp [State.selectAct, old, Activation.toNat]
    all_goals simp [State.selectAct, Activation.toNat]
  reg_eq := by simp [softmaxBit]

theorem field_reg (h : Following hasNormalizations bits stale norms act reg) : field reg 0 2 = bits := by
  have lt := h.bits_lt
  rw [h.reg_eq, field]
  omega

theorem next {s : State} {c : ConfigCmd} (h : Following hasNormalizations bits stale norms s.accAct reg)
    (norm : c.isSt = false) (ok : (s.config c.rs1 c.rs2).ok = true) :
    Following hasNormalizations bits stale (norms ++ [c]) (s.config c.rs1 c.rs2).accAct
      (configActivation hasNormalizations reg c) := by
  obtain ⟨-, asserted⟩ := ok_config_of_norm norm ok
  have asked : AsksSoftmax (norms ++ [c]) → bits = 0 := by
    rw [asksSoftmax_append]
    rintro (before | now)
    · exact h.asked before
    · rcases asserted now with none | softmax
      · rw [← h.plain (by rw [none]; decide), none]
        rfl
      · exact (h.softmax.mp softmax).1
  refine ⟨h.bits_lt, asked, ?_, ?_, ?_⟩
  · rw [accAct_config_of_norm norm]
    split_ifs with sets
    · have asks : AsksSoftmax (norms ++ [c]) := (asksSoftmax_append norms c).mpr (.inr sets)
      exact ⟨fun _ => ⟨asked asks, .inr asks⟩, fun _ => rfl⟩
    · rw [h.softmax, asksSoftmax_append]
      simp [sets]
  · rw [accAct_config_of_norm norm]
    split_ifs with sets
    · intro no
      exact absurd rfl no
    · exact h.plain
  · rw [configActivation, if_neg (by rw [norm]; decide), softmaxBit_append, h.field_reg]
    cases only : c.setStatsIdOnly with
    | true => simpa [configures, norm, only] using h.reg_eq
    | false =>
      cases hasNormalizations with
      | true => simp [configures, norm, only]
      | false => simpa [configures, norm, only] using h.reg_eq

theorem run {s : State} {c : ConfigCmd} (reg : ℕ) (st : c.isSt = true)
    (areNorm : ∀ n ∈ norms, isSt n = false) (ok : (configs s (c :: norms)).ok = true) :
    Following hasNormalizations c.activation (s.accAct = .softmax) norms
      (configs s (c :: norms)).accAct (storeActivation hasNormalizations reg (c :: norms)) := by
  induction norms using List.reverseRecOn with
  | nil =>
    have first : Following hasNormalizations c.activation (s.accAct = .softmax) []
        (s.selectAct c.activation) c.activation := start
    rw [← accAct_config_of_isSt st] at first
    have register : storeActivation hasNormalizations reg [c] = c.activation := if_pos st
    rw [register]
    exact first
  | append_singleton norms n ih =>
    have norm : isSt n = false := areNorm n (by simp)
    have split : configs s (c :: (norms ++ [n])) = (configs s (c :: norms)).config n.rs1 n.rs2 := by
      simp [configs]
    have split' : storeActivation hasNormalizations reg (c :: (norms ++ [n])) =
        configActivation hasNormalizations (storeActivation hasNormalizations reg (c :: norms)) n := by
      simp [storeActivation]
    rw [split] at ok ⊢
    rw [split']
    apply next
    · apply ih
      · intro m mem
        exact areNorm m (by simp [mem])
      · exact (ok_config_of_norm norm ok).1
    · exact norm
    · exact ok

end Following

/-- Softmax is set at the end only if the last `CONFIG_NORM` after the latest `CONFIG_ST` says so. -/
def Fresh (hasNormalizations : Bool) (s : State) (st : ConfigCmd) (norms : List ConfigCmd) : Prop :=
  st.activation = 0 ∧ s.accAct = .softmax ∨ AsksSoftmax norms →
    hasNormalizations = true ∧ softmaxBit norms = some true

theorem configs_append (s : State) (first second : List ConfigCmd) :
    configs s (first ++ second) = configs (configs s first) second := List.foldl_append

theorem storeActivation_of_isSt {hasNormalizations : Bool} {st : ConfigCmd} (isSt : st.isSt = true)
    (reg : ℕ) (before norms : List ConfigCmd) :
    storeActivation hasNormalizations reg (before ++ st :: norms) =
      norms.foldl (configActivation hasNormalizations) st.activation := by
  rw [storeActivation, List.foldl_append, List.foldl_cons, configActivation, if_pos isSt]

theorem toNat_injective : Function.Injective Activation.toNat := by
  intro a b same
  cases a <;> cases b <;> first | rfl | cases same

/-- After commands that the functional model accepts its activation is the one in hardware if and
only if softmax, where it is set, was asked for last; and then it depends on the latest `CONFIG_ST` and
what follows it alone. -/
theorem accAct_eq_storeActivation_iff {hasNormalizations : Bool} {s : State} {reg : ℕ}
    {before norms : List ConfigCmd} {st : ConfigCmd} (isSt : st.isSt = true)
    (areNorm : ∀ n ∈ norms, ConfigCmd.isSt n = false)
    (ok : (configs s (before ++ st :: norms)).ok = true) :
    ((configs s (before ++ st :: norms)).accAct.toNat =
        storeActivation hasNormalizations reg (before ++ st :: norms) ↔
      Fresh hasNormalizations (configs s before) st norms) ∧
    ∀ s' before', (configs s' (before' ++ st :: norms)).ok = true →
      Fresh hasNormalizations (configs s before) st norms →
      Fresh hasNormalizations (configs s' before') st norms →
      (configs s (before ++ st :: norms)).accAct = (configs s' (before' ++ st :: norms)).accAct := by
  have agrees : ∀ s before, (configs s (before ++ st :: norms)).ok = true →
      ((configs s (before ++ st :: norms)).accAct.toNat =
          norms.foldl (configActivation hasNormalizations) st.activation ↔
        Fresh hasNormalizations (configs s before) st norms) := by
    intro s before ok
    rw [configs_append] at ok ⊢
    have following : Following hasNormalizations st.activation ((configs s before).accAct = .softmax) norms
        (configs (configs s before) (st :: norms)).accAct (storeActivation hasNormalizations 0 (st :: norms)) :=
      Following.run 0 isSt areNorm ok
    rw [← storeActivation_of_isSt isSt 0 [] norms]
    exact following.eq_iff
  refine ⟨?_, ?_⟩
  · rw [storeActivation_of_isSt isSt]
    exact agrees s before ok
  · intro s' before' ok' fresh fresh'
    apply toNat_injective
    rw [(agrees s before ok).mpr fresh, (agrees s' before' ok').mpr fresh']

/-- `CONFIG_ST` without an activation. -/
def configUnpooled : ConfigCmd := ⟨2, 0, .inl rfl⟩

/-- `CONFIG_NORM` with the softmax bit. -/
def configSoftmax : ConfigCmd := ⟨2 ^ 16 + 3, 0, .inr rfl⟩

theorem softmax_configured :
    (configs fresh ([] ++ configUnpooled :: [configSoftmax])).accAct.toNat =
      storeActivation true 0 ([] ++ configUnpooled :: [configSoftmax]) :=
  (accAct_eq_storeActivation_iff rfl (by simp [configSoftmax, isSt, field]) rfl).1.mpr
    fun _ => ⟨rfl, rfl⟩

/-- A softmax, and then a store without an activation: the functional model goes on with softmax. -/
theorem softmax_kept :
    let s := configs fresh [configUnpooled, configSoftmax, configUnpooled]
    s.ok = true ∧ s.accAct = .softmax ∧
      storeActivation true 0 [configUnpooled, configSoftmax, configUnpooled] = Activation.none.toNat ∧
      (configs fresh [configUnpooled]).accAct = .none :=
  ⟨rfl, rfl, rfl, rfl⟩

end Gemmini.Store
