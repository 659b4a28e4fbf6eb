import Gemmini.Execute.Configured

/-!
# Reads of rows that are still to be written

When it issues the preload of a pair, the controller compares the first addresses of D, A and B with the
destinations of the tags in the array.  That is enough as long as a destination in progress that shares
a row with the operands begins at one of their first rows, and its tag has reached the array by then.
-/

namespace Gemmini.Execute

open ReservationStation (Cmd)
open Lockstep

variable {E : Type} {P : Params} {r : Config} {s : State E} {inp : Input E}

/-! ### The rows of a pair -/

def operandRows (P : Params) (r : Config) (l : Lane) (x : BitVec 64) : List LocalRow :=
  let o := operandOf P r .mulPre l x
  if o.isGarbage then []
  else (List.range o.rows).filterMap fun i =>
    readRow P.array (o.addr.add P.array.geometry (if l = .a then i * r.aAddrStride else i))

def pairRows (P : Params) (r : Config) (preload compute : Issued) : List LocalRow :=
  operandRows P r .d preload.cmd.rs1 ++ operandRows P r .a compute.cmd.rs1 ++
    operandRows P r .b compute.cmd.rs2

def destination (P : Params) (r : Config) (preload : Issued) : List LocalRow :=
  let c := LocalAddr.ofWord P.array.geometry preload.cmd.rs2
  if c.isGarbage P.array.geometry then []
  else (List.range P.array.dim).filterMap fun i =>
    if writeThisRow P.dataflow r.toRegs (rowsDefault P.array preload.cmd.rs2) P.array.dim i then
      writeRow P.array (wAddress P.array P.dataflow r.toRegs c P.array.dim i)
    else none

def State.command (s : State E) (i : ℕ) : Issued := s.received.getD i ⟨⟨.config, 0, 0⟩, ⟨false, 0⟩⟩

/-- The step feeds the D of a preload; that is the command it is owned by. -/
def Plan.preloads (pl : Plan) : Prop := pl.performing ≠ .singleMul

instance (pl : Plan) : Decidable pl.preloads := inferInstanceAs (Decidable (_ ≠ _))

def State.inProgress (s : State E) : List Plan := s.steps.drop s.completed

/-! ### Streams of pairs -/

def Paired (cmds : List Issued) : Prop :=
  ∀ i c, cmds[i]? = some c → (if i % 2 = 0 then doPreloads c else doComputes c) = true

def Pairs (s : State E) (inp : Input E) : Prop :=
  ∀ c ∈ inp.cmd, (if s.received.length % 2 = 0 then doPreloads c else doComputes c) = true

instance (s : State E) (inp : Input E) : Decidable (Pairs s inp) := by
  unfold Pairs
  infer_instance

theorem Paired.append {cmds : List Issued} (h : Paired cmds) {new : List Issued}
    (short : new.length ≤ 1)
    (ok : ∀ c ∈ new, (if cmds.length % 2 = 0 then doPreloads c else doComputes c) = true) :
    Paired (cmds ++ new) := by
  intro i c at'
  rcases lt_or_ge i cmds.length with lt | ge
  · rw [List.getElem?_append_left lt] at at'
    exact h i c at'
  · rw [List.getElem?_append_right ge] at at'
    have lt := (List.getElem?_eq_some_iff.mp at').1
    obtain rfl : i = cmds.length := by omega
    exact ok c (List.mem_of_getElem? at')

theorem command_next [Zero E] {i : ℕ} (lt : i < s.received.length) :
    (s.next P inp).command i = s.command i := by
  show (s.received ++ s.newCmd P inp).getD i _ = _
  rw [State.command, List.getD_eq_getElem?_getD, List.getD_eq_getElem?_getD,
    List.getElem?_append_left lt]

theorem Program.head_eq (h : Program P r s) (i : ℕ) : s.head i = s.command (s.retired + i) := by
  rw [State.head, State.command, h.cmds, List.getD_eq_getElem?_getD, List.getD_eq_getElem?_getD,
    List.getElem?_drop]

section Kind

variable (paired : Paired s.received) (program : Program P r s) {i : ℕ} (lt : i < s.cmds.length)

include paired program lt

theorem Paired.kind :
    (if (s.retired + i) % 2 = 0 then doPreloads (s.head i) else doComputes (s.head i)) = true := by
  refine paired (s.retired + i) (s.head i) ?_
  have at' : s.cmds[i]? = some (s.head i) := by
    rw [head_eq_get lt, List.getElem?_eq_getElem lt]
  rw [program.cmds, List.getElem?_drop] at at'
  exact at'

theorem Paired.even (preload : doPreloads (s.head i) = true) : (s.retired + i) % 2 = 0 := by
  have kind := paired.kind program lt
  by_contra odd
  rw [if_neg odd] at kind
  rw [not_doPreloads kind] at preload
  cases preload

theorem Paired.odd (compute : doComputes (s.head i) = true) : (s.retired + i) % 2 = 1 := by
  have kind := paired.kind program lt
  rcases Nat.mod_two_eq_zero_or_one (s.retired + i) with even | odd
  · rw [if_pos even, not_doPreloads compute] at kind
    cases kind
  · exact odd

end Kind

theorem Paired.not_config {cmds : List Issued} (paired : Paired cmds) : ∀ c ∈ cmds, doConfig c = false := by
  intro c mem
  obtain ⟨i, at'⟩ := List.mem_iff_getElem?.mp mem
  have kind := paired i c at'
  split_ifs at kind
  · exact not_doConfig_of_preload kind
  · exact not_doConfig_of_compute kind

theorem Paired.config_eq (paired : Paired s.received) (program : Program P r s) : s.config = r := by
  rw [program.config]
  exact Config.after_of_ne r fun c mem => paired.not_config c (List.mem_of_mem_take mem)

theorem Paired.not_action_config (paired : Paired s.received) (program : Program P r s) :
    s.action P ≠ .config := by
  intro action
  have long := Program.valid_of_config action
  have plain : doConfig (s.head 0) = false := by
    refine paired.not_config _ (List.mem_of_mem_drop (i := s.retired) ?_)
    rw [← program.cmds, head_eq_get long]
    exact List.getElem_mem long
  unfold State.action at action
  rw [plain] at action
  simp only [Bool.false_and, Bool.false_eq_true, if_false] at action
  split_ifs at action

/-! ### The commands of a step -/

section Commands

variable {st : Step} {earlier : List Plan} {n : Lane → ℕ} (h : Stepping P s st earlier n)

include h

theorem Stepping.owner_d : st.plan.owner.d + 1 = s.retired + st.performing.commands := by
  obtain ⟨-, eq⟩ := performing_of_current h.current
  have can := h.can
  have owner : st.plan.owner.d = s.retired +
      if startInputting P s.config st.performing .d then preloadCmdPlace s.head else 0 := by
    rw [eq]
    rfl
  rw [owner]
  cases k : st.performing with
  | singlePreload =>
    rw [k] at can
    rw [preloadCmdPlace_of_preload can.1]
    rfl
  | singleMul => rfl
  | mulPre =>
    rw [k] at can
    rw [preloadCmdPlace_of_compute can.1]
    rfl

theorem Stepping.owner_of_preloads (preloads : st.plan.preloads) :
    st.plan.owner.d = s.retired + preloadCmdPlace s.head ∧
      doPreloads (s.head (preloadCmdPlace s.head)) = true ∧
      preloadCmdPlace s.head < s.cmds.length := by
  have owner := h.owner_d
  have can := h.can
  have preloads : st.performing ≠ .singleMul := preloads
  cases k : st.performing with
  | singlePreload =>
    rw [k] at can owner
    rw [preloadCmdPlace_of_preload can.1]
    have := can.2
    exact ⟨Nat.add_right_cancel owner, can.1, by omega⟩
  | singleMul => exact absurd k preloads
  | mulPre =>
    rw [k] at can owner
    rw [preloadCmdPlace_of_compute can.1]
    exact ⟨Nat.add_right_cancel owner, can.2.1, can.2.2.1⟩

theorem Stepping.behind_of_preloads (hazards : P.rawHazardsAreImpossible = false)
    (preloads : st.plan.preloads) : preloadCmdPlace s.head + 1 < s.cmds.length := by
  have can := h.can
  have preloads : st.performing ≠ .singleMul := preloads
  cases k : st.performing with
  | singlePreload =>
    rw [k] at can
    rw [preloadCmdPlace_of_preload can.1]
    exact can.2
  | singleMul => exact absurd k preloads
  | mulPre =>
    rw [k] at can
    rw [preloadCmdPlace_of_compute can.1]
    refine can.2.2.2 ?_
    rw [State.thirdInstructionNeeded, hazards, Bool.not_false, Bool.or_true]

theorem Stepping.pops_eq [Zero E] : s.pops P inp = if s.aboutToFireAllRows P inp st then st.performing.commands else 0 := by
  rcases control_of_current h.current with ⟨control, action⟩ | ⟨control, perform⟩
  · have more : s.aboutToFireAllRows P inp st = false := by
      by_contra last
      have compute := h.compute_of_last (Bool.of_not_eq_false last)
      rw [control] at compute
      cases compute
    rw [State.pops, control, more]
    dsimp only
    rw [if_neg (by rw [action]; exact State.Action.noConfusion), if_neg Bool.false_ne_true]
  · rw [State.pops, control, perform, h.finishes_eq control]
    rfl

omit h in
theorem pops_of_no_current [Zero E] (none' : s.current P = none) (plain : s.action P ≠ .config)
    (inp : Input E) : s.pops P inp = 0 := by
  have idle := (next_of_no_current none' inp).1
  rw [State.pops]
  cases control : s.control with
  | waitingForCmd => exact if_neg plain
  | compute => exact absurd control idle
  | flush => rfl
  | flushing => rfl

end Commands

/-! ### The steps in the order of the program -/

theorem getElem?_concat_cases {α : Type} {l : List α} {x y : α} {i : ℕ}
    (at' : (l ++ [x])[i]? = some y) : l[i]? = some y ∨ i = l.length ∧ y = x := by
  rcases lt_or_ge i l.length with lt | ge
  · rw [List.getElem?_append_left lt] at at'
    exact .inl at'
  · rw [List.getElem?_append_right ge] at at'
    have lt := (List.getElem?_eq_some_iff.mp at').1
    rw [List.length_singleton] at lt
    obtain rfl : i = l.length := by omega
    rw [Nat.sub_self, List.getElem?_cons_zero] at at'
    exact .inr ⟨rfl, (Option.some.inj at').symm⟩

theorem Stepping.earlier_prefix {st : Step} {earlier : List Plan} {n : Lane → ℕ}
    (h : Stepping P s st earlier n) : earlier <+: s.steps ∧ s.steps <+: earlier ++ [st.plan] := by
  rcases h.steps with ⟨-, steps⟩ | ⟨-, steps⟩
  · rw [steps]
    exact ⟨List.prefix_rfl, List.prefix_append _ _⟩
  · rw [steps]
    exact ⟨List.prefix_append _ _, List.prefix_rfl⟩

/-- Every preload that has left the queue has been fed, in the order of the program. -/
structure Numbered (P : Params) (r : Config) (s : State E) : Prop where
  program : Program P r s
  paired : Paired s.received
  fed : ∀ q < s.retired, q % 2 = 0 → ∃ pl ∈ s.steps, pl.preloads ∧ pl.owner.d = q
  past : ∀ i pl, s.steps[i]? = some pl → i + 1 < s.steps.length ∨ s.control ≠ .compute →
    pl.owner.d < s.retired
  ordered : s.steps.Pairwise fun a b => a.owner.d < b.owner.d
  known : ∀ pl ∈ s.steps, pl.owner.d < s.received.length
  pair : ∀ pl ∈ s.steps, pl.preloads → pl.owner.d % 2 = 0 ∧ pl.owner.d + 1 < s.received.length

namespace Numbered

theorem init (h : s.Init) (config : s.config = r) : Numbered P r s where
  program := .init h config
  paired i c at' := by
    rw [h.received] at at'
    cases at'
  fed q lt := by
    rw [h.retired] at lt
    cases lt
  past i pl at' := by
    rw [h.steps] at at'
    cases at'
  ordered := by
    rw [h.steps]
    exact List.Pairwise.nil
  known pl mem := by
    rw [h.steps] at mem
    cases mem
  pair pl mem := by
    rw [h.steps] at mem
    cases mem

section Step

variable {st : Step} {earlier : List Plan} {n : Lane → ℕ}

theorem plan_ok (h : Numbered P r s) (hazards : P.rawHazardsAreImpossible = false)
    (stepping : Stepping P s st earlier n) :
    s.retired ≤ st.plan.owner.d ∧ st.plan.owner.d < s.received.length ∧
      (st.plan.preloads → st.plan.owner.d % 2 = 0 ∧ st.plan.owner.d + 1 < s.received.length) := by
  have owner := stepping.owner_d
  have long := (not_config_of_issuable stepping.can).1
  have length := h.program.length
  have one : 1 ≤ st.performing.commands := by
    rw [Performing.commands]
    split_ifs <;> decide
  refine ⟨by omega, by omega, fun preloads => ?_⟩
  obtain ⟨owner, preload, lt⟩ := stepping.owner_of_preloads preloads
  have behind := stepping.behind_of_preloads hazards preloads
  have even := h.paired.even h.program lt preload
  omega

theorem earlier_past (h : Numbered P r s) (stepping : Stepping P s st earlier n) {i : ℕ} {pl : Plan}
    (at' : earlier[i]? = some pl) : pl.owner.d < s.retired := by
  have lt := (List.getElem?_eq_some_iff.mp at').1
  rcases stepping.steps with ⟨control, steps⟩ | ⟨-, steps⟩
  · exact h.past i pl (steps ▸ at') (.inr (by rw [control]; decide))
  · refine h.past i pl ?_ (.inl ?_)
    · rw [steps, List.getElem?_append_left lt, at']
    · rw [steps, List.length_append, List.length_singleton]
      omega

theorem plan_of_popped (h : Numbered P r s) (stepping : Stepping P s st earlier n) {q : ℕ}
    (from' : s.retired ≤ q) (below : q < s.retired + st.performing.commands) (even : q % 2 = 0) :
    st.plan.preloads ∧ st.plan.owner.d = q := by
  show st.performing ≠ .singleMul ∧ _
  have owner := stepping.owner_d
  have can := stepping.can
  have odd (long : 0 < s.cmds.length) (compute : doComputes (s.head 0) = true) :
      s.retired % 2 = 1 := h.paired.odd h.program long compute
  cases k : st.performing with
  | singlePreload =>
    rw [k] at owner below
    have one : Performing.singlePreload.commands = 1 := rfl
    exact ⟨by decide, by omega⟩
  | singleMul =>
    rw [k] at below can
    have one : Performing.singleMul.commands = 1 := rfl
    have := odd can.2 can.1
    omega
  | mulPre =>
    rw [k] at owner below can
    have two : Performing.mulPre.commands = 2 := rfl
    have long := can.2.2.1
    have := odd (by omega) can.1
    exact ⟨by decide, by omega⟩

end Step

variable [Zero E]

theorem paired_next (h : Numbered P r s) (pairs : Pairs s inp) :
    Paired (s.next P inp).received := by
  refine h.paired.append ?_ fun c mem => ?_
  · rw [State.newCmd]
    split_ifs
    · exact Option.length_toList_le
    · exact Nat.zero_le 1
  · rw [State.newCmd] at mem
    split_ifs at mem
    · exact pairs c (Option.mem_toList.mp mem)
    · cases mem

omit [Zero E] in
theorem received_le (P : Params) (s : State E) (inp : Input E) :
    s.received.length ≤ (s.received ++ s.newCmd P inp).length := by
  rw [List.length_append]
  exact Nat.le_add_right _ _

theorem next (h : Numbered P r s) (hazards : P.rawHazardsAreImpossible = false) (rows : Rows P s)
    (four : 4 ≤ P.array.dim) (wf : WellFormed P s) (pairs : Pairs s inp) :
    Numbered P r (s.next P inp) := by
  have longer : s.received.length ≤ (s.next P inp).received.length := received_le P s inp
  have retired : (s.next P inp).retired = s.retired + s.pops P inp := rfl
  cases current : s.current P with
  | none =>
    obtain ⟨idle, -, -, steps⟩ := next_of_no_current current inp
    rw [pops_of_no_current current (h.paired.not_action_config h.program)] at retired
    exact {
      program := h.program.next rows
      paired := h.paired_next pairs
      fed := by rw [steps, retired]; exact h.fed
      past := by
        rw [steps, retired]
        exact fun i pl at' _ => h.past i pl at' (.inr idle)
      ordered := by rw [steps]; exact h.ordered
      known := by
        rw [steps]
        exact fun pl mem => (h.known pl mem).trans_le longer
      pair := by
        rw [steps]
        exact fun pl mem preloads =>
          (h.pair pl mem preloads).imp_right fun lt => lt.trans_le longer }
  | some st =>
    obtain ⟨earlier, n, stepping⟩ := rows.stepping four wf current
    obtain ⟨from', known, pair⟩ := h.plan_ok hazards stepping
    obtain ⟨old, kept⟩ := stepping.earlier_prefix
    have steps : (s.next P inp).steps = earlier ++ [st.plan] := stepping.steps_next
    rw [stepping.pops_eq] at retired
    constructor
    · exact h.program.next rows
    · exact h.paired_next pairs
    · intro q lt even
      rw [steps]
      by_cases before : q < s.retired
      · obtain ⟨pl, mem, fed⟩ := h.fed q before even
        exact ⟨pl, kept.subset mem, fed⟩
      · have ends : s.aboutToFireAllRows P inp st = true := by
          by_contra more
          rw [retired, if_neg more] at lt
          omega
        rw [retired, if_pos ends] at lt
        exact ⟨st.plan, List.mem_append_right _ (List.mem_singleton_self _),
          h.plan_of_popped stepping (by omega) lt even⟩
    · intro i pl at' over'
      rw [steps] at at' over'
      rw [retired]
      rcases getElem?_concat_cases at' with before | ⟨rfl, rfl⟩
      · exact (h.earlier_past stepping before).trans_le (Nat.le_add_right _ _)
      · have ends : s.aboutToFireAllRows P inp st = true := by
          by_contra more
          rw [List.length_append, List.length_singleton] at over'
          have compute := (stepping.goesOn (Bool.of_not_eq_true more)).1
          exact over'.elim (Nat.lt_irrefl _) fun idle => idle compute
        have owner := stepping.owner_d
        rw [if_pos ends]
        omega
    · rw [steps, List.pairwise_append]
      refine ⟨h.ordered.sublist old.sublist, List.pairwise_singleton _ _, fun a mem b mem' => ?_⟩
      obtain ⟨i, at'⟩ := List.mem_iff_getElem?.mp mem
      rw [List.mem_singleton.mp mem']
      exact (h.earlier_past stepping at').trans_le from'
    · intro pl mem
      rw [steps, List.mem_append, List.mem_singleton] at mem
      rcases mem with mem | rfl
      · exact (h.known pl (old.subset mem)).trans_le longer
      · exact known.trans_le longer
    · intro pl mem preloads
      rw [steps, List.mem_append, List.mem_singleton] at mem
      rcases mem with mem | rfl
      · exact (h.pair pl (old.subset mem) preloads).imp_right fun lt => lt.trans_le longer
      · exact (pair preloads).imp_right fun lt => lt.trans_le longer

end Numbered

/-! ### The tags of the steps -/

/-- A tag of a step has the destination of the preload, and nothing is written without one. -/
structure TagOf (P : Params) (s : State E) (pl : Plan) (t : Tag) : Prop where
  preload : pl.preloads → t.addr = LocalAddr.ofWord P.array.geometry (s.command pl.owner.d).cmd.rs2 ∧
    t.rows = rowsDefault P.array (s.command pl.owner.d).cmd.rs2
  valid : t.robId.valid = true → pl.preloads

/-- The tags in the array are those of the oldest steps in progress; the control queue brings those of
the others. -/
structure Tagged (P : Params) (s : State E) (m : ℕ) : Prop where
  count : s.completed + s.tags.length = m
  tags : ∀ i t, s.tags[i]? = some t → ∃ pl, s.steps[s.completed + i]? = some pl ∧ TagOf P s pl t
  queue : ∀ e ∈ s.cntl, TagOf P s e.step.plan (s.requestOf P e).tag

theorem TagOf.next [Zero E] {pl : Plan} {t : Tag} (h : TagOf P s pl t)
    (known : pl.owner.d < s.received.length) : TagOf P (s.next P inp) pl t where
  preload preloads := by
    rw [command_next known]
    exact h.preload preloads
  valid := h.valid

theorem tagOf_entry {st : Step} {earlier : List Plan} {n : Lane → ℕ} (program : Program P r s)
    (stepping : Stepping P s st earlier n) :
    TagOf P s st.plan (s.requestOf P (s.entry P inp st)).tag := by
  obtain ⟨-, eq⟩ := performing_of_current stepping.current
  constructor
  · intro preloads
    obtain ⟨owner, -⟩ := stepping.owner_of_preloads preloads
    have preloads : st.performing ≠ .singleMul := preloads
    rw [owner, ← program.head_eq]
    show (if st.performing = .singleMul then _ else st.cAddr) = _ ∧ st.cRows = _
    rw [if_neg preloads, eq]
    exact ⟨rfl, rfl⟩
  · intro valid
    have valid : st.robId.valid = true := valid
    rw [eq, decode, Bool.and_eq_true, decide_eq_true_iff] at valid
    exact valid.1

theorem keptTags_cases (s : State E) (inp : Input E) : s.keptTags inp = s.tags ∨
    ∃ t, s.tags = t :: s.keptTags inp := by
  rw [State.keptTags]
  cases inp.out with
  | none => exact .inl rfl
  | some o =>
    cases tags : s.tags with
    | nil => exact .inl rfl
    | cons t rest =>
      dsimp only
      split_ifs
      · exact .inr ⟨t, rfl⟩
      · exact .inl rfl

namespace Tagged

variable {m : ℕ} {start : Lane → ℕ}

theorem init (h : s.Init) : Tagged P s 0 where
  count := by rw [h.completed, h.tags]; rfl
  tags i t at' := by
    rw [h.tags] at at'
    cases at'
  queue e mem := by
    rw [h.cntl] at mem
    cases mem

variable [Zero E]

theorem kept (h : Tagged P s m) (inp : Input E) :
    (s.next P inp).completed + (s.keptTags inp).length = m ∧
      ∀ i t, (s.keptTags inp)[i]? = some t →
        ∃ pl, s.steps[(s.next P inp).completed + i]? = some pl ∧ TagOf P s pl t := by
  have completed : (s.next P inp).completed =
      s.completed + (s.tags.length - (s.keptTags inp).length) := rfl
  have count := h.count
  rcases keptTags_cases s inp with same | ⟨t, tail⟩
  · rw [completed, same, Nat.sub_self, Nat.add_zero]
    exact ⟨count, h.tags⟩
  · have length : s.tags.length = (s.keptTags inp).length + 1 := congrArg List.length tail
    rw [completed, length, Nat.add_sub_cancel_left]
    refine ⟨by omega, fun i t at' => ?_⟩
    have at' : s.tags[i + 1]? = some t := by
      rw [tail, List.getElem?_cons_succ]
      exact at'
    obtain ⟨pl, step, tag⟩ := h.tags (i + 1) t at'
    exact ⟨pl, by rw [← step, Nat.add_assoc, Nat.add_comm 1 i], tag⟩

theorem next (h : Tagged P s m) (feeding : Feeding P s m start) (numbered : Numbered P r s)
    (hazards : P.rawHazardsAreImpossible = false) (rows : Rows P s) (four : 4 ≤ P.array.dim) (wf : WellFormed P s) :
    Tagged P (s.next P inp) (m + (s.taken P inp).isSome.toNat) := by
  obtain ⟨more, steps, -⟩ := rows.steps_next four wf inp
  obtain ⟨count, kept⟩ := h.kept inp
  have tags : (s.next P inp).tags = s.keptTags inp ++ ((s.taken P inp).map (·.tag)).toList := rfl
  have later {pl : Plan} {i : ℕ} {t : Tag} (step : s.steps[i]? = some pl) (tag : TagOf P s pl t) :
      (s.next P inp).steps[i]? = some pl ∧ TagOf P (s.next P inp) pl t := by
    refine ⟨?_, tag.next (numbered.known pl (List.mem_of_getElem? step))⟩
    rw [steps, List.getElem?_append_left (List.getElem?_eq_some_iff.mp step).1, step]
  constructor
  · rw [tags, List.length_append, ← Nat.add_assoc, count]
    cases s.taken P inp <;> rfl
  · intro i t at'
    rw [tags] at at'
    cases taken : s.taken P inp with
    | none =>
      rw [taken, Option.map_none, Option.toList_none, List.append_nil] at at'
      obtain ⟨pl, step, tag⟩ := kept i t at'
      exact ⟨pl, later step tag⟩
    | some req =>
      rw [taken, Option.map_some, Option.toList_some] at at'
      rcases getElem?_concat_cases at' with at' | ⟨rfl, rfl⟩
      · obtain ⟨pl, step, tag⟩ := kept i t at'
        exact ⟨pl, later step tag⟩
      · -- the request of the next step
        rw [count]
        cases queue : s.cntl with
        | nil =>
          rw [taken_of_nil queue] at taken
          cases taken
        | cons e rest =>
          obtain ⟨ok, -, serial, -⟩ := feeding.head queue
          rw [feeding.taken_of_head queue] at taken
          split_ifs at taken with fires
          obtain rfl := Option.some.inj taken
          rw [Bool.and_eq_true, Bool.and_eq_true] at fires
          rw [fires.1.2] at serial
          have serial : m = e.serial := serial
          refine ⟨e.step.plan, later (serial ▸ ok.plan) ?_⟩
          exact h.queue e (queue ▸ List.mem_cons_self)
  · intro e mem
    rcases cntl_next_cases mem with ⟨-, old⟩ | ⟨st, current, rfl⟩
    · have ok := feeding.chain.ok_of_mem old
      exact (h.queue e old).next (numbered.known _ (List.mem_of_getElem? ok.plan))
    · obtain ⟨earlier, n, stepping⟩ := rows.stepping four wf current
      obtain ⟨-, known, -⟩ := numbered.plan_ok hazards stepping
      exact (tagOf_entry numbered.program stepping).next known

end Tagged

/-! ### The rows that are read -/

def Covered (P : Params) (r : Config) (s : State E) (x : Read E) : Prop :=
  ∃ pl ∈ s.steps, pl.preloads ∧ pl.owner.d = 2 * (x.owner / 2) ∧ ∀ y, readRow P.array x.addr = some y →
    y ∈ pairRows P r (s.command pl.owner.d) (s.command (pl.owner.d + 1))

theorem mem_newReads {x : Read E} [Zero E] (mem : x ∈ s.newReads P inp) :
    ∃ st, s.current P = some st ∧ (st.lanes.get x.lane).inputting = true ∧
      (st.lanes.get x.lane).isGarbage = false ∧
      s.rowOf P x.lane < (st.lanes.get x.lane).rows ∧ x.addr = s.address P st x.lane ∧
      x.owner = st.owner.get x.lane := by
  rw [State.newReads] at mem
  cases current : s.current P with
  | none =>
    rw [current] at mem
    cases mem
  | some st =>
    rw [current] at mem
    obtain ⟨l, -, read⟩ := List.mem_filterMap.mp mem
    split_ifs at read with fires
    obtain rfl := Option.some.inj read
    refine ⟨st, rfl, ?_⟩
    have wants : s.wants P st l = true := by
      rw [State.readFires, Bool.and_eq_true, Bool.and_eq_true] at fires
      exact (Bool.and_eq_true_iff.mp fires.1.1).1
    rw [State.wants, Bool.and_eq_true, Bool.and_eq_true, Bool.and_eq_true, Bool.not_eq_true',
      State.rowIsNotAllZeros, decide_eq_true_iff] at wants
    exact ⟨wants.1.1.2, wants.1.2, wants.2, rfl, rfl⟩

theorem Program.wordOf_eq (h : Program P r s) (l : Lane) :
    wordOf P s.config s.head l =
      match l with
      | .b => (s.command (s.retired + placeOf P s.config s.head l)).cmd.rs2
      | _ => (s.command (s.retired + placeOf P s.config s.head l)).cmd.rs1 := by
  rw [← h.head_eq]
  cases l <;> rfl

theorem address_eq (s : State E) (st : Step) (l : Lane) : s.address P st l =
    (st.lanes.get l).addr.add P.array.geometry (if l = .a then s.aAddrOffset else s.rowOf P l) := by
  cases l <;> rfl

theorem mem_operandRows {st : Step} {earlier : List Plan} {n : Lane → ℕ}
    (stepping : Stepping P s st earlier n) {l : Lane} (clean : (st.lanes.get l).isGarbage = false)
    (within : s.rowOf P l < (st.lanes.get l).rows) {y : LocalRow}
    (row : readRow P.array (s.address P st l) = some y) :
    y ∈ operandRows P s.config l (wordOf P s.config s.head l) := by
  obtain ⟨-, eq⟩ := performing_of_current stepping.current
  have lane : st.lanes.get l = operandOf P s.config st.performing l (wordOf P s.config s.head l) := by
    rw [eq, decode_lane]
    rfl
  rw [address_eq, lane] at row
  rw [lane] at clean within
  have clean : (operandOf P s.config .mulPre l (wordOf P s.config s.head l)).isGarbage = false := clean
  rw [operandRows, if_neg (by rw [clean]; decide), List.mem_filterMap]
  refine ⟨s.rowOf P l, List.mem_range.mpr within, ?_⟩
  rw [← row]
  cases l with
  | a =>
    have offset : s.aAddrOffset = s.rowOf P .a * s.config.aAddrStride := stepping.progress.offset
    rw [if_pos rfl, if_pos rfl, ← offset]
    rfl
  | b => rfl
  | d => rfl

theorem compute_place {k : Performing} (can : s.Issuable P k) {l : Lane} (ne : l ≠ .d)
    (fed : startInputting P s.config k l = true) :
    k ≠ .singleMul ∧ placeOf P s.config s.head l = preloadCmdPlace s.head + 1 ∨
      placeOf P s.config s.head l = 0 ∧ doComputes (s.head 0) = true := by
  cases k with
  | singlePreload =>
    refine .inl ⟨by decide, ?_⟩
    have place := preloadCmdPlace_of_preload can.1
    cases l with
    | a => rw [placeOf, aAddressPlace, place]; rfl
    | b => rw [placeOf, bAddressPlace, place]; rfl
    | d => exact absurd rfl ne
  | singleMul => exact .inr ⟨placeOf_singleMul can.1 fed, can.1⟩
  | mulPre =>
    have place := preloadCmdPlace_of_compute can.1
    cases l with
    | a =>
      rw [placeOf, aAddressPlace, place, if_neg Nat.one_ne_zero]
      split_ifs
      · exact .inl ⟨by decide, rfl⟩
      · exact .inr ⟨rfl, can.1⟩
    | b =>
      rw [placeOf, bAddressPlace, place, if_neg Nat.one_ne_zero]
      split_ifs
      · exact .inl ⟨by decide, rfl⟩
      · exact .inr ⟨rfl, can.1⟩
    | d => exact absurd rfl ne

section Reads

variable [Zero E]

theorem covered_new (numbered : Numbered P r s) (hazards : P.rawHazardsAreImpossible = false)
    (rows : Rows P s) (four : 4 ≤ P.array.dim) (wf : WellFormed P s) {x : Read E}
    (mem : x ∈ s.newReads P inp) : Covered P r (s.next P inp) x := by
  obtain ⟨st, current, inputting, clean, within, addr, owner⟩ := mem_newReads mem
  obtain ⟨earlier, n, stepping⟩ := rows.stepping four wf current
  obtain ⟨-, eq⟩ := performing_of_current current
  have program := numbered.program
  have fed : startInputting P s.config st.performing x.lane = true := by
    rw [eq, decode_lane] at inputting
    exact inputting
  have owner : x.owner = s.retired + placeOf P s.config s.head x.lane := by
    rw [owner, eq]
    show (Lanes.of _).get _ = _
    rw [Lanes.get_of, if_pos fed]
  have named : ∀ y, readRow P.array x.addr = some y →
      y ∈ operandRows P r x.lane (wordOf P s.config s.head x.lane) := fun y row => by
    have config := numbered.paired.config_eq program
    rw [← config]
    exact mem_operandRows stepping clean within (addr ▸ row)
  rw [program.wordOf_eq, ← owner] at named
  have steps : (s.next P inp).steps = earlier ++ [st.plan] := stepping.steps_next
  obtain ⟨-, kept⟩ := stepping.earlier_prefix
  -- the pair of a preload that has been fed, with the row among its operands
  have covered {pl : Plan} (mem : pl ∈ earlier ++ [st.plan]) (preloads : pl.preloads)
      (pair : pl.owner.d % 2 = 0 ∧ pl.owner.d + 1 < s.received.length)
      (at' : x.lane = .d ∧ x.owner = pl.owner.d ∨ x.lane ≠ .d ∧ x.owner = pl.owner.d + 1) :
      Covered P r (s.next P inp) x := by
    refine ⟨pl, steps ▸ mem, preloads, ?_, fun y row => ?_⟩
    · rcases at' with ⟨-, eq⟩ | ⟨-, eq⟩ <;> omega
    · have member := named y row
      rw [command_next (by omega), command_next pair.2, pairRows, List.mem_append, List.mem_append]
      rcases at' with ⟨lane, eq⟩ | ⟨lane, eq⟩
      · rw [lane, eq] at member
        exact .inl (.inl member)
      · rw [eq] at member
        cases l : x.lane with
        | a =>
          rw [l] at member
          exact .inl (.inr member)
        | b =>
          rw [l] at member
          exact .inr member
        | d => exact absurd l lane
  have here : st.plan ∈ earlier ++ [st.plan] := List.mem_append_right _ (List.mem_singleton_self _)
  obtain ⟨-, -, pair⟩ := numbered.plan_ok hazards stepping
  by_cases lane : x.lane = .d
  · have preloads : st.plan.preloads := fun single => by
      rw [lane, show st.performing = .singleMul from single] at fed
      cases fed
    obtain ⟨place, -⟩ := stepping.owner_of_preloads preloads
    rw [lane] at owner
    exact covered here preloads (pair preloads) (.inl ⟨lane, owner.trans place.symm⟩)
  · rcases compute_place stepping.can lane fed with ⟨preloads, place⟩ | ⟨place, compute⟩
    · obtain ⟨d, -⟩ := stepping.owner_of_preloads preloads
      refine covered here preloads (pair preloads) (.inr ⟨lane, ?_⟩)
      rw [owner, place, d, Nat.add_assoc]
    · -- the preload of the compute at the head has left the queue
      have long : 0 < s.cmds.length := by
        have := placeOf_lt stepping.can fed
        omega
      have odd := numbered.paired.odd program long compute
      obtain ⟨pl, mem, preloads, d⟩ := numbered.fed (s.retired - 1) (by omega) (by omega)
      refine covered (kept.subset mem) preloads (numbered.pair pl mem preloads) (.inr ⟨lane, ?_⟩)
      rw [owner, place, d]
      omega

theorem Covered.next (numbered : Numbered P r s) (rows : Rows P s) (four : 4 ≤ P.array.dim)
    (wf : WellFormed P s) {x : Read E} (h : Covered P r s x) : Covered P r (s.next P inp) x := by
  obtain ⟨more, steps, -⟩ := rows.steps_next four wf inp
  obtain ⟨pl, mem, preloads, owner, named⟩ := h
  obtain ⟨-, lt⟩ := numbered.pair pl mem preloads
  refine ⟨pl, ?_, preloads, owner, fun y row => ?_⟩
  · rw [steps]
    exact List.mem_append_left _ mem
  · rw [command_next (by omega), command_next lt]
    exact named y row

end Reads

/-! ### The check of the controller -/

def Tag.starts (P : Params) (t : Tag) (preload compute : Issued) : Bool :=
  State.sameAddress P t.addr preload.cmd.rs1 || State.sameAddress P t.addr compute.cmd.rs1 ||
    State.sameAddress P t.addr compute.cmd.rs2

/-- While the controller waits with a pair at hand, every matmul in progress that is to write a row of
the pair has its tag in the array, with the first address of one of the operands. -/
def Sighted (P : Params) (r : Config) (s : State E) : Prop :=
  s.control = .waitingForCmd → preloadCmdPlace s.head + 1 < s.cmds.length →
    ∀ i < s.inProgress.length, ∀ pl ∈ s.inProgress[i]?, pl.preloads →
      (∃ y ∈ pairRows P r (s.head (preloadCmdPlace s.head)) (s.head (preloadCmdPlace s.head + 1)),
        y ∈ destination P r (s.command pl.owner.d)) →
      (s.tags[i]?.any fun t => t.starts P (s.head (preloadCmdPlace s.head))
        (s.head (preloadCmdPlace s.head + 1))) = true

instance (s : State E) : Decidable (Sighted P r s) := by
  unfold Sighted
  infer_instance

theorem not_hazard_of_issue (hazards : P.rawHazardsAreImpossible = false) {k : Performing}
    (issue : s.action P = .issue k) (preloads : k ≠ .singleMul) :
    s.rawHazard P (s.head (preloadCmdPlace s.head)) (s.head (preloadCmdPlace s.head + 1)) = false := by
  obtain ⟨-, conditions⟩ := issue_conditions issue
  cases k with
  | singlePreload =>
    rw [preloadCmdPlace_of_preload conditions.1]
    exact conditions.2.2.resolve_left (by rw [hazards]; decide)
  | singleMul => exact absurd rfl preloads
  | mulPre =>
    rw [preloadCmdPlace_of_compute conditions.1]
    have needed : s.thirdInstructionNeeded P = true := by
      rw [State.thirdInstructionNeeded, hazards, Bool.not_false, Bool.or_true]
    exact (conditions.2.2.2.resolve_left (by rw [needed]; decide)).2

/-- The operands of a matmul have no row in the destinations of those in progress before it. -/
def Apart (P : Params) (r : Config) (cmd : ℕ → Issued) (steps : List Plan) (completed : ℕ) : Prop :=
  ∀ (i j : ℕ) (a b : Plan), completed ≤ j → j < i → steps[i]? = some a → steps[j]? = some b →
    a.preloads → b.preloads → ∀ y ∈ pairRows P r (cmd a.owner.d) (cmd (a.owner.d + 1)),
      y ∉ destination P r (cmd b.owner.d)

theorem destination_of_mem {preload : Issued} {y : LocalRow} (mem : y ∈ destination P r preload) :
    (LocalAddr.ofWord P.array.geometry preload.cmd.rs2).isGarbage P.array.geometry = false := by
  rw [destination] at mem
  split_ifs at mem with garbage
  · cases mem
  · exact Bool.of_not_eq_true garbage

theorem Sighted.apart (sighted : Sighted P r s) (hazards : P.rawHazardsAreImpossible = false)
    {m : ℕ} (tagged : Tagged P s m) {k : Performing} (control : s.control = .waitingForCmd)
    (issue : s.action P = .issue k) (preloads : k ≠ .singleMul)
    (behind : preloadCmdPlace s.head + 1 < s.cmds.length) {i : ℕ} {pl : Plan}
    (at' : s.inProgress[i]? = some pl) (preloads' : pl.preloads) {y : LocalRow}
    (reads : y ∈ pairRows P r (s.head (preloadCmdPlace s.head))
      (s.head (preloadCmdPlace s.head + 1))) : y ∉ destination P r (s.command pl.owner.d) := by
  intro writes
  have lt := (List.getElem?_eq_some_iff.mp at').1
  obtain ⟨t, tag, same⟩ := (Option.any_eq_true _ _).mp
    (sighted control behind i lt pl at' preloads' ⟨y, reads, writes⟩)
  obtain ⟨pl', step, of⟩ := tagged.tags i t tag
  rw [State.inProgress, List.getElem?_drop, step] at at'
  obtain rfl := Option.some.inj at'
  have seen : s.rawHazard P (s.head (preloadCmdPlace s.head))
      (s.head (preloadCmdPlace s.head + 1)) = true := by
    have clean := destination_of_mem writes
    rw [← (of.preload preloads').1] at clean
    refine List.any_eq_true.mpr ⟨t, List.mem_of_getElem? tag, ?_⟩
    rw [clean, hazards, Bool.not_false, Bool.true_and, Bool.and_true]
    exact same
  rw [not_hazard_of_issue hazards issue preloads] at seen
  cases seen

/-! ### The rows that are written -/

/-- The array reports the rows of its requests: at most a block, a whole one in the output-stationary
dataflow. -/
def Reported (P : Params) (r : Config) (inp : Input E) : Prop :=
  ∀ o ∈ inp.out, 0 < o.totalRows ∧ o.totalRows ≤ P.array.dim ∧
    (currentDataflow P.dataflow r.toRegs = .os → o.totalRows = P.array.dim)

instance (inp : Input E) : Decidable (Reported P r inp) := by
  unfold Reported
  infer_instance

theorem outputCounter_lt (reported : Reported P r inp) (lt : s.outputCounter < P.array.dim) :
    s.nextOutputCounter P inp < P.array.dim := by
  rw [State.nextOutputCounter]
  cases out : inp.out with
  | none => exact lt
  | some o =>
    obtain ⟨pos, le, -⟩ := reported o out
    have wide := dim_lt_pow (P := P)
    cases s.tags with
    | nil => exact lt
    | cons t rest =>
      dsimp only
      split_ifs
      · refine (Nat.mod_le _ _).trans_lt ?_
        have max_eq : (o.totalRows + 2 ^ log2Up (P.array.dim + 1) - 1) % 2 ^ log2Up (P.array.dim + 1) =
            o.totalRows - 1 := by
          rw [show o.totalRows + 2 ^ log2Up (P.array.dim + 1) - 1 =
            o.totalRows - 1 + 2 ^ log2Up (P.array.dim + 1) by omega, Nat.add_mod_right,
            Nat.mod_eq_of_lt (by omega)]
        simp only [Odometer.wrappingAdd, max_eq, Bool.not_true, Bool.false_eq_true, if_false]
        split_ifs <;> omega
      · exact lt

theorem write_mem {m : ℕ} (tagged : Tagged P s m) (config : s.config = r)
    (reported : Reported P r inp) (lt : s.outputCounter < P.array.dim) {y : LocalRow}
    (write : s.write P inp = some y) :
    ∃ pl, s.inProgress.head? = some pl ∧ pl.preloads ∧ y ∈ destination P r (s.command pl.owner.d) := by
  rw [State.write] at write
  cases out : inp.out with
  | none =>
    rw [out] at write
    cases write
  | some o =>
    cases tags : s.tags with
    | nil =>
      rw [out, tags] at write
      cases write
    | cons t rest =>
      rw [out, tags] at write
      dsimp only at write
      split_ifs at write with valid
      rw [Bool.and_eq_true, Bool.and_eq_true, Bool.not_eq_true'] at valid
      obtain ⟨pl, step, of⟩ := tagged.tags 0 t (by rw [tags]; rfl)
      have preloads := of.valid valid.1.1
      obtain ⟨addr, rows⟩ := of.preload preloads
      refine ⟨pl, ?_, preloads, ?_⟩
      · rw [List.head?_eq_getElem?, State.inProgress, List.getElem?_drop, step]
      · obtain ⟨-, -, whole⟩ := reported o out
        rw [addr, config, rows] at valid
        rw [addr, config] at write
        rw [destination, if_neg (by rw [valid.1.2]; decide), List.mem_filterMap]
        refine ⟨s.outputCounter, List.mem_range.mpr lt, ?_⟩
        -- the number of rows matters in the output-stationary dataflow only
        cases dataflow : currentDataflow P.dataflow r.toRegs with
        | os =>
          rw [whole dataflow] at valid write
          rw [if_pos valid.2]
          exact write
        | ws =>
          rw [writeThisRow, dataflow] at valid ⊢
          rw [wAddress, dataflow] at write ⊢
          rw [if_pos valid.2]
          exact write

/-! ### Every run -/

structure Stream (P : Params) (r : Config) (s : State E) (inp : Input E) : Prop where
  wellFormed : WellFormed P s
  pairs : Pairs s inp
  reported : Reported P r inp

instance (s : State E) (inp : Input E) : Decidable (Stream P r s inp) :=
  decidable_of_iff (_ ∧ _ ∧ _) ⟨fun h => ⟨h.1, h.2.1, h.2.2⟩, fun h => ⟨h.1, h.2, h.3⟩⟩

/-- The steps are known by their commands, and the operands of each matmul avoid the destinations before
it. -/
structure Tracked (P : Params) (r : Config) (s : State E) : Prop where
  rows : Rows P s
  numbered : Numbered P r s
  tagged : ∃ m start, Feeding P s m start ∧ Tagged P s m
  counter : s.outputCounter < P.array.dim
  covered : ∀ x ∈ s.asked, Covered P r s x
  apart : Apart P r s.command s.steps s.completed

theorem Tracked.init (h : s.Init) (config : s.config = r) (four : 4 ≤ P.array.dim) :
    Tracked P r s where
  rows := .init h
  numbered := .init h config
  tagged := ⟨0, _, .init h, .init h⟩
  counter := by
    rw [h.outputCounter]
    omega
  covered x mem := by
    rw [h.asked] at mem
    cases mem
  apart i j a b _ _ first := by
    rw [h.steps] at first
    cases first

section Run

variable [Zero E] {m : ℕ}

theorem apart_cycle (apart : Apart P r s.command s.steps s.completed) (sighted : Sighted P r s)
    (hazards : P.rawHazardsAreImpossible = false) (tagged : Tagged P s m)
    (numbered : Numbered P r s) (rows : Rows P s) (four : 4 ≤ P.array.dim) (wf : WellFormed P s) :
    Apart P r (s.next P inp).command (s.next P inp).steps s.completed := by
  have old : Apart P r (s.next P inp).command s.steps s.completed := by
    intro i j a b from' lt first second pa pb y reads
    have mem := List.mem_of_getElem? first
    obtain ⟨-, within⟩ := numbered.pair a mem pa
    rw [command_next (by omega), command_next within] at reads
    rw [command_next (numbered.known b (List.mem_of_getElem? second))]
    exact apart i j a b from' lt first second pa pb y reads
  cases current : s.current P with
  | none =>
    rw [(next_of_no_current current inp).2.2.2]
    exact old
  | some st =>
    obtain ⟨earlier, n, stepping⟩ := rows.stepping four wf current
    rw [stepping.steps_next]
    rcases stepping.steps with ⟨control, steps⟩ | ⟨-, steps⟩
    · -- the step is issued in this cycle
      intro i j a b from' lt first second pa pb y reads
      rw [steps] at old
      rcases getElem?_concat_cases first with first | ⟨rfl, rfl⟩
      · rw [List.getElem?_append_left
          (lt.trans (List.getElem?_eq_some_iff.mp first).1)] at second
        exact old i j a b from' lt first second pa pb y reads
      · rw [List.getElem?_append_left lt] at second
        have issue : s.action P = .issue st.performing := by
          rcases control_of_current current with ⟨-, action⟩ | ⟨compute, -⟩
          · exact action
          · rw [control] at compute
            cases compute
        obtain ⟨owner, -, -⟩ := stepping.owner_of_preloads pa
        obtain ⟨-, known, pair⟩ := numbered.plan_ok hazards stepping
        have second' : s.steps[j]? = some b := steps ▸ second
        rw [command_next known, command_next (pair pa).2, owner, Nat.add_assoc,
          ← numbered.program.head_eq, ← numbered.program.head_eq] at reads
        rw [command_next (numbered.known b (List.mem_of_getElem? second'))]
        have at' : s.inProgress[j - s.completed]? = some b := by
          rw [State.inProgress, List.getElem?_drop, Nat.add_sub_cancel' from', second']
        exact sighted.apart hazards tagged control issue pa
          (stepping.behind_of_preloads hazards pa) at' pb reads
    · rw [← steps]
      exact old

variable (h : Tracked P r s) (hazards : P.rawHazardsAreImpossible = false) (four : 4 ≤ P.array.dim)
include h hazards four

theorem Tracked.covered_cycle (wf : WellFormed P s) :
    ∀ x ∈ (s.next P inp).asked, Covered P r (s.next P inp) x := by
  intro x mem
  rcases List.mem_append.mp (show x ∈ s.asked ++ s.newReads P inp from mem) with old | new
  · exact (h.covered x old).next h.numbered h.rows four wf
  · exact covered_new h.numbered hazards h.rows four wf new

theorem Tracked.next (stream : Stream P r s inp) (sighted : Sighted P r s) :
    Tracked P r (s.next P inp) := by
  obtain ⟨wf, pairs, reported⟩ := stream
  obtain ⟨m, start, feeding, tagged⟩ := h.tagged
  obtain ⟨start', feeding'⟩ : ∃ start', Feeding P (s.next P inp)
      (m + (s.taken P inp).isSome.toNat) start' := feeding.next h.rows four wf
  constructor
  · exact h.rows.next four wf
  · exact h.numbered.next hazards h.rows four wf pairs
  · exact ⟨_, _, feeding', tagged.next feeding h.numbered hazards h.rows four wf⟩
  · exact outputCounter_lt reported h.counter
  · exact h.covered_cycle hazards four wf
  · intro i j a b from' lt
    have grows : s.completed ≤ (s.next P inp).completed := Nat.le_add_right _ _
    exact apart_cycle h.apart sighted hazards tagged h.numbered h.rows four wf i j a b
      (grows.trans from') lt

end Run

/-- In every run of a stream of pairs in which the controller can see what it has to wait for, no row
has been read for a pair that a matmul in progress before it is to write, and the rows that are written
are those of the oldest matmul in progress. -/
theorem reads_after_writes [Zero E] (four : 4 ≤ P.array.dim)
    (hazards : P.rawHazardsAreImpossible = false)
    (reach : ((controller E P r).restrict fun s inp => Stream P r s inp ∧ Sighted P r s).Reachable s)
    (stream : Stream P r s inp) (sighted : Sighted P r s) :
    (∀ pl ∈ s.inProgress, pl.preloads → ∀ x ∈ (s.next P inp).asked,
      pl.owner.d / 2 < x.owner / 2 → ∀ y, readRow P.array x.addr = some y →
        y ∉ destination P r (s.command pl.owner.d)) ∧
    ∀ y, s.write P inp = some y → ∃ pl, s.inProgress.head? = some pl ∧ pl.preloads ∧
      y ∈ destination P r (s.command pl.owner.d) := by
  have tracked : Tracked P r s := by
    apply reach.invariant
    · rintro s ⟨init, config⟩
      exact .init init config four
    · rintro s inp - tracked ⟨-, stream, sighted⟩
      exact tracked.next hazards four stream sighted
  obtain ⟨m, start, -, tagged⟩ := tracked.tagged
  have numbered := tracked.numbered
  have wf := stream.wellFormed
  constructor
  · intro pl mem preloads x asked later y row writes
    obtain ⟨j, at'⟩ := List.mem_iff_getElem?.mp mem
    rw [State.inProgress, List.getElem?_drop] at at'
    have known := List.mem_of_getElem? at'
    obtain ⟨pl', mem', preloads', owner, named⟩ := tracked.covered_cycle hazards four wf x asked
    obtain ⟨i, step⟩ := List.mem_iff_getElem?.mp mem'
    obtain ⟨more, steps, -⟩ := tracked.rows.steps_next four wf inp
    have step' : (s.next P inp).steps[s.completed + j]? = some pl := by
      rw [steps, List.getElem?_append_left (List.getElem?_eq_some_iff.mp at').1, at']
    have behind : pl.owner.d < pl'.owner.d := by omega
    -- the pair of the read was begun after the matmul
    have lt : s.completed + j < i := by
      have ordered := (numbered.next hazards tracked.rows four wf stream.pairs).ordered
      rw [List.pairwise_iff_getElem] at ordered
      obtain ⟨hj, rfl⟩ := List.getElem?_eq_some_iff.mp step'
      obtain ⟨hi, rfl⟩ := List.getElem?_eq_some_iff.mp step
      rcases lt_trichotomy i (s.completed + j) with before | same | after
      · have := ordered i (s.completed + j) hi hj before
        omega
      · subst same
        exact absurd behind (Nat.lt_irrefl _)
      · exact after
    refine apart_cycle tracked.apart sighted hazards tagged numbered tracked.rows four wf i
      (s.completed + j) pl' pl (Nat.le_add_right _ _) lt step step' preloads' preloads y
      (named y row) ?_
    rw [command_next (numbered.known pl known)]
    exact writes
  · intro y write
    exact write_mem tagged (numbered.paired.config_eq numbered.program) stream.reported
      tracked.counter write

/-- Two pairs; the first one writes rows 8 to 11, the A of the second begins at the given row. -/
def dependentPairs (a : ℕ) : List Issued :=
  [command .preload (block 0) (block 8), command .computeAndFlip (block 16) noBlock,
    command .preload (block 0) (block 12), command .computeAndFlip (block a) noBlock]

def resultCycle : Input ℕ := { cycle none (fun _ => true) with out := some ⟨4, false⟩ }

def dependentRun (a idle results : ℕ) : List (Input ℕ) :=
  (dependentPairs a).map (fun c => cycle (some c) fun _ => true) ++
    List.replicate idle (cycle none fun _ => true) ++ List.replicate results resultCycle

def dependentState (a idle results : ℕ) : State ℕ :=
  (controller ℕ fourExecute wsConfig).run (.reset ℕ fourExecute wsConfig) (dependentRun a idle results)

/-- The second pair begins where the first one writes, and waits. -/
theorem reads_after_writes_waiting :
    let s := dependentState 8 18 1
    s.write fourExecute resultCycle = some ⟨false, 9⟩ ∧ s.cmds = (dependentPairs 8).drop 2 ∧
      ∀ pl ∈ s.inProgress, pl.preloads → ∀ x ∈ (s.next fourExecute resultCycle).asked,
        pl.owner.d / 2 < x.owner / 2 → ∀ y, readRow fourArray x.addr = some y →
          y ∉ destination fourExecute wsConfig (s.command pl.owner.d) := by
  have reach : ((controller ℕ fourExecute wsConfig).restrict fun s inp =>
      Stream fourExecute wsConfig s inp ∧ Sighted fourExecute wsConfig s).Reachable _ :=
    reachable_of_reset (by decide) (dependentRun 8 18 1) (by decide)
  have stream : Stream fourExecute wsConfig (dependentState 8 18 1) resultCycle := by decide
  exact ⟨by decide, by decide,
    (reads_after_writes (by decide) (by decide) reach stream (by decide)).1⟩

/-- The second pair begins one row later, and has read row 9 when the first one writes it. -/
theorem reads_before_write :
    ∃ s, ((controller ℕ fourExecute wsConfig).restrict (Stream fourExecute wsConfig)).Reachable s ∧
      Stream fourExecute wsConfig s resultCycle ∧
      s.inProgress.head?.map (·.owner.d) = some 0 ∧
      s.write fourExecute resultCycle = some ⟨false, 9⟩ ∧
      ∃ x ∈ s.asked, x.owner = 3 ∧ readRow fourArray x.addr = some ⟨false, 9⟩ := by
  refine ⟨dependentState 9 18 1, reachable_of_reset (by decide) (dependentRun 9 18 1)
    (by decide), ?_⟩
  decide

end Gemmini.Execute
