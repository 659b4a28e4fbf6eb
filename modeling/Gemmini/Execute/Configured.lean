import Gemmini.Execute.Feeding

/-!
# Which configuration a row is treated by

Dataflow, transposes and shift go into the control queue with an entry, but whether A and B are zeroed
is decided by the registers at its end, which a `CONFIG_EX` may have changed in between.
-/

namespace Gemmini.Execute

open Lockstep

variable {E : Type} {P : Params} {r : Config} {s : State E} {inp : Input E}

/-! ### Commands in the order of the program -/

def Config.after (P : Params) (r : Config) (cmds : List Issued) : Config :=
  cmds.foldl (fun r c => r.configure P c.cmd) r

theorem Config.after_append (r : Config) (xs ys : List Issued) :
    r.after P (xs ++ ys) = (r.after P xs).after P ys := List.foldl_append

theorem Config.configure_of_ne (r : Config) {c : Issued} (h : doConfig c = false) :
    r.configure P c.cmd = r := by
  have ne : ¬IsConfigEx c.cmd := fun ex => by
    rw [doConfig, decide_eq_false_iff_not] at h
    exact h ex.1
  rw [Config.configure, Regs.configure, if_neg ne, if_neg fun both => ne both.1]

theorem Config.after_of_ne (r : Config) {cmds : List Issued} (h : ∀ c ∈ cmds, doConfig c = false) :
    r.after P cmds = r := by
  induction cmds with
  | nil => rfl
  | cons c cmds ih =>
    rw [Config.after, List.foldl_cons, configure_of_ne r (h c List.mem_cons_self)]
    exact ih fun c' mem => h c' (List.mem_cons_of_mem _ mem)

theorem not_doConfig_of_compute {c : Issued} (h : doComputes c = true) : doConfig c = false := by
  rw [doComputes, Bool.or_eq_true, decide_eq_true_iff, decide_eq_true_iff] at h
  rw [doConfig, decide_eq_false_iff_not]
  rcases h with h | h <;> rw [h] <;> decide

theorem not_doConfig_of_preload {c : Issued} (h : doPreloads c = true) : doConfig c = false := by
  rw [doPreloads, decide_eq_true_iff] at h
  rw [doConfig, decide_eq_false_iff_not, h]
  decide

theorem head_eq_get {i : ℕ} (lt : i < s.cmds.length) : s.head i = s.cmds[i] := by
  rw [State.head, List.getD_eq_getElem?_getD, List.getElem?_eq_getElem lt, Option.getD_some]

def Performing.commands (k : Performing) : ℕ := if k = .mulPre then 2 else 1

theorem not_config_of_issuable {k : Performing} (can : s.Issuable P k) :
    k.commands ≤ s.cmds.length ∧ ∀ c ∈ s.cmds.take k.commands, doConfig c = false := by
  have single (long : 0 < s.cmds.length) (plain : doConfig (s.head 0) = false) :
      ∀ c ∈ s.cmds.take 1, doConfig c = false := by
    intro c mem
    rw [head_eq_get long] at plain
    rw [List.take_one, List.head?_eq_getElem?, List.getElem?_eq_getElem long, Option.toList_some,
      List.mem_singleton] at mem
    exact mem ▸ plain
  cases k with
  | singlePreload =>
    obtain ⟨preload, long⟩ := can
    exact ⟨long.le, single (by omega) (not_doConfig_of_preload preload)⟩
  | singleMul =>
    obtain ⟨compute, long⟩ := can
    exact ⟨long, single long (not_doConfig_of_compute compute)⟩
  | mulPre =>
    obtain ⟨compute, preload, long, -⟩ := can
    refine ⟨long, fun c mem => ?_⟩
    have two : s.cmds.take 2 = s.cmds.take 1 ++ [s.cmds[1]] := (List.take_concat_get' _ _ long).symm
    have mem : c ∈ s.cmds.take 2 := mem
    rw [two, List.mem_append, List.mem_singleton] at mem
    rcases mem with mem | rfl
    · exact single (by omega) (not_doConfig_of_compute compute) c mem
    · exact head_eq_get long ▸ not_doConfig_of_preload preload

theorem placeOf_le {k : Performing} (can : s.Issuable P k) {l : Lane}
    (fed : startInputting P s.config k l = true) : placeOf P s.config s.head l ≤ k.commands := by
  cases k with
  | singlePreload =>
    have place := preloadCmdPlace_of_preload can.1
    cases l <;> simp only [placeOf, aAddressPlace, bAddressPlace, place, if_true] <;> decide
  | singleMul =>
    rw [placeOf_singleMul can.1 fed]
    exact Nat.zero_le _
  | mulPre =>
    have place := preloadCmdPlace_of_compute can.1
    cases l <;> simp only [placeOf, aAddressPlace, bAddressPlace, place] <;> (try split_ifs) <;> decide

/-- The commands in the queue, and the registers that those before them have set. -/
structure Program (P : Params) (r : Config) (s : State E) : Prop where
  cmds : s.cmds = s.received.drop s.retired
  le : s.retired ≤ s.received.length
  config : s.config = r.after P (s.received.take s.retired)

namespace Program

theorem length (h : Program P r s) : s.retired + s.cmds.length = s.received.length := by
  have := h.le
  rw [h.cmds, List.length_drop]
  omega

theorem take_add (h : Program P r s) (i : ℕ) :
    s.received.take (s.retired + i) = s.received.take s.retired ++ s.cmds.take i := by
  rw [h.cmds, List.take_add]

theorem after_take (h : Program P r s) {i : ℕ} (plain : ∀ c ∈ s.cmds.take i, doConfig c = false) :
    r.after P (s.received.take (s.retired + i)) = s.config := by
  rw [h.take_add, Config.after_append, ← h.config, Config.after_of_ne _ plain]

theorem valid_of_config (action : s.action P = .config) : 0 < s.cmds.length := by
  by_contra no
  have invalid : s.headValid 0 = false := decide_eq_false no
  rw [State.action, invalid, if_neg Bool.false_ne_true] at action
  split_ifs at action

variable [Zero E]

theorem config_next (rows : Rows P s) (inp : Input E) :
    s.pops P inp ≤ s.cmds.length ∧
      (s.next P inp).config = s.config.after P (s.cmds.take (s.pops P inp)) := by
  show _ ∧ (if s.control = .waitingForCmd ∧ s.action P = .config then
    s.config.configure P (s.head 0).cmd else s.config) = _
  have still (pops : s.pops P inp = 0) (same : ¬(s.control = .waitingForCmd ∧ s.action P = .config)) :
      s.pops P inp ≤ s.cmds.length ∧
        (if s.control = .waitingForCmd ∧ s.action P = .config then
          s.config.configure P (s.head 0).cmd else s.config) =
          s.config.after P (s.cmds.take (s.pops P inp)) := by
    rw [pops, if_neg same]
    exact ⟨Nat.zero_le _, rfl⟩
  cases control : s.control with
  | waitingForCmd =>
    by_cases action : s.action P = .config
    · have pops : s.pops P inp = 1 := by
        rw [State.pops, control]
        exact if_pos action
      have long := valid_of_config action
      rw [pops, if_pos ⟨rfl, action⟩, List.take_one, List.head?_eq_getElem?,
        List.getElem?_eq_getElem long, head_eq_get long]
      exact ⟨long, rfl⟩
    · refine control ▸ still ?_ fun both => action both.2
      rw [State.pops, control]
      exact if_neg action
  | compute =>
    obtain ⟨st, earlier, n, stepping⟩ := rows.busy control
    have perform : s.perform = st.performing := by
      rcases control_of_current stepping.current with ⟨no, -⟩ | ⟨-, perform⟩
      · rw [control] at no
        cases no
      · exact perform
    obtain ⟨le, plain⟩ := not_config_of_issuable stepping.can
    have pops : s.pops P inp = if s.finishes P inp then st.performing.commands else 0 := by
      rw [State.pops, control, perform]
      rfl
    cases ends : s.finishes P inp with
    | false =>
      refine control ▸ still ?_ fun both => ?_
      · rw [pops, ends, if_neg Bool.false_ne_true]
      · rw [control] at both
        cases both.1
    | true =>
      rw [ends, if_pos rfl] at pops
      rw [pops, Config.after_of_ne _ plain, if_neg fun both => Control.noConfusion both.1]
      exact ⟨le, rfl⟩
  | flush | flushing =>
    refine control ▸ still (by rw [State.pops, control]) fun both => ?_
    rw [control] at both
    cases both.1

omit [Zero E] in
theorem init (h : s.Init) (config : s.config = r) : Program P r s where
  cmds := by rw [h.cmds, h.received, h.retired]; rfl
  le := by rw [h.retired]; exact Nat.zero_le _
  config := by rw [config, h.retired]; rfl

theorem next (h : Program P r s) (rows : Rows P s) : Program P r (s.next P inp) := by
  obtain ⟨le, config⟩ := config_next rows inp
  have long := h.length
  have within : s.retired + s.pops P inp ≤ s.received.length := by omega
  constructor
  · show s.cmds.drop (s.pops P inp) ++ s.newCmd P inp =
      (s.received ++ s.newCmd P inp).drop (s.retired + s.pops P inp)
    rw [List.drop_append_of_le_length within, h.cmds, List.drop_drop]
  · show s.retired + s.pops P inp ≤ (s.received ++ s.newCmd P inp).length
    rw [List.length_append]
    omega
  · show _ = r.after P ((s.received ++ s.newCmd P inp).take (s.retired + s.pops P inp))
    rw [config, List.take_append_of_le_length within, h.take_add, Config.after_append, ← h.config]

end Program

/-! ### The rows and their configuration -/

/-- A row is passed on or zeroed as a configuration says, under a request with its dataflow, transposes
and shift. -/
structure Treats (P : Params) (cfg : Config) (req : Mesh.Req Tag) (f : Fed E) (l : Lane) [Zero E] :
    Prop where
  passed : f.passed = passes P cfg f.step.performing l
  zeroed : f.passed = false → ∀ i, f.data i = 0
  dataflow : req.control.dataflow = currentDataflow P.dataflow cfg.toRegs
  shift : req.control.shift = cfg.inShift
  aTranspose : req.aTranspose = cfg.aTranspose
  bdTranspose : req.bdTranspose = cfg.bdTranspose

/-- A row that was passed on or zeroed as the configuration of its own step says. -/
def Fed.Faithful (P : Params) [Zero E] (l : Lane) (f : Fed E) : Prop :=
  f.passed = passes P f.step.config f.step.performing l ∧ (f.passed = false → ∀ i, f.data i = 0)

/-- The configuration of every step is that of the program before its commands, and its rows have been
treated by it. -/
structure Configured (P : Params) [Zero E] (r : Config) (s : State E) : Prop where
  plans : ∀ pl ∈ s.steps, ∀ l, pl.owner.get l < s.received.length ∧
    pl.config = r.after P (s.received.take (pl.owner.get l))
  queue : ∀ e ∈ s.cntl, ∀ l, passes P s.config e.step.performing l =
    passes P e.step.config e.step.performing l
  bufs : ∀ l, ∀ f ∈ s.buf.get l, f.Faithful P l
  log : ∀ x ∈ s.entered, ∀ l, ∀ f ∈ x.rows.get l, f.Faithful P l

/-- A `CONFIG_EX` leaves the operands in the control queue where they are: they belong to overlapped
steps, or A and B are fed into the transposer as before. -/
def Settled (P : Params) (s : State E) (inp : Input E) : Prop :=
  s.control = .waitingForCmd → s.action P = .config →
    ∀ e ∈ if s.deqFire P inp then s.cntl.tail else s.cntl, e.step.performing = .mulPre ∨
      aShouldBeFedIntoTransposer P.dataflow (s.config.configure P (s.head 0).cmd).toRegs =
          aShouldBeFedIntoTransposer P.dataflow s.config.toRegs ∧
        bShouldBeFedIntoTransposer P.dataflow (s.config.configure P (s.head 0).cmd).toRegs =
          bShouldBeFedIntoTransposer P.dataflow s.config.toRegs

instance (s : State E) (inp : Input E) : Decidable (Settled P s inp) := by
  unfold Settled
  infer_instance

theorem passes_congr {cfg cfg' : Config} {k : Performing}
    (same : k = .mulPre ∨
      aShouldBeFedIntoTransposer P.dataflow cfg'.toRegs =
          aShouldBeFedIntoTransposer P.dataflow cfg.toRegs ∧
        bShouldBeFedIntoTransposer P.dataflow cfg'.toRegs =
          bShouldBeFedIntoTransposer P.dataflow cfg.toRegs) (l : Lane) :
    passes P cfg' k l = passes P cfg k l := by
  rcases same with rfl | ⟨a, b⟩
  · cases l <;> rfl
  · cases l <;> cases k <;> simp only [passes, a, b]

section Step

variable [Zero E]

theorem presented_faithful {e : Entry} {l : Lane} (same : passes P s.config e.step.performing l =
    passes P e.step.config e.step.performing l) : (s.presented P inp e l).Faithful P l := by
  refine ⟨same, fun zeroed i => ?_⟩
  have zeroed : passes P s.config e.step.performing l = false := zeroed
  show (if _ then _ else _ : E) = 0
  exact if_neg fun both => by
    rw [zeroed] at both
    exact Bool.false_ne_true both.1

theorem Configured.init (h : s.Init) : Configured P r s where
  plans pl mem := by
    rw [h.steps] at mem
    cases mem
  queue e mem := by
    rw [h.cntl] at mem
    cases mem
  bufs l f mem := by
    rw [h.buf l] at mem
    cases mem
  log x mem := by
    rw [h.entered] at mem
    cases mem

omit [Zero E] in
theorem Stepping.plan_configured {st : Step} {earlier : List Plan} {n : Lane → ℕ}
    (h : Stepping P s st earlier n) (program : Program P r s) (l : Lane) :
    st.plan.owner.get l < s.received.length ∧
      st.plan.config = r.after P (s.received.take (st.plan.owner.get l)) := by
  obtain ⟨-, eq⟩ := performing_of_current h.current
  obtain ⟨long, plain⟩ := not_config_of_issuable h.can
  have length := program.length
  have owner : st.plan.owner.get l = s.retired +
      if startInputting P s.config st.performing l then placeOf P s.config s.head l else 0 := by
    rw [eq]
    exact Lanes.get_of _ l
  have config : st.plan.config = s.config := by rw [eq]; rfl
  have positive : 0 < st.performing.commands := by
    rw [Performing.commands]
    split_ifs <;> decide
  rw [owner, config]
  split_ifs with fed
  · have le := placeOf_le h.can fed
    have lt := placeOf_lt h.can fed
    refine ⟨by omega, (program.after_take fun c mem => plain c ?_).symm⟩
    exact List.take_subset_take_left _ le mem
  · exact ⟨by omega, program.config⟩

theorem Configured.next (h : Configured P r s) (rows : Rows P s) (program : Program P r s)
    (four : 4 ≤ P.array.dim) (wf : WellFormed P s) (settled : Settled P s inp) :
    Configured P r (s.next P inp) := by
  have received : (s.next P inp).received = s.received ++ s.newCmd P inp := rfl
  refine ⟨fun pl mem l => ?_, fun e mem l => ?_, fun l f mem => ?_, fun x mem l f row => ?_⟩
  · have known : pl.owner.get l < s.received.length ∧
        pl.config = r.after P (s.received.take (pl.owner.get l)) := by
      cases current : s.current P with
      | none =>
        rw [(next_of_no_current current inp).2.2.2] at mem
        exact h.plans pl mem l
      | some st =>
        obtain ⟨earlier, n, stepping⟩ := rows.stepping four wf current
        rw [stepping.steps_next, List.mem_append, List.mem_singleton] at mem
        rcases mem with mem | rfl
        · refine h.plans pl ?_ l
          rcases stepping.steps with ⟨-, eq⟩ | ⟨-, eq⟩
          · exact eq ▸ mem
          · exact eq ▸ List.mem_append_left _ mem
        · exact stepping.plan_configured program l
    rw [received, List.length_append, List.take_append_of_le_length known.1.le]
    exact ⟨by omega, known.2⟩
  · rcases cntl_next_cases mem with ⟨stays, old⟩ | ⟨st, current, rfl⟩
    · rw [← h.queue e old l]
      by_cases configures : s.control = .waitingForCmd ∧ s.action P = .config
      · rw [show (s.next P inp).config = s.config.configure P (s.head 0).cmd from if_pos configures]
        exact passes_congr (settled configures.1 configures.2 e stays) l
      · rw [show (s.next P inp).config = s.config from if_neg configures]
    · obtain ⟨earlier, n, stepping⟩ := rows.stepping four wf current
      rw [stepping.config_next]
      show _ = passes P st.config _ l
      rw [(performing_of_current current).2]
      rfl
  · rw [buf_next] at mem
    cases arrives : s.arrives P inp l with
    | some x =>
      rw [arrives] at mem
      obtain rfl := Option.some.inj mem
      cases queue : s.cntl with
      | nil => rw [State.arrives, queue] at arrives; cases arrives
      | cons e rest =>
        rw [State.arrives, queue] at arrives
        dsimp only at arrives
        split_ifs at arrives
        obtain rfl := Option.some.inj arrives
        exact presented_faithful (h.queue e (queue ▸ List.mem_cons_self) l)
    | none =>
      rw [arrives] at mem
      dsimp only at mem
      split_ifs at mem
      · cases mem
      · exact h.bufs l f mem
  · change x ∈ (if s.inputNextRow && decide (s.req.flush = 0) then s.entered ++ [⟨s.req, s.buf⟩]
      else s.entered) at mem
    split_ifs at mem
    · rw [List.mem_append, List.mem_singleton] at mem
      rcases mem with mem | rfl
      · exact h.log x mem l f row
      · exact h.bufs l f row
    · exact h.log x mem l f row

end Step

/-! ### Every run -/

/-- In every run in which a `CONFIG_EX` leaves the operands in the control queue where they are, the
rows that enter the array are treated by the configuration of the program before the command that names
them, and so will be those still in the queue. -/
theorem treated_as_configured [Zero E] (four : 4 ≤ P.array.dim)
    (reach : ((controller E P r).restrict fun s inp => WellFormed P s ∧ Settled P s inp).Reachable s) :
    (∀ x ∈ s.entered, ∀ l, ∃ f, x.rows.get l = some f ∧
      f.step.owner.get l < s.received.length ∧
      Treats P (r.after P (s.received.take (f.step.owner.get l))) x.req f l) ∧
    ∀ e ∈ s.cntl, ∀ l, passes P s.config e.step.performing l =
      passes P (r.after P (s.received.take (e.step.owner.get l))) e.step.performing l := by
  obtain ⟨⟨-, m, start, feeding⟩, -, configured⟩ :
      Orderly P s ∧ Program P r s ∧ Configured P r s := by
    refine reach.invariant (P := fun s => Orderly P s ∧ Program P r s ∧ Configured P r s) ?_ ?_
    · rintro s ⟨init, config⟩
      exact ⟨.init init, .init init config, .init init⟩
    · rintro s inp - ⟨orderly, program, configured⟩ ⟨-, wf, settled⟩
      exact ⟨orderly.next four wf, program.next orderly.rows,
        configured.next orderly.rows program four wf settled⟩
  constructor
  · intro x mem l
    obtain ⟨k, at'⟩ := List.mem_iff_getElem?.mp mem
    obtain ⟨⟨j, pl, step, serves, above, below⟩, rows⟩ := feeding.log k x at'
    obtain ⟨f, row, number, ok⟩ := rows l
    -- the request in force is that of the step of the row
    obtain rfl : f.serial = j :=
      serial_unique ok.above ok.below (number ▸ above) (number ▸ below)
    obtain rfl : pl = f.step.plan := Option.some.inj (step.symm.trans ok.plan)
    obtain ⟨lt, config⟩ := configured.plans _ (List.mem_of_getElem? step) l
    obtain ⟨passed, zeroed⟩ := configured.log x mem l f row
    refine ⟨f, row, lt, ?_⟩
    rw [show f.step.owner = f.step.plan.owner from rfl, ← config]
    exact ⟨passed, zeroed, serves.dataflow, serves.shift, serves.aTranspose, serves.bdTranspose⟩
  · intro e mem l
    have ok := feeding.chain.ok_of_mem mem
    obtain ⟨-, config⟩ := configured.plans _ (List.mem_of_getElem? ok.plan) l
    rw [show e.step.owner = e.step.plan.owner from rfl, ← config]
    exact configured.queue e mem l

def plainProduct : List Issued :=
  [command .config (4 + 2 ^ 16) (2 ^ 48), command .preload (block 0) noBlock,
    command .computeAndFlip (block 16) noBlock]

def transposing : Issued := command .config (4 + 2 ^ 8 + 2 ^ 16) (2 ^ 48)

def transposedLater : List (Input ℕ) :=
  plainProduct.map (fun c => cycle (some c) fun _ => true) ++
    List.replicate 12 (cycle none fun _ => true) ++ [cycle (some transposing) fun _ => true] ++
    List.replicate 2 (cycle none fun _ => true)

theorem treated_as_configured_later :
    let s := (controller ℕ fourExecute wsConfig).run (.reset ℕ fourExecute wsConfig) transposedLater
    s.config.aTranspose = true ∧ s.entered.length = 8 ∧
      ∀ x ∈ s.entered, ∀ l, ∃ f, x.rows.get l = some f ∧
        f.step.owner.get l < s.received.length ∧
        Treats fourExecute (wsConfig.after fourExecute (s.received.take (f.step.owner.get l))) x.req f
          l := by
  have reach : ((controller ℕ fourExecute wsConfig).restrict fun s inp =>
      WellFormed fourExecute s ∧ Settled fourExecute s inp).Reachable _ :=
    reachable_of_reset (by decide) transposedLater (by decide)
  exact ⟨by decide, by decide, (treated_as_configured (by decide) reach).1⟩

/-- The next configuration is right behind the product, and the responses to its reads are late. -/
def transposedBehind : List (Input ℕ) :=
  plainProduct.map (fun c => cycle (some c) fun _ => true) ++
    [cycle (some transposing) fun _ => true] ++ List.replicate 5 (cycle none fun _ => true) ++
    List.replicate 5 (cycle none fun _ => false) ++ List.replicate 6 (cycle none fun _ => true)

def zeroedRows (P : Params) (r : Config) (s : State E) : List ℕ :=
  s.entered.filterMap fun x => x.rows.a.bind fun f =>
    if passes P (r.after P (s.received.take f.step.owner.a)) f.step.performing .a && !f.passed then
      some f.number
    else none

theorem treated_as_next_configuration :
    ∃ s, ((controller ℕ fourExecute wsConfig).restrict fun s _ => WellFormed fourExecute s).Reachable
      s ∧ zeroedRows fourExecute wsConfig s = [5, 6, 7] := by
  exact ⟨_, reachable_of_reset (by decide) transposedBehind (by decide), by decide⟩

end Gemmini.Execute
